import MatrixCube.Prophet.Statistics.IndexedHeap

/-! # `singleTopN`

A `singleTopN` is `Sound` when both heaps are well formed and in order for its
dimension and no ID is stored twice, and `Balanced` when `topn` holds
`min n (Len())` items, none of them below an item of `rest`. `promote` and
`demote` move a root from one heap to the other; both loops of `maintain` end
within the fuel the model gives them, and `maintain` makes a sound
`singleTopN` whose `topn` is not over `n` balanced. `Put` and `Remove` then keep
both properties and change the items as a store does, and none of `Get`, `Put`
and `Remove` panics.
-/

namespace MatrixCube.Prophet.Statistics

namespace SingleTopN

open IndexedHeap

variable {α : Type} (ID : α → UInt64) {K : Type} [LinearOrder K] (rate : Nat → α → K)

/-- The heaps of a `singleTopN` are well formed and in heap order for its
dimension, and no ID is stored twice. -/
structure Sound (stn : SingleTopN α) : Prop where
  topn : WF ID stn.k false stn.topn
  rest : WF ID stn.k true stn.rest
  topn_ordered : Heap.Ordered (rate stn.k) stn.topn.items stn.topn.items.length
  rest_ordered : Heap.Ordered (OrderDual.toDual ∘ rate stn.k) stn.rest.items stn.rest.items.length
  nodup : (stn.getAll.map ID).Nodup

/-- `topn` holds `min n (Len())` items, and none of them is below an item of `rest`. -/
structure Balanced (stn : SingleTopN α) : Prop where
  size : stn.topn.items.length = min stn.n stn.getAll.length
  split : ∀ x ∈ stn.topn.items, ∀ y ∈ stn.rest.items, ¬ rate stn.k x < rate stn.k y

variable {ID rate}

@[simp] theorem getAll_eq (stn : SingleTopN α) : stn.getAll = stn.topn.items ++ stn.rest.items := rfl

theorem newSingleTopN_sound (k n : Nat) : Sound ID rate (newSingleTopN k n : SingleTopN α) where
  topn := newTopNHeap_wf k
  rest := newRevTopNHeap_wf k
  topn_ordered := Heap.ordered_of_length_le (by simp [newSingleTopN, newTopNHeap])
  rest_ordered := Heap.ordered_of_length_le (by simp [newSingleTopN, newRevTopNHeap])
  nodup := by simp [newSingleTopN, newTopNHeap, newRevTopNHeap]

theorem newSingleTopN_balanced (k n : Nat) : Balanced rate (newSingleTopN k n : SingleTopN α) where
  size := by simp [newSingleTopN, newTopNHeap, newRevTopNHeap]
  split := by simp [newSingleTopN, newTopNHeap]

section Moves

variable {stn : SingleTopN α}

theorem Sound.root_topn (hs : Sound ID rate stn) {t : α} (ht : stn.topn.items[0]? = some t) :
    ∀ x ∈ stn.topn.items, ¬ rate stn.k x < rate stn.k t :=
  hs.topn_ordered.root ht

theorem Sound.root_rest (hs : Sound ID rate stn) {r : α} (hr : stn.rest.items[0]? = some r) :
    ∀ y ∈ stn.rest.items, ¬ rate stn.k r < rate stn.k y := by
  intro y hy
  simpa using hs.rest_ordered.root hr y hy

theorem Sound.disjoint (hs : Sound ID rate stn) {id : UInt64} (ht : id ∈ stn.topn.items.map ID) :
    id ∉ stn.rest.items.map ID := by
  have hnd := hs.nodup
  rw [getAll_eq, List.map_append, List.nodup_append] at hnd
  exact fun hr => hnd.2.2 _ ht _ hr rfl

/-- `promote` takes the root of `rest`, its greatest item, into `topn`. -/
theorem promote_spec (hs : Sound ID rate stn) {r : α} (hr : stn.rest.items[0]? = some r) :
    ∃ stn', promote ID rate stn = some stn' ∧ Sound ID rate stn' ∧ stn'.k = stn.k ∧ stn'.n = stn.n ∧
      List.Perm stn'.getAll stn.getAll ∧ List.Perm stn'.topn.items (stn.topn.items ++ [r]) ∧
      List.Perm stn.rest.items (r :: stn'.rest.items) := by
  obtain ⟨rest', hpop, hwf, hperm, hord⟩ := (lawful_rest stn.k).pop_spec hs.rest hs.rest_ordered hr
  have hadm : Admits ID stn.topn r := by
    have hmem : ID r ∈ stn.rest.items.map ID := List.mem_map_of_mem (List.mem_of_getElem? hr)
    exact hs.topn.index.index_eq_none.2 fun h => hs.disjoint h hmem
  obtain ⟨topn', hpush, hwf2, hperm2, hord2⟩ := (lawful_topn stn.k).push_spec hs.topn hadm hs.topn_ordered
  have hall : List.Perm (topn'.items ++ rest'.items) stn.getAll := by
    calc List.Perm _ (stn.topn.items ++ [r] ++ rest'.items) := hperm2.append_right _
      List.Perm _ (stn.topn.items ++ (r :: rest'.items)) := by simp
      List.Perm _ stn.getAll := hperm.symm.append_left _
  exact ⟨{ stn with rest := rest', topn := topn' }, by simp [promote, hpop, hpush],
    ⟨hwf2, hwf, hord2, hord, (hall.map ID).nodup_iff.2 hs.nodup⟩, rfl, rfl, hall, hperm2, hperm⟩

/-- `demote` takes the root of `topn`, its least item, into `rest`. -/
theorem demote_spec (hs : Sound ID rate stn) {t : α} (ht : stn.topn.items[0]? = some t) :
    ∃ stn', demote ID rate stn = some stn' ∧ Sound ID rate stn' ∧ stn'.k = stn.k ∧ stn'.n = stn.n ∧
      List.Perm stn'.getAll stn.getAll ∧ List.Perm stn.topn.items (t :: stn'.topn.items) ∧
      List.Perm stn'.rest.items (stn.rest.items ++ [t]) := by
  obtain ⟨topn', hpop, hwf, hperm, hord⟩ := (lawful_topn stn.k).pop_spec hs.topn hs.topn_ordered ht
  have hadm : Admits ID stn.rest t := by
    have hmem : ID t ∈ stn.topn.items.map ID := List.mem_map_of_mem (List.mem_of_getElem? ht)
    exact hs.rest.index.index_eq_none.2 (hs.disjoint hmem)
  obtain ⟨rest', hpush, hwf2, hperm2, hord2⟩ := (lawful_rest stn.k).push_spec hs.rest hadm hs.rest_ordered
  have hall : List.Perm (topn'.items ++ rest'.items) stn.getAll := by
    calc List.Perm _ (topn'.items ++ stn.rest.items ++ [t]) := by simpa using hperm2.append_left topn'.items
      List.Perm _ (t :: topn'.items ++ stn.rest.items) := List.perm_append_singleton _ _
      List.Perm _ stn.getAll := hperm.symm.append_right _
  exact ⟨{ stn with topn := topn', rest := rest' }, by simp [demote, hpop, hpush],
    ⟨hwf, hwf2, hord, hord2, (hall.map ID).nodup_iff.2 hs.nodup⟩, rfl, rfl, hall, hperm, hperm2⟩

end Moves

/-! ## The loops of `maintain` -/

variable (rate) in
/-- The items of `rest` above the root of `topn`: each round of the second loop
of `maintain` lowers it. -/
def above (stn : SingleTopN α) : Nat :=
  match stn.topn.items[0]? with
  | some t => stn.rest.items.countP fun y => rate stn.k t < rate stn.k y
  | none => 0

theorem above_le (stn : SingleTopN α) : above rate stn ≤ stn.rest.items.length := by
  unfold above
  split
  · exact List.countP_le_length
  · exact Nat.zero_le _

/-- One round of the second loop, on the lists: the least `t` of `T` is below
an item `r` of `R`; `t` moves to `R`, then the greatest `r1` there moves to
what is left of `T`. Whatever the new least `t2` is, fewer items of what is
left of `R` are above it than were above `t` in `R`. -/
theorem countP_above_lt {f : α → K} {T T1 T2 R R1 R2 : List α} {t r r1 t2 : α}
    (htmin : ∀ x ∈ T, ¬ f x < f t) (hr : r ∈ R) (hlt : f t < f r) (hT : List.Perm T (t :: T1))
    (hR1 : List.Perm R1 (R ++ [t])) (hr1max : ∀ y ∈ R1, ¬ f r1 < f y) (hR2 : List.Perm R1 (r1 :: R2))
    (hT2 : List.Perm T2 (T1 ++ [r1])) (ht2 : t2 ∈ T2) :
    R2.countP (fun y => f t2 < f y) < R.countP (fun y => f t < f y) := by
  have hr1 : f t < f r1 := lt_of_lt_of_le hlt (not_lt.1 (hr1max r (hR1.mem_iff.2 (by simp [hr]))))
  have ht2t : f t ≤ f t2 := by
    rcases List.mem_append.1 (hT2.mem_iff.1 ht2) with h | h
    · exact not_lt.1 (htmin t2 (hT.mem_iff.2 (List.mem_cons_of_mem t h)))
    · rw [List.mem_singleton.1 h]; exact hr1.le
  have c1 : R1.countP (fun y => f t < f y) = R.countP (fun y => f t < f y) := by
    rw [hR1.countP_eq, List.countP_append]; simp
  have c2 : R1.countP (fun y => f t < f y) = R2.countP (fun y => f t < f y) + 1 := by
    rw [hR2.countP_eq, List.countP_cons_of_pos (by simpa using hr1)]
  have c3 : R2.countP (fun y => f t2 < f y) ≤ R2.countP (fun y => f t < f y) :=
    List.countP_mono_left fun y _ h => by simpa using lt_of_le_of_lt ht2t (by simpa using h)
  omega

/-- The first loop promotes until `topn` holds `n` items or `rest` is empty;
`rest.Len() + 1` rounds suffice. -/
theorem fillLoop_spec : ∀ (fuel : Nat) (stn : SingleTopN α), Sound ID rate stn →
    stn.topn.items.length ≤ stn.n → stn.rest.items.length < fuel →
    ∃ stn', fillLoop ID rate fuel stn = some stn' ∧ Sound ID rate stn' ∧ stn'.k = stn.k ∧ stn'.n = stn.n ∧
      List.Perm stn'.getAll stn.getAll ∧ stn'.topn.items.length = min stn.n stn.getAll.length
  | 0, _, _, _, hfuel => absurd hfuel (Nat.not_lt_zero _)
  | fuel + 1, stn, hs, hn, hfuel => by
    rw [fillLoop]
    by_cases hgo : stn.topn.len < stn.n ∧ 0 < stn.rest.len
    · -- promote once, then the loop on one item fewer in `rest`
      rw [if_pos hgo]
      simp only [len_eq] at hgo
      obtain ⟨r, hr⟩ : ∃ r, stn.rest.items[0]? = some r := ⟨_, List.getElem?_eq_getElem hgo.2⟩
      obtain ⟨stn1, hpro, hs1, hk1, hn1, hall1, htopn1, hrest1⟩ := promote_spec hs hr
      have h1 := htopn1.length_eq
      have h2 := hrest1.length_eq
      simp only [List.length_append, List.length_cons, List.length_nil] at h1 h2
      obtain ⟨stn', hloop, hs', hk', hn', hall', hsize'⟩ :=
        fillLoop_spec fuel stn1 hs1 (by omega) (by omega)
      refine ⟨stn', by rw [hpro]; exact hloop, hs', hk'.trans hk1, hn'.trans hn1, hall'.trans hall1, ?_⟩
      rw [hsize', hn1, hall1.length_eq]
    · rw [if_neg hgo]
      refine ⟨stn, rfl, hs, rfl, rfl, List.Perm.refl _, ?_⟩
      simp only [len_eq, not_and, not_lt] at hgo
      simp only [getAll_eq, List.length_append]
      omega

/-- The second loop exchanges the roots while the least of `topn` is below the
greatest of `rest`; it ends within `above + 1` rounds with no item of `topn`
below an item of `rest`. -/
theorem swapLoop_spec : ∀ (fuel : Nat) (stn : SingleTopN α), Sound ID rate stn →
    0 < stn.topn.items.length → 0 < stn.rest.items.length → above rate stn < fuel →
    ∃ stn', swapLoop ID rate fuel stn = some stn' ∧ Sound ID rate stn' ∧ stn'.k = stn.k ∧ stn'.n = stn.n ∧
      List.Perm stn'.getAll stn.getAll ∧ stn'.topn.items.length = stn.topn.items.length ∧
      ∀ x ∈ stn'.topn.items, ∀ y ∈ stn'.rest.items, ¬ rate stn'.k x < rate stn'.k y
  | 0, _, _, _, _, hfuel => absurd hfuel (Nat.not_lt_zero _)
  | fuel + 1, stn, hs, ht0, hr0, hfuel => by
    obtain ⟨t, ht⟩ : ∃ t, stn.topn.items[0]? = some t := ⟨_, List.getElem?_eq_getElem ht0⟩
    obtain ⟨r, hr⟩ : ∃ r, stn.rest.items[0]? = some r := ⟨_, List.getElem?_eq_getElem hr0⟩
    have hstep : swapLoop ID rate (fuel + 1) stn = if rate stn.k t < rate stn.k r then
        ((demote ID rate stn).bind (promote ID rate)).bind (swapLoop ID rate fuel) else some stn := by
      simp [swapLoop, ht, hr]
    rw [hstep]
    by_cases hlt : rate stn.k t < rate stn.k r
    · -- demote `t`, promote the greatest of `rest`, and go on with `above` lower
      rw [if_pos hlt]
      obtain ⟨stn1, hdem, hs1, hk1, hn1, hall1, htopn1, hrest1⟩ := demote_spec hs ht
      obtain ⟨r1, hr1⟩ : ∃ r1, stn1.rest.items[0]? = some r1 :=
        ⟨_, List.getElem?_eq_getElem (by simp [hrest1.length_eq])⟩
      obtain ⟨stn2, hpro, hs2, hk2, hn2, hall2, htopn2, hrest2⟩ := promote_spec hs1 hr1
      have hl1 := htopn1.length_eq
      have hl2 := htopn2.length_eq
      have hl3 := hrest1.length_eq
      have hl4 := hrest2.length_eq
      simp only [List.length_append, List.length_cons, List.length_nil] at hl1 hl2 hl3 hl4
      obtain ⟨t2, ht2⟩ : ∃ t2, stn2.topn.items[0]? = some t2 := ⟨_, List.getElem?_eq_getElem (by omega)⟩
      have hdec : above rate stn2 < above rate stn := by
        have hlt' := countP_above_lt (hs.root_topn ht) (List.mem_of_getElem? hr) hlt htopn1 hrest1
          (hk1 ▸ hs1.root_rest hr1) hrest2 htopn2 (List.mem_of_getElem? ht2)
        simpa [above, ht, ht2, hk2, hk1] using hlt'
      obtain ⟨stn', hloop, hs', hk', hn', hall', hlen', hsplit'⟩ :=
        swapLoop_spec fuel stn2 hs2 (by omega) (by omega) (by omega)
      refine ⟨stn', by simp [hdem, hpro, hloop], hs', hk'.trans (hk2.trans hk1), hn'.trans (hn2.trans hn1),
        hall'.trans (hall2.trans hall1), by omega, hsplit'⟩
    · -- the roots are in order, so every item of `topn` is at least every item of `rest`
      rw [if_neg hlt]
      refine ⟨stn, rfl, hs, rfl, rfl, List.Perm.refl _, rfl, fun x hx y hy => ?_⟩
      have hy := not_lt.1 (hs.root_rest hr y hy)
      have hx := not_lt.1 (hs.root_topn ht x hx)
      exact not_lt.2 (hy.trans ((not_lt.1 hlt).trans hx))

/-! ## `maintain`, `Put`, `Remove`, `Get` -/

section Ops

variable {stn : SingleTopN α}

/-- `maintain` of a sound `singleTopN` whose `topn` is not over `n` ends, keeps
its items, and balances it. -/
theorem maintain_spec (hs : Sound ID rate stn) (hn0 : 0 < stn.n) (hn : stn.topn.items.length ≤ stn.n) :
    ∃ stn', maintain ID rate stn = some stn' ∧ Sound ID rate stn' ∧ Balanced rate stn' ∧ stn'.k = stn.k ∧
      stn'.n = stn.n ∧ List.Perm stn'.getAll stn.getAll := by
  obtain ⟨stn1, hfill, hs1, hk1, hn1, hall1, hsize1⟩ :=
    fillLoop_spec (stn.rest.items.length + 1) stn hs hn (Nat.lt_succ_self _)
  have hsize : stn1.topn.items.length = min stn1.n stn1.getAll.length := by rw [hsize1, hn1, hall1.length_eq]
  cases hr : stn1.rest.items[0]? with
  | none =>
    -- `rest` is empty after the first loop: nothing to compare
    have hnil : stn1.rest.items = [] := List.eq_nil_of_length_eq_zero (List.getElem?_eq_none_iff.1 hr |> Nat.le_zero.1)
    refine ⟨stn1, by simp [maintain, hfill, hr], hs1, ⟨hsize, by simp [hnil]⟩, hk1, hn1, hall1⟩
  | some r =>
    have hr0 : 0 < stn1.rest.items.length := (List.getElem?_eq_some_iff.1 hr).1
    have ht0 : 0 < stn1.topn.items.length := by
      rw [hsize, getAll_eq, List.length_append]
      exact Nat.lt_min.2 ⟨hn1 ▸ hn0, by omega⟩
    obtain ⟨stn', hloop, hs', hk', hn', hall', hlen', hsplit'⟩ :=
      swapLoop_spec (stn1.rest.items.length + 1) stn1 hs1 ht0 hr0 (Nat.lt_succ_of_le (above_le stn1))
    refine ⟨stn', by simp [maintain, hfill, hr, hloop], hs', ⟨?_, hsplit'⟩, hk'.trans hk1, hn'.trans hn1,
      hall'.trans hall1⟩
    rw [hlen', hsize, hn', hall'.length_eq]

/-- `Get` does not panic on a sound `singleTopN`, and finds the stored item of
the ID. -/
theorem Sound.get_eq (hs : Sound ID rate stn) (id : UInt64) :
    stn.get id = some (stn.getAll.find? fun x => ID x == id) := by
  rw [SingleTopN.get, hs.topn.index.get_eq, Option.bind_some, getAll_eq, List.find?_append]
  cases stn.topn.items.find? fun x => ID x == id with
  | some item => rfl
  | none => exact hs.rest.index.get_eq id

/-- `Put` stores the item in place of the one of its ID, answers whether the ID
was stored, and leaves the `singleTopN` sound and balanced. -/
theorem put_spec (hs : Sound ID rate stn) (hb : Balanced rate stn) (hn0 : 0 < stn.n) (item : α) :
    ∃ stn', stn.put ID rate item = some (stn', decide (ID item ∈ stn.getAll.map ID)) ∧ Sound ID rate stn' ∧
      Balanced rate stn' ∧ stn'.k = stn.k ∧ stn'.n = stn.n ∧
      List.Perm stn'.getAll (withoutID ID (ID item) stn.getAll ++ [item]) := by
  have htopn_le : stn.topn.items.length ≤ stn.n := hb.size ▸ Nat.min_le_left _ _
  -- the `singleTopN` after the heap's `Put`, before `maintain`
  obtain ⟨stn1, hstn1, hs1, hk1, hn1, hall1, hlen1⟩ : ∃ stn1,
      (if (stn.topn.items.find? fun x => ID x == ID item).isSome then
          (stn.topn.put ID rate item).map fun r => ({ stn with topn := r.1 }, true)
        else (stn.rest.put ID rate item).map fun r => ({ stn with rest := r.1 }, r.2)) =
        some (stn1, decide (ID item ∈ stn.getAll.map ID)) ∧ Sound ID rate stn1 ∧ stn1.k = stn.k ∧
      stn1.n = stn.n ∧ List.Perm stn1.getAll (withoutID ID (ID item) stn.getAll ++ [item]) ∧
      stn1.topn.items.length ≤ stn.topn.items.length := by
    have hnd' := nodup_withoutID_append item hs.nodup
    by_cases hmem : ID item ∈ stn.topn.items.map ID
    · -- the ID is in `topn`: the item replaces it there
      have hnot := hs.disjoint hmem
      obtain ⟨topn', b, hput, hwf, hord, hperm, -⟩ :=
        IndexedHeap.put_spec (lawful_topn stn.k) hs.topn hs.topn_ordered item
      have hall : List.Perm (topn'.items ++ stn.rest.items) (withoutID ID (ID item) stn.getAll ++ [item]) := by
        rw [getAll_eq, withoutID_append, withoutID_of_not_mem hnot]
        calc List.Perm _ (withoutID ID (ID item) stn.topn.items ++ [item] ++ stn.rest.items) :=
              hperm.append_right _
          List.Perm _ (withoutID ID (ID item) stn.topn.items ++ stn.rest.items ++ [item]) := by
              rw [List.append_assoc, List.append_assoc]
              exact List.perm_append_comm.append_left _
      refine ⟨{ stn with topn := topn' }, ?_, ⟨hwf, hs.rest, hord, hs.rest_ordered,
        (hall.map ID).nodup_iff.2 hnd'⟩, rfl, rfl, hall, ?_⟩
      · rw [if_pos (find?_isSome_iff.2 hmem), hput]
        simp [hmem]
      have := length_withoutID_lt hmem
      have := hperm.length_eq
      simp only [List.length_append, List.length_cons, List.length_nil] at this
      show topn'.items.length ≤ _
      omega
    · -- otherwise `rest` stores it, and tells whether it held the ID
      obtain ⟨rest', b, hput, hwf, hord, hperm, hflag⟩ :=
        IndexedHeap.put_spec (lawful_rest stn.k) hs.rest hs.rest_ordered item
      have hall : List.Perm (stn.topn.items ++ rest'.items) (withoutID ID (ID item) stn.getAll ++ [item]) := by
        rw [getAll_eq, withoutID_append, withoutID_of_not_mem hmem, List.append_assoc]
        exact hperm.append_left _
      refine ⟨{ stn with rest := rest' }, ?_, ⟨hs.topn, hwf, hs.topn_ordered, hord,
        (hall.map ID).nodup_iff.2 hnd'⟩, rfl, rfl, hall, le_rfl⟩
      rw [if_neg (mt find?_isSome_iff.1 hmem), hput]
      simp [hflag, hmem]
  obtain ⟨stn', hmaint, hs', hb', hk', hn', hall'⟩ := maintain_spec hs1 (hn1 ▸ hn0) (by omega)
  refine ⟨stn', ?_, hs', hb', hk'.trans hk1, hn'.trans hn1, hall'.trans hall1⟩
  simp only [SingleTopN.put, hs.topn.index.get_eq, Option.bind_some, hstn1, hmaint, Option.map_some]

/-- `Remove` takes out the stored item of the ID, if any, answers it, and
leaves the `singleTopN` sound and balanced. -/
theorem remove_spec (hs : Sound ID rate stn) (hb : Balanced rate stn) (hn0 : 0 < stn.n) (id : UInt64) :
    ∃ stn', stn.remove ID rate id = some (stn', stn.getAll.find? fun x => ID x == id) ∧ Sound ID rate stn' ∧
      Balanced rate stn' ∧ stn'.k = stn.k ∧ stn'.n = stn.n ∧ List.Perm stn'.getAll (withoutID ID id stn.getAll) := by
  have htopn_le : stn.topn.items.length ≤ stn.n := hb.size ▸ Nat.min_le_left _ _
  have hnd' : ((withoutID ID id stn.getAll).map ID).Nodup := nodup_withoutID hs.nodup
  obtain ⟨topn1, r1, hrem1, hwf1, hord1, hperm1, hr1⟩ :=
    IndexedHeap.remove_spec (lawful_topn stn.k) hs.topn hs.topn_ordered id
  have hlen1 : topn1.items.length ≤ stn.topn.items.length := by
    rw [hperm1.length_eq]; exact List.length_filter_le _ _
  cases r1 with
  | some item =>
    -- `topn` held the ID, so `rest` does not
    obtain ⟨hx, hid⟩ := (find?_eq_some_iff hs.topn.index.nodup).1 hr1.symm
    have hmem : id ∈ stn.topn.items.map ID := List.mem_map.2 ⟨item, hx, hid⟩
    have hnot := hs.disjoint hmem
    have hall : List.Perm (topn1.items ++ stn.rest.items) (withoutID ID id stn.getAll) := by
      rw [getAll_eq, withoutID_append, withoutID_of_not_mem hnot]
      exact hperm1.append_right _
    have hs1 : Sound ID rate { stn with topn := topn1 } :=
      ⟨hwf1, hs.rest, hord1, hs.rest_ordered, (hall.map ID).nodup_iff.2 hnd'⟩
    obtain ⟨stn', hmaint, hs', hb', hk', hn', hall'⟩ := maintain_spec hs1 hn0 (by simpa using hlen1.trans htopn_le)
    exact ⟨stn', by simp [SingleTopN.remove, hrem1, hmaint, ← hr1], hs', hb', hk', hn', hall'.trans hall⟩
  | none =>
    -- `rest` answers for the ID
    obtain ⟨rest1, r2, hrem2, hwf2, hord2, hperm2, hr2⟩ :=
      IndexedHeap.remove_spec (lawful_rest stn.k) hs.rest hs.rest_ordered id
    have hall : List.Perm (topn1.items ++ rest1.items) (withoutID ID id stn.getAll) := by
      rw [getAll_eq, withoutID_append]
      exact hperm1.append hperm2
    have hs1 : Sound ID rate { stn with topn := topn1, rest := rest1 } :=
      ⟨hwf1, hwf2, hord1, hord2, (hall.map ID).nodup_iff.2 hnd'⟩
    obtain ⟨stn', hmaint, hs', hb', hk', hn', hall'⟩ := maintain_spec hs1 hn0 (by simpa using hlen1.trans htopn_le)
    exact ⟨stn', by simp [SingleTopN.remove, hrem1, hrem2, hmaint, ← hr1, ← hr2], hs', hb', hk', hn',
      hall'.trans hall⟩

end Ops

end SingleTopN

end MatrixCube.Prophet.Statistics
