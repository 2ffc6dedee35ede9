import MatrixCube.Prophet.Statistics.TopN

/-! # `indexedHeap` behind `heap.Interface`

The index of an `indexedHeap` holds, for each ID, the position of its item and
nothing else (`IndexOk`). With it `Swap`, `Push` and `Pop` do to the items what
`heap.Interface` asks and keep the index right, so the heap functions of
`MatrixCube.Lib.Heap` apply: to `topn` with the rate as key, to `rest` with the
rate reversed. From them, `Put`, `Remove` and `Get` of the heap, none of which
panics on a heap whose index is right.
-/

namespace MatrixCube.Prophet.Statistics

variable {α : Type} (ID : α → UInt64) {K : Type} [LinearOrder K] (rate : Nat → α → K)

/-- The items of `l` without the one of ID `id`: what a store holds after the ID
leaves it. -/
def withoutID (id : UInt64) (l : List α) : List α := l.filter fun x => ID x != id

section WithoutID

variable {ID}

theorem withoutID_of_not_mem {id : UInt64} {l : List α} (h : id ∉ l.map ID) : withoutID ID id l = l :=
  List.filter_eq_self.2 fun x hx => by
    have : ID x ≠ id := fun he => h (List.mem_map.2 ⟨x, hx, he⟩)
    simpa using this

theorem mem_withoutID {id : UInt64} {l : List α} {x : α} : x ∈ withoutID ID id l ↔ x ∈ l ∧ ID x ≠ id := by
  simp [withoutID]

theorem withoutID_append (id : UInt64) (l l' : List α) :
    withoutID ID id (l ++ l') = withoutID ID id l ++ withoutID ID id l' :=
  List.filter_append _ _

theorem length_withoutID_lt {id : UInt64} {l : List α} (h : id ∈ l.map ID) :
    (withoutID ID id l).length < l.length := by
  obtain ⟨x, hx, rfl⟩ := List.mem_map.1 h
  exact List.length_filter_lt_length_iff_exists.2 ⟨x, hx, by simp⟩

theorem nodup_withoutID {id : UInt64} {l : List α} (h : (l.map ID).Nodup) :
    ((withoutID ID id l).map ID).Nodup :=
  ((List.filter_sublist).map ID).nodup h

theorem nodup_withoutID_append {l : List α} (x : α) (h : (l.map ID).Nodup) :
    ((withoutID ID (ID x) l ++ [x]).map ID).Nodup := by
  rw [List.map_append, List.nodup_append]
  refine ⟨nodup_withoutID h, by simp, ?_⟩
  intro a ha b hb hab
  obtain ⟨y, hy, rfl⟩ := List.mem_map.1 ha
  rw [List.map_singleton, List.mem_singleton] at hb
  exact (mem_withoutID.1 hy).2 (hab.trans hb)

theorem withoutID_perm_of_perm_cons {l t : List α} {y : α} (hnd : (l.map ID).Nodup) (hl : List.Perm l (y :: t)) :
    List.Perm (withoutID ID (ID y) l) t := by
  have hnd' : ((y :: t).map ID).Nodup := (hl.map ID).nodup_iff.1 hnd
  rw [List.map_cons, List.nodup_cons] at hnd'
  have hw : withoutID ID (ID y) (y :: t) = t := by
    rw [withoutID, List.filter_cons_of_neg (by simp)]
    exact withoutID_of_not_mem hnd'.1
  exact hw ▸ hl.filter _

theorem find?_eq_some_iff {l : List α} (hnd : (l.map ID).Nodup) {id : UInt64} {x : α} :
    l.find? (fun y => ID y == id) = some x ↔ x ∈ l ∧ ID x = id := by
  constructor
  · intro h
    exact ⟨List.mem_of_find?_eq_some h, by simpa using List.find?_some h⟩
  · rintro ⟨hx, rfl⟩
    have hsome : (l.find? fun y => ID y == ID x).isSome := List.find?_isSome.2 ⟨x, hx, by simp⟩
    obtain ⟨y, hy⟩ := Option.isSome_iff_exists.1 hsome
    have hyx : ID y = ID x := by simpa using List.find?_some hy
    rw [hy, List.inj_on_of_nodup_map hnd (List.mem_of_find?_eq_some hy) hx hyx]

theorem find?_isSome_iff {l : List α} {id : UInt64} : (l.find? fun y => ID y == id).isSome ↔ id ∈ l.map ID := by
  simp [List.find?_isSome, List.mem_map]

theorem find?_eq_none_of_not_mem {l : List α} {id : UInt64} (h : id ∉ l.map ID) :
    l.find? (fun y => ID y == id) = none :=
  List.find?_eq_none.2 fun x hx hid => h (List.mem_map.2 ⟨x, hx, by simpa using hid⟩)

theorem withoutID_perm_eraseIdx {l : List α} {i : Nat} {y : α} (hnd : (l.map ID).Nodup) (hy : l[i]? = some y) :
    List.Perm (withoutID ID (ID y) l) (l.eraseIdx i) := by
  obtain ⟨hi, rfl⟩ := List.getElem?_eq_some_iff.1 hy
  exact withoutID_perm_of_perm_cons hnd (List.getElem_cons_eraseIdx_perm hi).symm

end WithoutID

namespace IndexedHeap

/-- The index maps an ID to a position exactly when the item there has the ID. -/
def IndexOk (hp : IndexedHeap α) : Prop :=
  ∀ id i, hp.index id = some i ↔ (hp.items.map ID)[i]? = some id

/-- An `indexedHeap` of dimension `k`, reversed or not, with its index right. -/
structure WF (k : Nat) (rev : Bool) (hp : IndexedHeap α) : Prop where
  k_eq : hp.k = k
  rev_eq : hp.rev = rev
  index : IndexOk ID hp

/-- `heap.Push` may add an item whose ID the heap does not hold. -/
def Admits (hp : IndexedHeap α) (x : α) : Prop := hp.index (ID x) = none

variable {ID rate}

@[simp] theorem len_eq (hp : IndexedHeap α) : hp.len = hp.items.length := rfl

@[simp] theorem top_eq (hp : IndexedHeap α) : hp.top = hp.items[0]? := rfl

@[simp] theorem getAll_eq (hp : IndexedHeap α) : hp.getAll = hp.items := rfl

theorem newTopNHeap_wf (k : Nat) : WF ID k false (newTopNHeap k : IndexedHeap α) :=
  ⟨rfl, rfl, fun _ _ => by simp [newTopNHeap]⟩

theorem newRevTopNHeap_wf (k : Nat) : WF ID k true (newRevTopNHeap k : IndexedHeap α) :=
  ⟨rfl, rfl, fun _ _ => by simp [newRevTopNHeap]⟩

theorem getElem?_concat_eq_some {β : Type} {l : List β} {y z : β} {k : Nat} :
    (l ++ [y])[k]? = some z ↔ l[k]? = some z ∨ (k = l.length ∧ y = z) := by
  rw [List.getElem?_append]
  split
  · have : k ≠ l.length := by omega
    simp [this]
  · rcases Nat.lt_or_ge l.length k with hk | hk
    · have : k - l.length ≠ 0 := by omega
      simp [List.getElem?_eq_none (show l.length ≤ k by omega), this]
      omega
    · have : k = l.length := by omega
      subst this
      simp

section IndexOk

variable {hp : IndexedHeap α}

theorem IndexOk.nodup (h : IndexOk ID hp) : (hp.items.map ID).Nodup := by
  rw [List.nodup_iff_getElem?_ne_getElem?]
  intro i j hij hj heq
  obtain ⟨id, hid⟩ : ∃ id, (hp.items.map ID)[j]? = some id := ⟨_, List.getElem?_eq_getElem hj⟩
  have hi := (h id i).2 (heq.trans hid)
  rw [(h id j).2 hid, Option.some_inj] at hi
  omega

theorem IndexOk.index_eq_none (h : IndexOk ID hp) {id : UInt64} :
    hp.index id = none ↔ id ∉ hp.items.map ID := by
  rw [List.mem_iff_getElem?, Option.eq_none_iff_forall_ne_some, not_exists]
  exact forall_congr' fun i => not_congr (h id i)

/-- The position the index gives an ID holds the item of the ID: the
`hp.items[idx]` of `Get`, `Put` and `Remove` is in range. -/
theorem IndexOk.getElem?_of_index (h : IndexOk ID hp) {id : UInt64} {i : Nat} (hi : hp.index id = some i) :
    ∃ y, hp.items[i]? = some y ∧ ID y = id := by
  have hid := (h id i).1 hi
  rwa [List.getElem?_map, Option.map_eq_some_iff] at hid

/-- `Get` does not panic on a heap whose index is right, and finds the item of
the ID. -/
theorem IndexOk.get_eq (h : IndexOk ID hp) (id : UInt64) :
    hp.get id = some (hp.items.find? fun x => ID x == id) := by
  unfold IndexedHeap.get
  split
  · rename_i hnone
    rw [find?_eq_none_of_not_mem (h.index_eq_none.1 hnone)]
  · rename_i i hi
    obtain ⟨y, hy, hyid⟩ := h.getElem?_of_index hi
    rw [hy, Option.map_some, (find?_eq_some_iff h.nodup).2 ⟨List.mem_of_getElem? hy, hyid⟩]

theorem IndexOk.set (h : IndexOk ID hp) {i : Nat} {x : α} (hi : (hp.items.map ID)[i]? = some (ID x)) :
    IndexOk ID { hp with items := hp.items.set i x } := by
  have hmap : (hp.items.set i x).map ID = hp.items.map ID := by
    obtain ⟨hlt, hget⟩ := List.getElem?_eq_some_iff.1 hi
    rw [List.map_set, ← hget, List.set_getElem_self]
  exact fun id j => by simpa only [hmap] using h id j

/-- `Swap` of two positions in range does not panic: it moves the two items,
and the index with them. -/
theorem IndexOk.swap (h : IndexOk ID hp) {i j : Nat} (hi : i < hp.items.length) (hj : j < hp.items.length) :
    ∃ hp', hp.swap ID i j = some hp' ∧ IndexOk ID hp' ∧ hp'.items = hp.items.swap i j ∧ hp'.k = hp.k ∧
      hp'.rev = hp.rev := by
  obtain ⟨a, ha⟩ : ∃ a, hp.items[i]? = some a := ⟨_, List.getElem?_eq_getElem hi⟩
  obtain ⟨b, hb⟩ : ∃ b, hp.items[j]? = some b := ⟨_, List.getElem?_eq_getElem hj⟩
  have hia : hp.index (ID a) = some i := (h _ _).2 (by simp [ha])
  have hjb : hp.index (ID b) = some j := (h _ _).2 (by simp [hb])
  -- the new index is the old one with positions `i` and `j` exchanged
  have hidx : ∀ id, Function.update (Function.update hp.index (ID a) (some j)) (ID b) (some i) id =
      (hp.index id).map (Equiv.swap i j) := by
    intro id
    by_cases hidb : id = ID b
    · subst hidb; simp [hjb]
    by_cases hida : id = ID a
    · subst hida; simp [hidb, hia]
    rw [Function.update_of_ne hidb, Function.update_of_ne hida]
    cases hm : hp.index id with
    | none => rfl
    | some m =>
      have hmid := (h id m).1 hm
      have hmi : m ≠ i := by rintro rfl; simp [ha] at hmid; exact hida hmid.symm
      have hmj : m ≠ j := by rintro rfl; simp [hb] at hmid; exact hidb hmid.symm
      simp [Equiv.swap_apply_of_ne_of_ne hmi hmj]
  refine ⟨{ hp with
      items := hp.items.swap i j
      index := Function.update (Function.update hp.index (ID a) (some j)) (ID b) (some i) },
    by simp only [IndexedHeap.swap, ha, hb], fun id k => ?_, rfl, rfl, rfl⟩
  dsimp only
  rw [hidx, Option.map_eq_some_iff, List.getElem?_map, Heap.getElem?_swap hi hj, ← List.getElem?_map, ← h]
  constructor
  · rintro ⟨m, hm, rfl⟩
    rwa [Equiv.swap_apply_self]
  · intro hk
    exact ⟨_, hk, Equiv.swap_apply_self _ _ _⟩

/-- `Push` of an item of a new ID appends it and indexes it at the end. -/
theorem IndexOk.push (h : IndexOk ID hp) {x : α} (hx : Admits ID hp x) :
    IndexOk ID (hp.push ID x) := by
  have hnot : ID x ∉ hp.items.map ID := (h.index_eq_none).1 hx
  intro id k
  simp only [IndexedHeap.push, List.map_append, List.map_singleton, getElem?_concat_eq_some, len_eq,
    List.length_map]
  by_cases hid : id = ID x
  · subst hid
    rw [Function.update_self, Option.some_inj]
    constructor
    · rintro rfl; exact .inr ⟨rfl, rfl⟩
    · rintro (hk | ⟨rfl, -⟩)
      · exact absurd (List.mem_iff_getElem?.2 ⟨k, hk⟩) hnot
      · rfl
  · rw [Function.update_of_ne hid, h]
    simp [Ne.symm hid]

/-- `Pop` takes the last item out of the items and out of the index. -/
theorem IndexOk.pop (h : IndexOk ID hp) {l : List α} {x : α} (hl : hp.items = l ++ [x]) :
    ∃ hp', hp.pop ID = some (hp', x) ∧ IndexOk ID hp' ∧ hp'.items = l ∧ hp'.k = hp.k ∧ hp'.rev = hp.rev := by
  have hnodup := h.nodup
  rw [hl, List.map_append, List.map_singleton, List.nodup_append] at hnodup
  have hnot : ID x ∉ l.map ID := fun hm => hnodup.2.2 _ hm _ (List.mem_singleton_self _) rfl
  refine ⟨{ hp with items := l, index := Function.update hp.index (ID x) none }, by simp [IndexedHeap.pop, hl],
    fun id k => ?_, rfl, rfl, rfl⟩
  by_cases hid : id = ID x
  · subst hid
    simp only [Function.update_self, reduceCtorEq, false_iff]
    exact fun hk => hnot (List.mem_iff_getElem?.2 ⟨k, hk⟩)
  · dsimp only
    rw [Function.update_of_ne hid, h, hl, List.map_append, List.map_singleton, getElem?_concat_eq_some]
    simp [Ne.symm hid]

end IndexOk

section Lawful

variable {k : Nat} {rev : Bool} {hp : IndexedHeap α}

theorem WF.swap (hs : WF ID k rev hp) {i j : Nat} (hi : i < hp.items.length) (hj : j < hp.items.length) :
    ∃ hp', hp.swap ID i j = some hp' ∧ WF ID k rev hp' ∧ hp'.items = hp.items.swap i j := by
  obtain ⟨hp', hswap, hok, hitems, hk, hrev⟩ := hs.index.swap hi hj
  exact ⟨hp', hswap, ⟨hk.trans hs.k_eq, hrev.trans hs.rev_eq, hok⟩, hitems⟩

theorem WF.push (hs : WF ID k rev hp) {x : α} (hx : Admits ID hp x) : WF ID k rev (hp.push ID x) :=
  ⟨hs.k_eq, hs.rev_eq, hs.index.push hx⟩

theorem WF.pop (hs : WF ID k rev hp) {l : List α} {x : α} (hl : hp.items = l ++ [x]) :
    ∃ hp', hp.pop ID = some (hp', x) ∧ WF ID k rev hp' ∧ hp'.items = l := by
  obtain ⟨hp', hpop, hok, hitems, hk, hrev⟩ := hs.index.pop hl
  exact ⟨hp', hpop, ⟨hk.trans hs.k_eq, hrev.trans hs.rev_eq, hok⟩, hitems⟩

/-- `topn` is a heap of its items with the least rate of its dimension on top. -/
theorem lawful_topn (k : Nat) :
    Heap.Lawful (iface ID rate) items (rate k) (WF ID k false) (Admits ID) where
  len_eq _ _ := rfl
  less_eq s hs i j x y hx hy := by simp [iface, less, hx, hy, hs.k_eq, hs.rev_eq]
  swap _ hs _ _ hi hj := hs.swap hi hj
  push _ _ hs hx := ⟨hs.push hx, rfl⟩
  pop _ hs _ _ hl := hs.pop hl

/-- `rest` is a heap of its items with the greatest rate of its dimension on top. -/
theorem lawful_rest (k : Nat) :
    Heap.Lawful (iface ID rate) items (OrderDual.toDual ∘ rate k) (WF ID k true) (Admits ID) where
  len_eq _ _ := rfl
  less_eq s hs i j x y hx hy := by simp [iface, less, hx, hy, hs.k_eq, hs.rev_eq]
  swap _ hs _ _ hi hj := hs.swap hi hj
  push _ _ hs hx := ⟨hs.push hx, rfl⟩
  pop _ hs _ _ hl := hs.pop hl

end Lawful

/-! ## `Put`, `Remove` -/

section Ops

variable {K' : Type} [LinearOrder K'] {key : α → K'} {k : Nat} {rev : Bool} {hp : IndexedHeap α}

/-- `Put` does not panic: it replaces the item of the same ID or adds the item,
keeps the heap in order, and tells whether the ID was there. -/
theorem put_spec (hL : Heap.Lawful (iface ID rate) items key (WF ID k rev) (Admits ID))
    (hs : WF ID k rev hp) (hord : Heap.Ordered key hp.items hp.items.length) (item : α) :
    ∃ hp' b, hp.put ID rate item = some (hp', b) ∧ WF ID k rev hp' ∧
      Heap.Ordered key hp'.items hp'.items.length ∧
      List.Perm hp'.items (withoutID ID (ID item) hp.items ++ [item]) ∧ b = decide (ID item ∈ hp.items.map ID) := by
  unfold IndexedHeap.put
  split
  · rename_i idx hidx
    -- the item of the ID sits at `idx`: it is replaced there, and `heap.Fix` moves the new one
    have hmid := (hs.index _ _).1 hidx
    obtain ⟨y, hy, hyid⟩ := hs.index.getElem?_of_index hidx
    have hi : idx < hp.items.length := (List.getElem?_eq_some_iff.1 hy).1
    have hs1 : WF ID k rev { hp with items := hp.items.set idx item } := ⟨hs.k_eq, hs.rev_eq, hs.index.set hmid⟩
    obtain ⟨hp', hfix, hs', hperm, hord'⟩ :=
      hL.fix_spec hs1 (by simpa using hi) (by simpa using hord.hole_set hi item)
    have hmem : ID item ∈ hp.items.map ID := List.mem_iff_getElem?.2 ⟨idx, hmid⟩
    refine ⟨hp', true, by simp [hi, hfix], hs', hord', ?_, by simp [hmem]⟩
    calc List.Perm _ (hp.items.set idx item) := hperm
      List.Perm _ (item :: hp.items.eraseIdx idx) := List.set_perm_cons_eraseIdx hi item
      List.Perm _ (hp.items.eraseIdx idx ++ [item]) := (List.perm_append_singleton _ _).symm
      List.Perm _ (withoutID ID (ID item) hp.items ++ [item]) :=
        (hyid ▸ withoutID_perm_eraseIdx hs.index.nodup hy).symm.append_right [item]
  · rename_i hnone
    have hnot := hs.index.index_eq_none.1 hnone
    obtain ⟨hp', hpush, hs', hperm, hord'⟩ := hL.push_spec hs hnone hord
    refine ⟨hp', false, by simp [hpush], hs', hord', ?_, by simp [hnot]⟩
    rw [withoutID_of_not_mem hnot]
    exact hperm

/-- `Remove` does not panic: it takes out the item of the ID, if any, and keeps
the heap in order. -/
theorem remove_spec (hL : Heap.Lawful (iface ID rate) items key (WF ID k rev) (Admits ID))
    (hs : WF ID k rev hp) (hord : Heap.Ordered key hp.items hp.items.length) (id : UInt64) :
    ∃ hp' r, hp.remove ID rate id = some (hp', r) ∧ WF ID k rev hp' ∧
      Heap.Ordered key hp'.items hp'.items.length ∧ List.Perm hp'.items (withoutID ID id hp.items) ∧
      r = hp.items.find? fun x => ID x == id := by
  unfold IndexedHeap.remove
  split
  · rename_i idx hidx
    obtain ⟨y, hy, hyid⟩ := hs.index.getElem?_of_index hidx
    obtain ⟨hp', hrem, hs', hperm, hord'⟩ := hL.remove_spec hs hord hy
    refine ⟨hp', some y, by simp [hrem], hs', hord', ?_, ?_⟩
    · subst hyid
      exact (withoutID_perm_of_perm_cons hs.index.nodup hperm).symm
    · exact ((find?_eq_some_iff hs.index.nodup).2 ⟨List.mem_of_getElem? hy, hyid⟩).symm
  · rename_i hnone
    have hnot := hs.index.index_eq_none.1 hnone
    refine ⟨hp, none, rfl, hs, hord, ?_, (find?_eq_none_of_not_mem hnot).symm⟩
    rw [withoutID_of_not_mem hnot]

end Ops

end IndexedHeap

end MatrixCube.Prophet.Statistics
