import MatrixCube.Prophet.Statistics.SingleTopN

/-! # `TopN` refines a store of items with expiry times

What a `TopN` stands for is a `Store`: its items, each with the time it
expires, in the order of their last `Put`; `Put` replaces the item of the same
ID, `Remove` drops it, and every call then drops the expired entries from the
oldest on. `Holds` relates a `TopN` to the store it stands for: the TTL list
has the store's IDs and times, and every dimension is a sound, balanced
`singleTopN` of the store's items. Each call keeps `Holds` with the store's
call and answers as the store does; so does every run from `NewTopN`, and the
queries read the store: `GetAllTopN(d)` is `n` largest items by rate `d`.
-/

namespace MatrixCube.Prophet.Statistics

variable {α : Type} (ID : α → UInt64) {K : Type} [LinearOrder K] (rate : Nat → α → K)

/-! ## The store -/

/-- The TTL, and the items with the time each expires, oldest `Put` first. -/
structure Store (α : Type) where
  ttl : Nat
  entries : List (α × Nat)

namespace Store

/-- The empty store. -/
def empty (ttl : Nat) : Store α := ⟨ttl, []⟩

/-- The stored items. -/
def items (st : Store α) : List α := st.entries.map Prod.fst

/-- The entries expired by `now` leave, from the oldest on. -/
def expire (st : Store α) (now : Nat) : Store α :=
  { st with entries := st.entries.dropWhile fun e => e.2 ≤ now }

/-- The stored item of an ID. -/
def lookup (st : Store α) (id : UInt64) : Option α := st.items.find? fun x => ID x == id

/-- `Put` at `now`: the item replaces the one of its ID and goes last, to expire
`ttl` after `now`; then the expired entries leave. Whether the ID was stored. -/
def put (st : Store α) (item : α) (now : Nat) : Store α × Bool :=
  (Store.expire ⟨st.ttl, st.entries.filter (fun e => ID e.1 != ID item) ++ [(item, now + st.ttl)]⟩ now,
    decide (ID item ∈ st.items.map ID))

/-- `Remove` at `now`: the entry of the ID leaves, then the expired ones. The
item it held. -/
def remove (st : Store α) (id : UInt64) (now : Nat) : Store α × Option α :=
  (Store.expire ⟨st.ttl, st.entries.filter fun e => ID e.1 != id⟩ now, st.lookup ID id)

end Store

/-- `top` is `n` largest items of `items` by `f`: `min n |items|` of them, and
none below one left out. -/
structure IsTopN {β : Type} {L : Type} [LinearOrder L] (f : β → L) (n : Nat) (items top : List β) : Prop where
  length : top.length = min n items.length
  split : ∃ rest, List.Perm (top ++ rest) items ∧ ∀ x ∈ top, ∀ y ∈ rest, ¬ f x < f y

/-! ## Lists of items with distinct IDs -/

section Distinct

variable {ID}

/-- Taking out, one ID after another, the items of a front part leaves the rest. -/
theorem foldl_withoutID {a b : List α} (hnd : ((a ++ b).map ID).Nodup) :
    (a.map ID).foldl (fun l id => withoutID ID id l) (a ++ b) = b := by
  induction a with
  | nil => rfl
  | cons x a ih =>
    rw [List.cons_append, List.map_cons, List.nodup_cons] at hnd
    rw [List.map_cons, List.foldl_cons, List.cons_append,
      show withoutID ID (ID x) (x :: (a ++ b)) = a ++ b by
        rw [withoutID, List.filter_cons_of_neg (by simp)]
        exact withoutID_of_not_mem hnd.1]
    exact ih hnd.2

end Distinct

/-! ## The loops over the dimensions -/

section Loops

variable {ι β γ : Type} {P P' : ι → β → Prop}

/-- `for _, stn := range tn.topns { r = stn.F() }`, with `F` modelled as `g`: when
every round succeeds with the answer `v`, the loop gives the new list of
dimensions, and `v` unless there is none. -/
theorem foldlM_forall₂ {g : β → Option (β × γ)} {v : γ}
    (hg : ∀ i b, P i b → ∃ b', g b = some (b', v) ∧ P' i b') :
    ∀ {is : List ι} {l : List β}, List.Forall₂ P is l → ∀ acc : List β × γ,
      ∃ l', l.foldlM (fun acc b => (g b).map fun r => (acc.1 ++ [r.1], r.2)) acc =
        some (acc.1 ++ l', if l = [] then acc.2 else v) ∧ List.Forall₂ P' is l'
  | _, _, .nil, acc => ⟨[], by simp, .nil⟩
  | i :: _, b :: _, .cons hb hrest, acc => by
    obtain ⟨b', hgb, hb'⟩ := hg i b hb
    obtain ⟨l', hl', hrest'⟩ := foldlM_forall₂ hg hrest (acc.1 ++ [b'], v)
    refine ⟨b' :: l', ?_, .cons hb' hrest'⟩
    rw [List.foldlM_cons, hgb]
    simp only [Option.map_some, Option.bind_eq_bind, Option.bind_some, hl', List.append_assoc,
      List.singleton_append, reduceCtorEq, if_false]
    split <;> rfl

/-- `for _, stn := range tn.topns { stn.F() }`: when every round succeeds, the
new list of dimensions. -/
theorem mapM_forall₂ {g : β → Option β} (hg : ∀ i b, P i b → ∃ b', g b = some b' ∧ P' i b') :
    ∀ {is : List ι} {l : List β}, List.Forall₂ P is l → ∃ l', l.mapM g = some l' ∧ List.Forall₂ P' is l'
  | _, _, .nil => ⟨[], rfl, .nil⟩
  | i :: _, b :: _, .cons hb hrest => by
    obtain ⟨b', hgb, hb'⟩ := hg i b hb
    obtain ⟨l', hl', hrest'⟩ := mapM_forall₂ hg hrest
    exact ⟨b' :: l', by simp [hgb, hl'], .cons hb' hrest'⟩

end Loops

/-! ## The TTL list -/

namespace TTLList

@[simp] theorem takeExpired_ttl (tl : TTLList) (now : Nat) : (tl.takeExpired now).1.ttl = tl.ttl := rfl

@[simp] theorem put_ttl (tl : TTLList) (id : UInt64) (now : Nat) : (tl.put id now).1.ttl = tl.ttl := rfl

@[simp] theorem remove_ttl (tl : TTLList) (id : UInt64) : (tl.remove id).1.ttl = tl.ttl := rfl

/-- `TakeExpired`'s loop takes the front entries expired by `now`. -/
theorem takeExpiredLoop_eq (now : Nat) (l : List (UInt64 × Nat)) :
    takeExpiredLoop now l = ((l.takeWhile fun e => e.2 ≤ now).map Prod.fst, l.dropWhile fun e => e.2 ≤ now) := by
  induction l with
  | nil => rfl
  | cons e l ih =>
    by_cases h : now < e.2
    · simp [takeExpiredLoop, h, Nat.not_le.2 h]
    · simp [takeExpiredLoop, h, Nat.le_of_not_lt h, ih]

theorem eraseP_eq_filter {l : List (UInt64 × Nat)} (hnd : (l.map Prod.fst).Nodup) (id : UInt64) :
    l.eraseP (fun e => e.1 == id) = l.filter fun e => e.1 != id := by
  induction l with
  | nil => rfl
  | cons e l ih =>
    rw [List.map_cons, List.nodup_cons] at hnd
    by_cases h : e.1 = id
    · subst h
      rw [List.eraseP_cons_of_pos (by simp), List.filter_cons_of_neg (by simp)]
      refine (List.filter_eq_self.2 fun e' he' => ?_).symm
      have : e'.1 ≠ e.1 := fun he => hnd.1 (List.mem_map.2 ⟨e', he', he⟩)
      simpa using this
    · rw [List.eraseP_cons_of_neg (by simpa using h), List.filter_cons_of_pos (by simpa using h), ih hnd.2]

end TTLList

/-! ## `Holds` -/

/-- Dimension `d` of a `TopN` of the items `items`: a sound, balanced
`singleTopN` of that dimension with `n` on top, holding the items. -/
structure DimHolds (n : Nat) (items : List α) (d : Nat) (stn : SingleTopN α) : Prop where
  k_eq : stn.k = d
  n_eq : stn.n = n
  sound : SingleTopN.Sound ID rate stn
  balanced : SingleTopN.Balanced rate stn
  perm : List.Perm stn.getAll items

/-- A `TopN` of `k` dimensions with `n` on top stands for the store `st`: the
TTL list has its IDs and times in order, and dimension `d` holds its items. -/
structure Holds (k n : Nat) (tn : TopN α) (st : Store α) : Prop where
  k_pos : 0 < k
  n_pos : 0 < n
  ttl : tn.ttlLst.ttl = st.ttl
  lst : tn.ttlLst.lst = st.entries.map fun e => (ID e.1, e.2)
  dims : List.Forall₂ (DimHolds ID rate n st.items) (List.range k) tn.topns

variable {ID rate}

section DimHolds

variable {n d : Nat} {items : List α} {stn : SingleTopN α}

theorem DimHolds.nodup (h : DimHolds ID rate n items d stn) : (items.map ID).Nodup :=
  (h.perm.map ID).nodup_iff.1 h.sound.nodup

theorem DimHolds.find?_eq (h : DimHolds ID rate n items d stn) (id : UInt64) :
    stn.getAll.find? (fun x => ID x == id) = items.find? fun x => ID x == id := by
  apply Option.ext
  intro x
  rw [find?_eq_some_iff h.sound.nodup, find?_eq_some_iff h.nodup, h.perm.mem_iff]

theorem DimHolds.get_eq (h : DimHolds ID rate n items d stn) (id : UInt64) :
    stn.get id = some (items.find? fun x => ID x == id) := by
  rw [h.sound.get_eq, h.find?_eq]

theorem DimHolds.put (h : DimHolds ID rate n items d stn) (hn : 0 < n) (item : α) :
    ∃ stn', stn.put ID rate item = some (stn', decide (ID item ∈ items.map ID)) ∧
      DimHolds ID rate n (withoutID ID (ID item) items ++ [item]) d stn' := by
  obtain ⟨stn', hput, hs', hb', hk', hn', hperm'⟩ := SingleTopN.put_spec h.sound h.balanced (h.n_eq ▸ hn) item
  have hmem : decide (ID item ∈ stn.getAll.map ID) = decide (ID item ∈ items.map ID) := by
    rw [decide_eq_decide, (h.perm.map ID).mem_iff]
  exact ⟨stn', hmem ▸ hput,
    ⟨hk'.trans h.k_eq, hn'.trans h.n_eq, hs', hb', hperm'.trans ((h.perm.filter _).append_right _)⟩⟩

theorem DimHolds.remove (h : DimHolds ID rate n items d stn) (hn : 0 < n) (id : UInt64) :
    ∃ stn', stn.remove ID rate id = some (stn', items.find? fun x => ID x == id) ∧
      DimHolds ID rate n (withoutID ID id items) d stn' := by
  obtain ⟨stn', hrem, hs', hb', hk', hn', hperm'⟩ := SingleTopN.remove_spec h.sound h.balanced (h.n_eq ▸ hn) id
  exact ⟨stn', h.find?_eq id ▸ hrem, ⟨hk'.trans h.k_eq, hn'.trans h.n_eq, hs', hb', hperm'.trans (h.perm.filter _)⟩⟩

end DimHolds

section Holds

variable {k n : Nat} {tn : TopN α} {st : Store α}

theorem Holds.dim (h : Holds ID rate k n tn st) {d : Nat} (hd : d < k) :
    ∃ stn, tn.topns[d]? = some stn ∧ DimHolds ID rate n st.items d stn := by
  have hlen := h.dims.length_eq
  rw [List.length_range] at hlen
  have hdt : d < tn.topns.length := hlen ▸ hd
  refine ⟨tn.topns[d], List.getElem?_eq_getElem hdt, ?_⟩
  simpa using h.dims.get (by simpa using hd) hdt

theorem Holds.nodup (h : Holds ID rate k n tn st) : (st.items.map ID).Nodup := by
  obtain ⟨stn, -, hstn⟩ := h.dim h.k_pos
  exact hstn.nodup

theorem Holds.topns_ne_nil (h : Holds ID rate k n tn st) : tn.topns ≠ [] := by
  obtain ⟨stn, hstn, -⟩ := h.dim h.k_pos
  rintro hnil
  simp [hnil] at hstn

theorem Holds.lst_nodup (h : Holds ID rate k n tn st) : (tn.ttlLst.lst.map Prod.fst).Nodup := by
  rw [h.lst, List.map_map]
  simpa [Store.items, List.map_map, Function.comp_def] using h.nodup

theorem Holds.lst_put (h : Holds ID rate k n tn st) (item : α) (now : Nat) :
    (tn.ttlLst.put (ID item) now).1.lst =
      (st.entries.filter (fun e => ID e.1 != ID item) ++ [(item, now + st.ttl)]).map fun e => (ID e.1, e.2) := by
  simp only [TTLList.put]
  rw [TTLList.eraseP_eq_filter h.lst_nodup, h.lst, h.ttl, List.filter_map, List.map_append]
  rfl

theorem Holds.lst_remove (h : Holds ID rate k n tn st) (id : UInt64) :
    (tn.ttlLst.remove id).1.lst = (st.entries.filter fun e => ID e.1 != id).map fun e => (ID e.1, e.2) := by
  simp only [TTLList.remove]
  rw [TTLList.eraseP_eq_filter h.lst_nodup, h.lst, List.filter_map]
  rfl

theorem items_filter (st : Store α) (id : UInt64) :
    (st.entries.filter fun e => ID e.1 != id).map Prod.fst = withoutID ID id st.items := by
  simp only [withoutID, Store.items, List.filter_map]
  rfl

end Holds

/-! ## The calls -/

section Calls

variable {k n : Nat} {tn : TopN α} {st : Store α}

theorem foldlM_removeEverywhere (hn : 0 < n) : ∀ (ids : List UInt64) {topns : List (SingleTopN α)} {items : List α},
    List.Forall₂ (DimHolds ID rate n items) (List.range k) topns →
    ∃ topns', ids.foldlM (TopN.removeEverywhere ID rate) topns = some topns' ∧
      List.Forall₂ (DimHolds ID rate n (ids.foldl (fun l id => withoutID ID id l) items)) (List.range k) topns'
  | [], _, _, h => ⟨_, rfl, h⟩
  | id :: ids, _, items, h => by
    have hg : ∀ d (stn : SingleTopN α), DimHolds ID rate n items d stn →
        ∃ stn', (stn.remove ID rate id).map Prod.fst = some stn' ∧ DimHolds ID rate n (withoutID ID id items) d stn' :=
      fun _ _ hd => (hd.remove hn id).imp fun stn' hs => ⟨by simp [hs.1], hs.2⟩
    obtain ⟨topns1, h1, hd1⟩ := mapM_forall₂ hg h
    obtain ⟨topns', h', hd'⟩ := foldlM_removeEverywhere hn ids hd1
    exact ⟨topns', by simp [TopN.removeEverywhere, h1, h'], hd'⟩

/-- `maintain` drops the expired entries, from the oldest on, from the TTL list
and from every dimension. -/
theorem maintain_holds (h : Holds ID rate k n tn st) (now : Nat) :
    ∃ tn', TopN.maintain ID rate tn now = some tn' ∧ Holds ID rate k n tn' (st.expire now) := by
  -- the expired entries are a front part of the store: their IDs leave it, the rest stays
  have hexp : (tn.ttlLst.takeExpired now).2 =
      ((st.entries.takeWhile fun e => e.2 ≤ now).map Prod.fst).map ID := by
    simp [TTLList.takeExpired, TTLList.takeExpiredLoop_eq, h.lst, List.takeWhile_map, Function.comp_def]
  have hlst : (tn.ttlLst.takeExpired now).1.lst =
      (st.entries.dropWhile fun e => e.2 ≤ now).map fun e => (ID e.1, e.2) := by
    simp [TTLList.takeExpired, TTLList.takeExpiredLoop_eq, h.lst, List.dropWhile_map, Function.comp_def]
  have hsplit : st.items = (st.entries.takeWhile fun e => e.2 ≤ now).map Prod.fst ++
      (st.entries.dropWhile fun e => e.2 ≤ now).map Prod.fst := by
    rw [Store.items, ← List.map_append, List.takeWhile_append_dropWhile]
  have hitems : (((st.entries.takeWhile fun e => e.2 ≤ now).map Prod.fst).map ID).foldl
      (fun l id => withoutID ID id l) st.items = (st.expire now).items := by
    rw [hsplit, foldl_withoutID (hsplit ▸ h.nodup)]
    rfl
  obtain ⟨topns', hfold, hdims'⟩ := foldlM_removeEverywhere h.n_pos _ h.dims
  refine ⟨⟨topns', (tn.ttlLst.takeExpired now).1⟩, ?_, ⟨h.k_pos, h.n_pos, by simp [h.ttl, Store.expire], hlst,
    hitems ▸ hdims'⟩⟩
  simp only [TopN.maintain, hexp, hfold, Option.map_some]

/-- `Put` stands for the store's `Put`, and answers as it does. -/
theorem put_holds (h : Holds ID rate k n tn st) (item : α) (now : Nat) :
    ∃ tn', tn.put ID rate item now = some (tn', (st.put ID item now).2) ∧
      Holds ID rate k n tn' (st.put ID item now).1 := by
  obtain ⟨topns1, hfold, hdims1⟩ := foldlM_forall₂ (fun _ _ hd => hd.put h.n_pos item) h.dims ([], false)
  -- before `maintain`: the store with the item in place of its ID's entry, nothing expired yet
  have hitems1 : (st.entries.filter (fun e => ID e.1 != ID item) ++ [(item, now + st.ttl)]).map Prod.fst =
      withoutID ID (ID item) st.items ++ [item] := by
    rw [List.map_append, items_filter]
    rfl
  have h1 : Holds ID rate k n ⟨topns1, (tn.ttlLst.put (ID item) now).1⟩
      ⟨st.ttl, st.entries.filter (fun e => ID e.1 != ID item) ++ [(item, now + st.ttl)]⟩ :=
    ⟨h.k_pos, h.n_pos, by simp [h.ttl], h.lst_put item now, by simpa only [Store.items, hitems1] using hdims1⟩
  obtain ⟨tn', hmaint, h'⟩ := maintain_holds h1 now
  exact ⟨tn', by simp [TopN.put, hfold, h.topns_ne_nil, hmaint, Store.put], h'⟩

/-- `Remove` stands for the store's `Remove`, and answers as it does. -/
theorem remove_holds (h : Holds ID rate k n tn st) (id : UInt64) (now : Nat) :
    ∃ tn', tn.remove ID rate id now = some (tn', (st.remove ID id now).2) ∧
      Holds ID rate k n tn' (st.remove ID id now).1 := by
  obtain ⟨topns1, hfold, hdims1⟩ := foldlM_forall₂ (fun _ _ hd => hd.remove h.n_pos id) h.dims ([], none)
  have h1 : Holds ID rate k n ⟨topns1, (tn.ttlLst.remove id).1⟩ ⟨st.ttl, st.entries.filter fun e => ID e.1 != id⟩ :=
    ⟨h.k_pos, h.n_pos, by simp [h.ttl], h.lst_remove id, by simpa only [Store.items, items_filter] using hdims1⟩
  obtain ⟨tn', hmaint, h'⟩ := maintain_holds h1 now
  exact ⟨tn', by simp [TopN.remove, hfold, h.topns_ne_nil, hmaint, Store.remove, Store.lookup], h'⟩

/-- `RemoveExpired` stands for the expiry of the store. -/
theorem removeExpired_holds (h : Holds ID rate k n tn st) (now : Nat) :
    ∃ tn', tn.removeExpired ID rate now = some tn' ∧ Holds ID rate k n tn' (st.expire now) :=
  maintain_holds h now

end Calls

/-! ## The queries -/

section Queries

variable {k n : Nat} {tn : TopN α} {st : Store α}

theorem len_eq (h : Holds ID rate k n tn st) : tn.len = st.entries.length := by
  simp [TopN.len, TTLList.len, h.lst]

theorem get_eq (h : Holds ID rate k n tn st) (id : UInt64) : tn.get id = some (st.lookup ID id) := by
  obtain ⟨stn, hstn, hd⟩ := h.dim h.k_pos
  simp [TopN.get, hstn, hd.get_eq, Store.lookup]

theorem getAll_perm (h : Holds ID rate k n tn st) : ∃ l, tn.getAll = some l ∧ List.Perm l st.items := by
  obtain ⟨stn, hstn, hd⟩ := h.dim h.k_pos
  exact ⟨stn.getAll, by simp [TopN.getAll, hstn], hd.perm⟩

/-- `GetAllTopN(d)` is `n` largest stored items by rate `d`, and `GetTopNMin(d)`
the least of them, nil only when nothing is stored. -/
theorem getAllTopN_spec (h : Holds ID rate k n tn st) {d : Nat} (hd : d < k) :
    ∃ l m, tn.getAllTopN d = some l ∧ tn.getTopNMin d = some m ∧ IsTopN (rate d) n st.items l ∧
      (m = none ↔ st.entries = []) ∧ ∀ t, m = some t → t ∈ l ∧ ∀ x ∈ l, ¬ rate d x < rate d t := by
  obtain ⟨stn, hstn, hdh⟩ := h.dim hd
  have hlen : stn.topn.items.length = min n st.items.length := by
    rw [hdh.balanced.size, hdh.n_eq, hdh.perm.length_eq]
  refine ⟨stn.topn.items, stn.topn.items[0]?, by simp [TopN.getAllTopN, hstn, SingleTopN.getAllTopN],
    by simp [TopN.getTopNMin, hstn, SingleTopN.getTopNMin],
    ⟨hlen, stn.rest.items, hdh.perm, hdh.k_eq ▸ hdh.balanced.split⟩, ?_, ?_⟩
  · -- `topn` is empty exactly when the store is, as `n` is positive
    rw [List.getElem?_eq_none_iff, Nat.le_zero, hlen, Store.items, List.length_map]
    constructor
    · intro h0
      exact List.eq_nil_of_length_eq_zero ((Nat.min_eq_zero_iff.1 h0).resolve_left h.n_pos.ne')
    · intro h0
      simp [h0]
  · intro t ht
    exact ⟨List.mem_of_getElem? ht, hdh.k_eq ▸ hdh.sound.root_topn ht⟩

end Queries

/-! ## Runs -/

/-- A call that changes a `TopN`, with the time it is made at. -/
inductive Op (α : Type) where
  | put (item : α) (now : Nat)
  | remove (id : UInt64) (now : Nat)
  | removeExpired (now : Nat)

/-- The time a call is made at. -/
def Op.now : Op α → Nat
  | .put _ now => now
  | .remove _ now => now
  | .removeExpired now => now

variable (ID rate)

/-- A `TopN` after a call. -/
def TopN.exec (tn : TopN α) : Op α → Option (TopN α)
  | .put item now => (tn.put ID rate item now).map Prod.fst
  | .remove id now => (tn.remove ID rate id now).map Prod.fst
  | .removeExpired now => tn.removeExpired ID rate now

/-- A `TopN` after calls, one after another. -/
def TopN.run (tn : TopN α) : List (Op α) → Option (TopN α)
  | [] => some tn
  | op :: ops => (tn.exec ID rate op).bind fun tn => tn.run ops

/-- A store after a call. -/
def Store.exec (st : Store α) : Op α → Store α
  | .put item now => (st.put ID item now).1
  | .remove id now => (st.remove ID id now).1
  | .removeExpired now => st.expire now

/-- A store after calls, one after another. -/
def Store.run (st : Store α) (ops : List (Op α)) : Store α := ops.foldl (Store.exec ID) st

/-- The `TopN`s a run of calls from `NewTopN(k, n, ttl)` reaches, with the store
the same calls give. -/
def Reachable (k n : Int) (ttl : Nat) (tn : TopN α) (st : Store α) : Prop :=
  ∃ ops, (TopN.newTopN k n ttl).bind (fun tn => tn.run ID rate ops) = some tn ∧ st = (Store.empty ttl).run ID ops

variable {ID rate}

section Runs

variable {k n : Nat} {tn : TopN α} {st : Store α}

theorem exec_holds (h : Holds ID rate k n tn st) (op : Op α) :
    ∃ tn', tn.exec ID rate op = some tn' ∧ Holds ID rate k n tn' (st.exec ID op) := by
  cases op with
  | put item now =>
    obtain ⟨tn', hput, h'⟩ := put_holds h item now
    exact ⟨tn', by simp [TopN.exec, hput], h'⟩
  | remove id now =>
    obtain ⟨tn', hrem, h'⟩ := remove_holds h id now
    exact ⟨tn', by simp [TopN.exec, hrem], h'⟩
  | removeExpired now => exact removeExpired_holds h now

theorem run_holds : ∀ (ops : List (Op α)) {tn : TopN α} {st : Store α}, Holds ID rate k n tn st →
    ∃ tn', tn.run ID rate ops = some tn' ∧ Holds ID rate k n tn' (st.run ID ops)
  | [], tn, _, h => ⟨tn, rfl, h⟩
  | op :: ops, _, _, h => by
    obtain ⟨tn1, h1, hh1⟩ := exec_holds h op
    obtain ⟨tn', h', hh'⟩ := run_holds ops hh1
    exact ⟨tn', by simp [TopN.run, h1, h'], hh'⟩

variable (ID rate) in
theorem newTopN_holds {k n : Int} (hk : 0 < k) (hn : 0 < n) (ttl : Nat) :
    ∃ tn, (TopN.newTopN k n ttl : Option (TopN α)) = some tn ∧
      Holds ID rate k.toNat n.toNat tn (Store.empty ttl) := by
  refine ⟨⟨(List.range k.toNat).map fun i => SingleTopN.newSingleTopN i n.toNat, TTLList.newTTLList ttl⟩,
    by simp [TopN.newTopN, not_le.2 hk, not_le.2 hn], ⟨by omega, by omega, rfl, rfl, ?_⟩⟩
  rw [List.forall₂_map_right_iff, List.forall₂_same]
  intro d _
  exact ⟨rfl, rfl, SingleTopN.newSingleTopN_sound d _, SingleTopN.newSingleTopN_balanced d _, by
    simp [SingleTopN.newSingleTopN, IndexedHeap.newTopNHeap, IndexedHeap.newRevTopNHeap, Store.empty, Store.items]⟩

theorem Reachable.holds {k n : Int} {ttl : Nat} (hk : 0 < k) (hn : 0 < n) (hr : Reachable ID rate k n ttl tn st) :
    Holds ID rate k.toNat n.toNat tn st := by
  obtain ⟨ops, hrun, rfl⟩ := hr
  obtain ⟨tn0, h0, hh0⟩ := newTopN_holds ID rate hk hn ttl
  obtain ⟨tn', h', hh'⟩ := run_holds ops hh0
  rw [h0, Option.bind_some, h'] at hrun
  exact Option.some_inj.1 hrun ▸ hh'

/-- Every run of calls from `NewTopN(k, n, ttl)` with `k` and `n` positive
succeeds, and the `TopN` it reaches stands for the store the same calls give. -/
theorem newTopN_run_refines {k n : Int} (hk : 0 < k) (hn : 0 < n) (ttl : Nat) (ops : List (Op α)) :
    ∃ tn, (TopN.newTopN k n ttl).bind (fun tn => tn.run ID rate ops) = some tn ∧
      Holds ID rate k.toNat n.toNat tn ((Store.empty ttl).run ID ops) := by
  obtain ⟨tn0, h0, hh0⟩ := newTopN_holds ID rate hk hn ttl
  obtain ⟨tn', h', hh'⟩ := run_holds ops hh0
  exact ⟨tn', by rw [h0, Option.bind_some, h'], hh'⟩

theorem newTopN_run_refines_put_remove :
    let ops : List (Op (UInt64 × Nat)) := [.put (1, 5) 0, .put (2, 7) 1, .remove 1 2, .removeExpired 9]
    (0 : Int) < 2 ∧ (0 : Int) < 1 ∧ ∃ tn, (TopN.newTopN 2 1 5).bind (fun tn => tn.run Prod.fst (fun _ x => x.2) ops) =
      some tn ∧ Holds Prod.fst (fun _ x => x.2) 2 1 tn ((Store.empty 5).run Prod.fst ops) := by
  intro ops
  exact ⟨by decide, by decide, newTopN_run_refines (by decide) (by decide) 5 ops⟩

end Runs

/-! ## The answers on every reachable `TopN` -/

section Reachable

variable {k n : Int} {ttl : Nat} {tn : TopN α} {st : Store α}

/-- `Put` on a reachable `TopN` answers whether the item's ID is stored. -/
theorem reachable_put_isUpdate (hk : 0 < k) (hn : 0 < n) (hr : Reachable ID rate k n ttl tn st) (item : α)
    (now : Nat) : (tn.put ID rate item now).map Prod.snd = some (decide (ID item ∈ st.items.map ID)) := by
  obtain ⟨tn', hput, -⟩ := put_holds (hr.holds hk hn) item now
  simp [hput, Store.put]

theorem reachable_put_isUpdate_again :
    let ops : List (Op (UInt64 × Nat)) := [.put (1, 5) 0, .put (2, 7) 1]
    let tn := ((TopN.newTopN 2 1 5).bind fun tn => tn.run Prod.fst (fun _ x => x.2) ops).getD ⟨[], ⟨0, []⟩⟩
    let st := (Store.empty 5).run Prod.fst ops
    Reachable Prod.fst (fun _ x => x.2) 2 1 5 tn st ∧
      (tn.put Prod.fst (fun _ x => x.2) (1, 9) 3).map Prod.snd = some (decide ((1 : UInt64) ∈ st.items.map Prod.fst)) := by
  intro ops tn st
  have h : Reachable Prod.fst (fun _ x => x.2) 2 1 5 tn st := ⟨ops, rfl, rfl⟩
  exact ⟨h, reachable_put_isUpdate (by decide) (by decide) h (1, 9) 3⟩

/-- `Remove` on a reachable `TopN` answers the stored item of the ID, nil when
there is none. -/
theorem reachable_remove_item (hk : 0 < k) (hn : 0 < n) (hr : Reachable ID rate k n ttl tn st) (id : UInt64)
    (now : Nat) : (tn.remove ID rate id now).map Prod.snd = some (st.lookup ID id) := by
  obtain ⟨tn', hrem, -⟩ := remove_holds (hr.holds hk hn) id now
  simp [hrem, Store.remove]

theorem reachable_remove_item_stored :
    let ops : List (Op (UInt64 × Nat)) := [.put (1, 5) 0, .put (2, 7) 1]
    let tn := ((TopN.newTopN 2 1 5).bind fun tn => tn.run Prod.fst (fun _ x => x.2) ops).getD ⟨[], ⟨0, []⟩⟩
    let st := (Store.empty 5).run Prod.fst ops
    Reachable Prod.fst (fun _ x => x.2) 2 1 5 tn st ∧
      (tn.remove Prod.fst (fun _ x => x.2) 1 3).map Prod.snd = some (st.lookup Prod.fst 1) := by
  intro ops tn st
  have h : Reachable Prod.fst (fun _ x => x.2) 2 1 5 tn st := ⟨ops, rfl, rfl⟩
  exact ⟨h, reachable_remove_item (by decide) (by decide) h 1 3⟩

/-- `GetAllTopN(d)` of a reachable `TopN` is `n` largest stored items by rate
`d`, and `GetTopNMin(d)` the least of them, nil only when nothing is stored. -/
theorem reachable_getAllTopN (hk : 0 < k) (hn : 0 < n) (hr : Reachable ID rate k n ttl tn st) {d : Nat}
    (hd : d < k.toNat) :
    ∃ l m, tn.getAllTopN d = some l ∧ tn.getTopNMin d = some m ∧ IsTopN (rate d) n.toNat st.items l ∧
      (m = none ↔ st.entries = []) ∧ ∀ t, m = some t → t ∈ l ∧ ∀ x ∈ l, ¬ rate d x < rate d t :=
  getAllTopN_spec (hr.holds hk hn) hd

theorem reachable_getAllTopN_three_puts :
    let ops : List (Op (UInt64 × Nat)) := [.put (1, 5) 0, .put (2, 7) 1, .put (3, 1) 2]
    let tn := ((TopN.newTopN 2 2 5).bind fun tn => tn.run Prod.fst (fun _ x => x.2) ops).getD ⟨[], ⟨0, []⟩⟩
    let st := (Store.empty 5).run Prod.fst ops
    Reachable Prod.fst (fun _ x => x.2) 2 2 5 tn st ∧
      ∃ l m, tn.getAllTopN 0 = some l ∧ tn.getTopNMin 0 = some m ∧
        IsTopN (fun x : UInt64 × Nat => x.2) 2 st.items l ∧ (m = none ↔ st.entries = []) ∧
        ∀ t, m = some t → t ∈ l ∧ ∀ x ∈ l, ¬ x.2 < t.2 := by
  intro ops tn st
  have h : Reachable Prod.fst (fun _ x => x.2) 2 2 5 tn st := ⟨ops, rfl, rfl⟩
  exact ⟨h, reachable_getAllTopN (by decide) (by decide) h (by decide)⟩

/-- `Get`, `GetAll` and `Len` of a reachable `TopN` read the store. -/
theorem reachable_get (hk : 0 < k) (hn : 0 < n) (hr : Reachable ID rate k n ttl tn st) (id : UInt64) :
    tn.get id = some (st.lookup ID id) ∧ tn.len = st.entries.length ∧
      ∃ l, tn.getAll = some l ∧ List.Perm l st.items :=
  ⟨get_eq (hr.holds hk hn) id, len_eq (hr.holds hk hn), getAll_perm (hr.holds hk hn)⟩

theorem reachable_get_two_puts :
    let ops : List (Op (UInt64 × Nat)) := [.put (1, 5) 0, .put (2, 7) 1]
    let tn := ((TopN.newTopN 2 1 5).bind fun tn => tn.run Prod.fst (fun _ x => x.2) ops).getD ⟨[], ⟨0, []⟩⟩
    let st := (Store.empty 5).run Prod.fst ops
    Reachable Prod.fst (fun _ x => x.2) 2 1 5 tn st ∧
      tn.get 2 = some (st.lookup Prod.fst 2) ∧ tn.len = st.entries.length ∧
        ∃ l, tn.getAll = some l ∧ List.Perm l st.items := by
  intro ops tn st
  have h : Reachable Prod.fst (fun _ x => x.2) 2 1 5 tn st := ⟨ops, rfl, rfl⟩
  exact ⟨h, reachable_get (by decide) (by decide) h 2⟩

end Reachable

/-! ## On a clock that never goes back

`TakeExpired` stops at the first entry that has not expired. When the calls
come at times that never go back, the entries expire in the order of the list,
so that loop drops every expired entry: the store is then `runLive`, which
keeps exactly the entries not expired by the time of the last call. -/

/-- The entries not expired by `now`. -/
def Store.live (st : Store α) (now : Nat) : Store α := { st with entries := st.entries.filter fun e => now < e.2 }

variable (ID) in
/-- A store after a call that keeps exactly the entries not expired by its time. -/
def Store.execLive (st : Store α) : Op α → Store α
  | .put item now =>
    Store.live ⟨st.ttl, st.entries.filter (fun e => ID e.1 != ID item) ++ [(item, now + st.ttl)]⟩ now
  | .remove id now => Store.live ⟨st.ttl, st.entries.filter fun e => ID e.1 != id⟩ now
  | .removeExpired now => st.live now

variable (ID) in
/-- A store after calls that each keep exactly the entries not expired by their time. -/
def Store.runLive (st : Store α) (ops : List (Op α)) : Store α := ops.foldl (Store.execLive ID) st

/-- The entries expire in the order of the store, none later than `ttl` after `t`. -/
structure Store.Fresh (st : Store α) (t : Nat) : Prop where
  sorted : st.entries.Pairwise fun a b => a.2 ≤ b.2
  bound : ∀ e ∈ st.entries, e.2 ≤ t + st.ttl

section Live

variable {st : Store α}

/-- On entries in the order they expire, dropping the expired ones from the
front drops them all. -/
theorem dropWhile_eq_filter (now : Nat) :
    ∀ {l : List (α × Nat)}, l.Pairwise (fun a b => a.2 ≤ b.2) →
      (l.dropWhile fun e => e.2 ≤ now) = l.filter fun e => now < e.2
  | [], _ => rfl
  | e :: l, hs => by
    rw [List.pairwise_cons] at hs
    by_cases he : e.2 ≤ now
    · rw [List.dropWhile_cons_of_pos (by simpa using he), List.filter_cons_of_neg (by simpa using he),
        dropWhile_eq_filter now hs.2]
    · -- `e` has not expired, nor has any later entry
      rw [List.dropWhile_cons_of_neg (by simpa using he), List.filter_cons_of_pos (by simpa using he),
        List.filter_eq_self.2 fun e' he' => by simpa using lt_of_lt_of_le (not_le.1 he) (hs.1 e' he')]

theorem expire_of_sorted {now : Nat} (hs : st.entries.Pairwise fun a b => a.2 ≤ b.2)
    (hb : ∀ e ∈ st.entries, e.2 ≤ now + st.ttl) : st.expire now = st.live now ∧ Store.Fresh (st.expire now) now := by
  have heq : st.expire now = st.live now := by
    simp only [Store.expire, Store.live, dropWhile_eq_filter now hs]
  refine ⟨heq, ⟨?_, fun e he => hb e ?_⟩⟩
  · rw [heq]
    exact hs.filter _
  · rw [heq] at he
    exact (List.mem_filter.1 he).1

theorem Store.Fresh.exec {t : Nat} (hf : Store.Fresh st t) {op : Op α} (ht : t ≤ op.now) :
    st.exec ID op = st.execLive ID op ∧ Store.Fresh (st.exec ID op) op.now := by
  cases op with
  | put item now =>
    simp only [Op.now] at ht
    refine expire_of_sorted ?_ ?_
    · refine List.pairwise_append.2 ⟨hf.sorted.filter _, by simp, ?_⟩
      intro a ha b hb
      rw [List.mem_singleton.1 hb]
      have := hf.bound a (List.mem_filter.1 ha).1
      dsimp only
      omega
    · intro e he
      rcases List.mem_append.1 he with he | he
      · have := hf.bound e (List.mem_filter.1 he).1
        dsimp only
        omega
      · rw [List.mem_singleton.1 he]
  | remove id now =>
    simp only [Op.now] at ht
    refine expire_of_sorted (hf.sorted.filter _) fun e he => ?_
    have := hf.bound e (List.mem_filter.1 he).1
    dsimp only
    omega
  | removeExpired now =>
    simp only [Op.now] at ht
    exact expire_of_sorted hf.sorted fun e he => by have := hf.bound e he; omega

theorem run_eq_runLive : ∀ {ops : List (Op α)} {st : Store α} {t : Nat}, Store.Fresh st t →
    ops.Pairwise (fun a b => a.now ≤ b.now) → (∀ op ∈ ops, t ≤ op.now) → st.run ID ops = st.runLive ID ops
  | [], _, _, _, _, _ => rfl
  | op :: ops, _, _, hf, hp, ht => by
    rw [List.pairwise_cons] at hp
    obtain ⟨heq, hf'⟩ := hf.exec (ht op (List.mem_cons_self ..))
    simp only [Store.run, Store.runLive, List.foldl_cons] at heq ⊢
    rw [← heq]
    exact run_eq_runLive hf' hp.2 hp.1

/-- On a clock that never goes back, every run of calls from `NewTopN(k, n, ttl)`
reaches a `TopN` that holds exactly the entries not expired by its last call. -/
theorem newTopN_run_live {k n : Int} (hk : 0 < k) (hn : 0 < n) (ttl : Nat) (ops : List (Op α))
    (hops : ops.Pairwise fun a b => a.now ≤ b.now) :
    ∃ tn, (TopN.newTopN k n ttl).bind (fun tn => tn.run ID rate ops) = some tn ∧
      Holds ID rate k.toNat n.toNat tn ((Store.empty ttl).runLive ID ops) := by
  obtain ⟨tn0, h0, hh0⟩ := newTopN_holds ID rate hk hn ttl
  obtain ⟨tn', h', hh'⟩ := run_holds ops hh0
  have hfresh : Store.Fresh (Store.empty ttl : Store α) 0 := ⟨List.Pairwise.nil, fun _ he => by simp [Store.empty] at he⟩
  rw [run_eq_runLive hfresh hops fun _ _ => Nat.zero_le _] at hh'
  exact ⟨tn', by rw [h0, Option.bind_some, h'], hh'⟩

theorem newTopN_run_live_expiry :
    let ops : List (Op (UInt64 × Nat)) := [.put (1, 5) 0, .put (2, 7) 3, .removeExpired 6]
    (0 : Int) < 2 ∧ (0 : Int) < 1 ∧ (ops.Pairwise fun a b => a.now ≤ b.now) ∧
      ∃ tn, (TopN.newTopN 2 1 5).bind (fun tn => tn.run Prod.fst (fun _ x => x.2) ops) = some tn ∧
        Holds Prod.fst (fun _ x => x.2) 2 1 tn ((Store.empty 5).runLive Prod.fst ops) := by
  intro ops
  have hops : ops.Pairwise fun a b => a.now ≤ b.now := by decide
  exact ⟨by decide, by decide, hops, newTopN_run_live (by decide) (by decide) 5 ops hops⟩

end Live

end MatrixCube.Prophet.Statistics
