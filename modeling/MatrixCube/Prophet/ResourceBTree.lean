import MatrixCube.Prophet.ResourceTree
import MatrixCube.Prophet.BTree.Iterate

/-! # The resource tree over the indexed btree

`resourceTree` (`components/prophet/core/resource_tree.go`) keeps its
resources in `util/btree`, ordered by start key, and reaches them only through
the btree's API: `find` and `getOverlaps` pass a callback to
`DescendLessOrEqual` and `AscendGreaterOrEqual`, `update` and `remove` call
`Delete` and `ReplaceOrInsert`, and `RandomResource` reads ranks with
`GetWithIndex` and `GetAt`. Here those functions run on the btree model, each
callback a step on its own state, and `none` is the btree model out of fuel or
a run-time panic of the code.

`ResourceTree` is the same tree seen as a sorted set. On a btree that holds a
set (`Holds`), each query returns what the set's returns (`find_eq`,
`getOverlaps_eq`, `randomResource_eq`), and `update` and `remove` leave a btree
that holds the set's result (`update_holds`, `remove_holds`). One call on the
btree is then one call on the set (`step_refines`), over every run of calls
(`run_refines`), so what is proved of `ResourceTree` holds of the code.
-/

namespace MatrixCube.Prophet

open Btree CachedResource

namespace ResourceTree

/-- A call that changes the resource tree. -/
inductive Op where
  | update (res : CachedResource)
  | remove (res : CachedResource)

/-- What such a call returns: the overlaps `update` deleted, or what `remove`
removed. -/
inductive Out where
  | overlaps (l : List CachedResource)
  | removed (r : Option CachedResource)
  deriving DecidableEq

/-- One call on the tree as a sorted set. -/
def step (s : ResourceTree) : Op → ResourceTree × Out
  | .update res => ((s.update res).1, .overlaps (s.update res).2)
  | .remove res => ((s.remove res).1, .removed (s.remove res).2)

/-- Calls one after another, with what each returned. -/
def run (s : ResourceTree) : List Op → ResourceTree × List Out
  | [] => (s, [])
  | op :: ops =>
    let r := (s.step op).1.run ops
    (r.1, (s.step op).2 :: r.2)

@[simp] theorem getStartKey_newSearchRes (key : Bytes) : (newSearchRes key).getStartKey = key := rfl

/-- What `find` returns is stored. -/
theorem find_mem {s : ResourceTree} {res r : CachedResource} (h : s.find res = some r) : r ∈ s.items := by
  unfold find at h
  split at h
  · cases h
  · rename_i result hhead
    split_ifs at h
    cases h
    exact (OrderedSet.mem_descendLessOrEqual.mp (List.mem_of_mem_head? hhead)).1

end ResourceTree

/-- `resourceTree`: the btree of `resourceItem`s, which `resourceItem.Less`
orders by start key. -/
abbrev ResourceBTree := BTree CachedResource

namespace ResourceBTree

/-- `defaultBTreeDegree`. -/
def defaultBTreeDegree : Nat := 64

/-- `newResourceTree`. -/
def newResourceTree : Option ResourceBTree := BTree.new defaultBTreeDegree

/-- `resourceTree.length`: `Len()`. -/
def length (t : ResourceBTree) : Int := t.len

/-- `resourceTree.find`: the first item `DescendLessOrEqual` visits from the
start of `res`, kept if it holds that start. -/
def find (t : ResourceBTree) (res : CachedResource) : Option (Option CachedResource) :=
  (t.descendLessOrEqual getStartKey res (fun _ i => (some i, false)) none).map fun result =>
    match result with
    | none => none
    | some result => if ResourceTree.contains result res.getStartKey then some result else none

/-- `resourceTree.getOverlaps`: from the holder of the start of `res` (or from
that start) up, the items that start below the end of `res`. -/
def getOverlaps (t : ResourceBTree) (res : CachedResource) : Option (List CachedResource) := do
  let result ← t.find res
  t.ascendGreaterOrEqual getStartKey (result.getD res)
    (fun overlaps i =>
      if res.getEndKey.length > 0 && decide (res.getEndKey ≤ i.getStartKey) then (overlaps, false)
      else (overlaps ++ [i], true)) []

/-- `resourceTree.update`: delete the overlapping resources, insert `res`, and
return what was deleted. -/
def update (t : ResourceBTree) (res : CachedResource) : Option (ResourceBTree × List CachedResource) := do
  let overlaps ← t.getOverlaps res
  let t ← overlaps.foldlM (fun t item => (t.delete getStartKey item).map Prod.fst) t
  let (t, _) ← t.replaceOrInsert getStartKey res
  pure (t, overlaps)

/-- `resourceTree.remove`: delete the holder of the start of `res` if it has
the same ID, and return what `Delete` returns. -/
def remove (t : ResourceBTree) (res : CachedResource) : Option (ResourceBTree × Option CachedResource) :=
  if t.length = 0 then some (t, none)
  else do
    let result ← t.find res
    match result with
    | none => pure (t, none)
    | some result => if result.meta_.id ≠ res.meta_.id then pure (t, none) else t.delete getStartKey result

/-- `resourceTree.search`: the holder of `resKey`. -/
def search (t : ResourceBTree) (resKey : Bytes) : Option (Option CachedResource) :=
  t.find (ResourceTree.newSearchRes resKey)

/-- `resourceTree.scanRange`: from the holder of `startKey` (or from that key)
up, until `f` returns false. -/
def scanRange {σ : Type} (t : ResourceBTree) (startKey : Bytes) (f : σ → CachedResource → σ × Bool) (st : σ) :
    Option σ := do
  let startItem ← t.find (ResourceTree.newSearchRes startKey)
  t.ascendGreaterOrEqual getStartKey (startItem.getD (ResourceTree.newSearchRes startKey)) f st

/-- `resourceTree.getAdjacentResources`: the items just below and just above
the start of `res`. -/
def getAdjacentResources (t : ResourceBTree) (res : CachedResource) :
    Option (Option CachedResource × Option CachedResource) := do
  let item := ResourceTree.newSearchRes res.getStartKey
  let next ← t.ascendGreaterOrEqual getStartKey item
    (fun next i => if item.getStartKey == i.getStartKey then (next, true) else (some i, false)) none
  let prev ← t.descendLessOrEqual getStartKey item
    (fun prev i => if item.getStartKey == i.getStartKey then (prev, true) else (some i, false)) none
  pure (prev, next)

/-- `resourceTree.searchPrev`: the resource just before the holder of
`resKey`, when it ends where the holder starts. -/
def searchPrev (t : ResourceBTree) (resKey : Bytes) : Option (Option CachedResource) := do
  let curResItem ← t.find (ResourceTree.newSearchRes resKey)
  match curResItem with
  | none => pure none
  | some cur =>
    let (prev, _) ← t.getAdjacentResources cur
    match prev with
    | none => pure none
    | some prev => pure (if prev.getEndKey ≠ cur.getStartKey then none else some prev)

/-- The ranks `RandomResource` draws from for `[startKey, endKey)`: from the
rank of `startKey`, one lower when the item before it holds `startKey`, up to
the rank of `endKey` (`Len()` for an empty `endKey`). -/
def rankWindow (t : ResourceBTree) (startKey endKey : Bytes) : Option (Int × Int) := do
  let (startResource, startIndex) ← t.getWithIndex getStartKey (ResourceTree.newSearchRes startKey)
  let endIndex ← (if endKey.length ≠ 0 then
      (t.getWithIndex getStartKey (ResourceTree.newSearchRes endKey)).map Prod.snd
    else pure t.len)
  if startIndex != 0 && startResource.isNone then
    -- the type assertion on a nil item panics
    let prev ← (← t.getAt (startIndex - 1))
    pure (if ResourceTree.contains prev startKey then startIndex - 1 else startIndex, endIndex)
  else pure (startIndex, endIndex)

/-- The loop of `RandomResource` over the ranges in the drawn order `perm`;
`intn j n` is the `rand.Intn(n)` of the `j`-th range tried. -/
def randomResourceLoop (t : ResourceBTree) (ranges : List (Bytes × Bytes)) (intn : Nat → Nat → Nat) :
    Nat → List Nat → Option (Option CachedResource)
  | _, [] => some none
  | j, i :: perm => do
    let (startKey, endKey) ← ranges[i]?
    let (startIndex, endIndex) ← t.rankWindow startKey endKey
    if endIndex ≤ startIndex then randomResourceLoop t ranges intn (j + 1) perm
    else
      let res ← (← t.getAt ((intn j (endIndex - startIndex).toNat : Int) + startIndex))
      if isInvolved res startKey endKey then pure (some res)
      else randomResourceLoop t ranges intn (j + 1) perm

/-- `resourceTree.RandomResource`, with `perm` the drawn `rand.Perm`. -/
def randomResource (t : ResourceBTree) (ranges : List (Bytes × Bytes)) (perm : List Nat)
    (intn : Nat → Nat → Nat) : Option (Option CachedResource) :=
  if t.length = 0 then some none
  else
    let ranges := if ranges.length = 0 then [([], [])] else ranges
    t.randomResourceLoop ranges intn 0 perm

/-- One call on the btree. -/
def step (t : ResourceBTree) : ResourceTree.Op → Option (ResourceBTree × ResourceTree.Out)
  | .update res => (t.update res).map fun r => (r.1, .overlaps r.2)
  | .remove res => (t.remove res).map fun r => (r.1, .removed r.2)

/-- Calls one after another, with what each returned. -/
def run (t : ResourceBTree) : List ResourceTree.Op → Option (ResourceBTree × List ResourceTree.Out)
  | [] => some (t, [])
  | op :: ops => (t.step op).bind fun r => (r.1.run ops).map fun r' => (r'.1, r.2 :: r'.2)

/-! ## One call on a btree that holds the set -/

section Refines

variable {t : ResourceBTree} {s : ResourceTree}

theorem length_eq (ht : BTree.Holds getStartKey t s) : t.length = (s.length : Int) := by
  simp [length, BTree.len, ht.length, ResourceTree.length]

theorem find_eq (ht : BTree.Holds getStartKey t s) (res : CachedResource) : t.find res = some (s.find res) := by
  rw [find, ht.descendLessOrEqual_eq, Option.map_some, List.feed_head]
  rfl

theorem getOverlaps_eq (ht : BTree.Holds getStartKey t s) (res : CachedResource) :
    t.getOverlaps res = some (s.getOverlaps res) := by
  rw [getOverlaps, find_eq ht]
  show t.ascendGreaterOrEqual getStartKey ((s.find res).getD res) _ [] = _
  rw [ht.ascendGreaterOrEqual_eq, List.feed_takeWhile, List.nil_append]
  rfl

/-- `Delete` of each item in turn deletes each key from the set. -/
theorem foldlM_delete_holds (ht : BTree.Holds getStartKey t s) (l : List CachedResource) :
    ∃ t', l.foldlM (fun t item => (BTree.delete getStartKey t item).map Prod.fst) t = some t' ∧
      BTree.Holds getStartKey t' (l.foldl (fun s item => s.delete item.getStartKey) s) := by
  induction l generalizing t s with
  | nil => exact ⟨t, rfl, ht⟩
  | cons item l ih =>
    obtain ⟨t₁, hdel, ht₁⟩ := BTree.apply_holds ht (.delete item)
    obtain ⟨t', hfold, ht'⟩ := ih ht₁
    refine ⟨t', ?_, ht'⟩
    rw [List.foldlM_cons]
    rw [show BTree.delete getStartKey t item = _ from hdel]
    exact hfold

theorem update_holds (ht : BTree.Holds getStartKey t s) (res : CachedResource) :
    ∃ t', t.update res = some (t', (s.update res).2) ∧ BTree.Holds getStartKey t' (s.update res).1 := by
  obtain ⟨t₁, hfold, ht₁⟩ := foldlM_delete_holds ht (s.getOverlaps res)
  obtain ⟨t', hins, ht'⟩ := BTree.replaceOrInsert_holds ht₁ res
  refine ⟨t', ?_, ht'⟩
  rw [update, getOverlaps_eq ht]
  show (do
    let t ← (s.getOverlaps res).foldlM (fun t item => (BTree.delete getStartKey t item).map Prod.fst) t
    let (t, _) ← t.replaceOrInsert getStartKey res
    pure (t, s.getOverlaps res)) = _
  rw [hfold]
  show (do let (t, _) ← t₁.replaceOrInsert getStartKey res; pure (t, s.getOverlaps res)) = _
  rw [hins]
  rfl

theorem remove_holds (ht : BTree.Holds getStartKey t s) (res : CachedResource) :
    ∃ t', t.remove res = some (t', (s.remove res).2) ∧ BTree.Holds getStartKey t' (s.remove res).1 := by
  unfold remove ResourceTree.remove
  by_cases h0 : s.length = 0
  · rw [if_pos (by rw [length_eq ht, h0]; rfl), if_pos h0]
    exact ⟨t, rfl, ht⟩
  rw [if_neg (by rw [length_eq ht]; exact_mod_cast h0), if_neg h0, find_eq ht]
  cases hf : s.find res with
  | none => exact ⟨t, rfl, ht⟩
  | some result =>
    by_cases hid : result.meta_.id ≠ res.meta_.id
    · exact ⟨t, by simp [hid], by simpa [hid] using ht⟩
    · -- the holder is stored, so `Delete` returns it
      rw [not_not] at hid
      obtain ⟨t', hdel, ht'⟩ := BTree.apply_holds ht (.delete result)
      have hget : s.get result.getStartKey = some result :=
        OrderedSet.get_eq_some_iff.mpr ⟨ResourceTree.find_mem hf, rfl⟩
      refine ⟨t', ?_, by simpa [hid, BTree.applySet] using ht'⟩
      simpa [hid, BTree.apply, BTree.applySet, hget] using hdel

theorem search_eq (ht : BTree.Holds getStartKey t s) (resKey : Bytes) : t.search resKey = some (s.search resKey) :=
  find_eq ht _

/-- `GetAt` of a rank is the set's item of that rank, nil past the last. -/
theorem getAt_natCast (ht : BTree.Holds getStartKey t s) (n : Nat) : t.getAt (n : Int) = some (s.getAt n) := by
  rw [ht.getAt_eq]
  by_cases hn : n < s.len
  · rw [if_pos ⟨Int.natCast_nonneg n, by rw [BTree.len, ht.length]; exact_mod_cast hn⟩, Int.toNat_natCast]
  · rw [if_neg fun h => hn (by rw [BTree.len, ht.length] at h; exact_mod_cast h.2)]
    simp only [OrderedSet.len, not_lt] at hn
    simp [OrderedSet.getAt, List.getElem?_eq_none hn]

theorem rankWindow_eq (ht : BTree.Holds getStartKey t s) (startKey endKey : Bytes) :
    t.rankWindow startKey endKey = (s.rankWindow startKey endKey).map fun w => ((w.1 : Int), (w.2 : Int)) := by
  have hend : (if endKey.length ≠ 0 then
        (t.getWithIndex getStartKey (ResourceTree.newSearchRes endKey)).map Prod.snd else pure t.len) =
      some ((if endKey.length ≠ 0 then (s.getWithIndex endKey).2 else s.len : Nat) : Int) := by
    split_ifs
    · rw [ht.getWithIndex_eq]
      rfl
    · rw [BTree.len, ht.length]
      rfl
  unfold rankWindow ResourceTree.rankWindow
  rw [ht.getWithIndex_eq, ResourceTree.getStartKey_newSearchRes, hend]
  generalize s.getWithIndex startKey = g
  obtain ⟨startResource, startIndex⟩ := g
  simp only [Option.bind_eq_bind, Option.bind_some]
  generalize (if endKey.length ≠ 0 then (s.getWithIndex endKey).2 else s.len) = e
  by_cases hprev : startIndex ≠ 0 ∧ startResource.isNone = true
  · -- the item before the rank of `startKey` is read at the same rank
    obtain ⟨h0, hn⟩ := hprev
    have hcast : (startIndex : Int) - 1 = ((startIndex - 1 : Nat) : Int) := by omega
    rw [if_pos (by simp [h0, hn]), if_pos (by simp [h0, hn]), hcast, getAt_natCast ht]
    cases s.getAt (startIndex - 1) with
    | none => rfl
    | some prev => simp
  · rw [if_neg (by simpa using hprev), if_neg (by simpa using hprev)]
    rfl

theorem randomResourceLoop_eq (ht : BTree.Holds getStartKey t s) (ranges : List (Bytes × Bytes))
    (intn : Nat → Nat → Nat) : ∀ (j : Nat) (perm : List Nat),
      t.randomResourceLoop ranges intn j perm = s.randomResourceLoop ranges intn j perm
  | _, [] => rfl
  | j, i :: perm => by
    simp only [randomResourceLoop, ResourceTree.randomResourceLoop]
    cases ranges[i]? with
    | none => rfl
    | some rg =>
      obtain ⟨startKey, endKey⟩ := rg
      simp only [Option.bind_eq_bind, Option.bind_some]
      rw [rankWindow_eq ht]
      cases s.rankWindow startKey endKey with
      | none => rfl
      | some w =>
        obtain ⟨si, ei⟩ := w
        simp only [Option.map_some, Option.bind_some]
        by_cases hle : ei ≤ si
        · rw [if_pos (by exact_mod_cast hle), if_pos hle]
          exact randomResourceLoop_eq ht ranges intn (j + 1) perm
        · -- the drawn rank is the same number
          have hidx : ((intn j ((ei : Int) - si).toNat : Nat) : Int) + si = ((intn j (ei - si) + si : Nat) : Int) := by
            rw [show ((ei : Int) - si).toNat = ei - si by omega]
            push_cast
            rfl
          rw [if_neg (by exact_mod_cast hle), if_neg hle, hidx, getAt_natCast ht]
          cases s.getAt (intn j (ei - si) + si) with
          | none => rfl
          | some res =>
            simp only [Option.bind_some]
            split_ifs
            · rfl
            · exact randomResourceLoop_eq ht ranges intn (j + 1) perm

theorem randomResource_eq (ht : BTree.Holds getStartKey t s) (ranges : List (Bytes × Bytes)) (perm : List Nat)
    (intn : Nat → Nat → Nat) : t.randomResource ranges perm intn = s.randomResource ranges perm intn := by
  unfold randomResource ResourceTree.randomResource
  by_cases h0 : s.length = 0
  · rw [if_pos (by rw [length_eq ht, h0]; rfl), if_pos h0]
  · rw [if_neg (by rw [length_eq ht]; exact_mod_cast h0), if_neg h0]
    exact randomResourceLoop_eq ht _ intn 0 perm

/-- Ascending from `item` past the items at its start key, the callback of
`getAdjacentResources` keeps the first item above it. -/
theorem ascend_next (ht : BTree.Holds getStartKey t s) (item : CachedResource) :
    t.ascendGreaterOrEqual getStartKey item
        (fun next i => if item.getStartKey == i.getStartKey then (next, true) else (some i, false)) none =
      some (s.items.filter fun x => item.getStartKey < x.getStartKey).head? := by
  rw [ht.ascendGreaterOrEqual_eq, List.feed_find_first, ← List.head?_filter, List.filter_filter]
  congr 2
  refine List.filter_congr fun x _ => ?_
  rw [Bool.eq_iff_iff]
  simp only [Bool.and_eq_true, Bool.not_eq_true', beq_eq_false_iff_ne, decide_eq_true_eq]
  exact ⟨fun h => lt_of_le_of_ne h.2 h.1, fun h => ⟨ne_of_lt h, le_of_lt h⟩⟩

/-- Descending from `item` past the items at its start key, the callback of
`getAdjacentResources` keeps the first item below it. -/
theorem descend_prev (ht : BTree.Holds getStartKey t s) (item : CachedResource) :
    t.descendLessOrEqual getStartKey item
        (fun prev i => if item.getStartKey == i.getStartKey then (prev, true) else (some i, false)) none =
      some (s.items.filter fun x => x.getStartKey < item.getStartKey).getLast? := by
  rw [ht.descendLessOrEqual_eq, List.feed_find_first, ← List.head?_filter, List.filter_reverse, List.filter_filter,
    List.head?_reverse]
  congr 2
  refine List.filter_congr fun x _ => ?_
  rw [Bool.eq_iff_iff]
  simp only [Bool.and_eq_true, Bool.not_eq_true', beq_eq_false_iff_ne, decide_eq_true_eq]
  exact ⟨fun h => lt_of_le_of_ne h.2 (Ne.symm h.1), fun h => ⟨(ne_of_lt h).symm, le_of_lt h⟩⟩

theorem getAdjacentResources_eq (ht : BTree.Holds getStartKey t s) (res : CachedResource) :
    t.getAdjacentResources res = some ((s.items.filter fun x => x.getStartKey < res.getStartKey).getLast?,
      (s.items.filter fun x => res.getStartKey < x.getStartKey).head?) := by
  rw [getAdjacentResources, ascend_next ht, descend_prev ht]
  rfl

/-- `scanRange` calls `f` on the stored resources from the holder of
`startKey` (or from that key) up, until it returns false. -/
theorem scanRange_eq {σ : Type} (ht : BTree.Holds getStartKey t s) (startKey : Bytes)
    (f : σ → CachedResource → σ × Bool) (st : σ) :
    t.scanRange startKey f st = some (List.feed f (s.ascendGreaterOrEqual
      ((s.search startKey).getD (ResourceTree.newSearchRes startKey)).getStartKey) st).1 := by
  rw [scanRange, find_eq ht]
  exact ht.ascendGreaterOrEqual_eq _ f st

/-- `searchPrev` is the resource of the greatest start below that of the holder
of `resKey`, when it ends where the holder starts. -/
theorem searchPrev_eq (ht : BTree.Holds getStartKey t s) (resKey : Bytes) :
    t.searchPrev resKey = some (match s.search resKey with
      | none => none
      | some cur =>
        match (s.items.filter fun x => x.getStartKey < cur.getStartKey).getLast? with
        | none => none
        | some prev => if prev.getEndKey ≠ cur.getStartKey then none else some prev) := by
  rw [searchPrev, find_eq ht]
  show (match s.search resKey with
    | none => pure none
    | some cur => _) = _
  cases s.search resKey with
  | none => rfl
  | some cur =>
    show (do let (prev, _) ← t.getAdjacentResources cur; _) =
      some (match (s.items.filter fun x => x.getStartKey < cur.getStartKey).getLast? with
        | none => none
        | some prev => if prev.getEndKey ≠ cur.getStartKey then none else some prev)
    rw [getAdjacentResources_eq ht]
    cases (s.items.filter fun x => x.getStartKey < cur.getStartKey).getLast? <;> rfl

/-- One call on the btree is the call on the set, and returns what it returns. -/
theorem step_refines (ht : BTree.Holds getStartKey t s) (op : ResourceTree.Op) :
    ∃ t', t.step op = some (t', (s.step op).2) ∧ BTree.Holds getStartKey t' (s.step op).1 := by
  cases op with
  | update res =>
    obtain ⟨t', h, ht'⟩ := update_holds ht res
    exact ⟨t', by simp [step, h, ResourceTree.step], ht'⟩
  | remove res =>
    obtain ⟨t', h, ht'⟩ := remove_holds ht res
    exact ⟨t', by simp [step, h, ResourceTree.step], ht'⟩

theorem run_refines (ht : BTree.Holds getStartKey t s) (ops : List ResourceTree.Op) :
    ∃ t', t.run ops = some (t', (s.run ops).2) ∧ BTree.Holds getStartKey t' (s.run ops).1 := by
  induction ops generalizing t s with
  | nil => exact ⟨t, rfl, ht⟩
  | cons op ops ih =>
    obtain ⟨t₁, hstep, ht₁⟩ := step_refines ht op
    obtain ⟨t', hrun, ht'⟩ := ih ht₁
    exact ⟨t', by simp [run, hstep, hrun, ResourceTree.run], ht'⟩

end Refines

theorem newResourceTree_holds :
    ∃ t, newResourceTree = some t ∧ BTree.Holds getStartKey t ResourceTree.empty :=
  BTree.new_holds (by decide)

theorem resourceTree_refines (ops : List ResourceTree.Op) :
    ∃ t, (newResourceTree.bind fun t => t.run ops) = some (t, (ResourceTree.empty.run ops).2) ∧
      t.length = ((ResourceTree.empty.run ops).1.length : Int) ∧
      (∀ res, t.find res = some ((ResourceTree.empty.run ops).1.find res)) ∧
      (∀ res, t.getOverlaps res = some ((ResourceTree.empty.run ops).1.getOverlaps res)) ∧
      (∀ key, t.search key = some ((ResourceTree.empty.run ops).1.search key)) ∧
      ∀ ranges perm intn,
        t.randomResource ranges perm intn = (ResourceTree.empty.run ops).1.randomResource ranges perm intn := by
  obtain ⟨t₀, hnew, ht₀⟩ := newResourceTree_holds
  obtain ⟨t, hrun, ht⟩ := run_refines ht₀ ops
  exact ⟨t, by rw [hnew, Option.bind_some, hrun], length_eq ht, find_eq ht, getOverlaps_eq ht, search_eq ht,
    randomResource_eq ht⟩

theorem resourceTree_neighbours (ops : List ResourceTree.Op) :
    ∃ t, ((newResourceTree.bind fun t => t.run ops).map Prod.fst) = some t ∧
      (∀ res, t.getAdjacentResources res =
        some (((ResourceTree.empty.run ops).1.items.filter fun x => x.getStartKey < res.getStartKey).getLast?,
          ((ResourceTree.empty.run ops).1.items.filter fun x => res.getStartKey < x.getStartKey).head?)) ∧
      (∀ resKey, t.searchPrev resKey = some (match (ResourceTree.empty.run ops).1.search resKey with
        | none => none
        | some cur =>
          match ((ResourceTree.empty.run ops).1.items.filter fun x => x.getStartKey < cur.getStartKey).getLast? with
          | none => none
          | some prev => if prev.getEndKey ≠ cur.getStartKey then none else some prev)) ∧
      ∀ (σ : Type) (startKey : Bytes) (f : σ → CachedResource → σ × Bool) (st : σ),
        t.scanRange startKey f st = some (List.feed f ((ResourceTree.empty.run ops).1.ascendGreaterOrEqual
          (((ResourceTree.empty.run ops).1.search startKey).getD (ResourceTree.newSearchRes startKey)).getStartKey)
            st).1 := by
  obtain ⟨t₀, hnew, ht₀⟩ := newResourceTree_holds
  obtain ⟨t, hrun, ht⟩ := run_refines ht₀ ops
  exact ⟨t, by rw [hnew, Option.bind_some, hrun, Option.map_some], getAdjacentResources_eq ht, searchPrev_eq ht,
    fun _ startKey f st => scanRange_eq ht startKey f st⟩

end ResourceBTree

end MatrixCube.Prophet
