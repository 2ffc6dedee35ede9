import MatrixCube.Pb
import MatrixCube.Lib.RangeIndex

/-! # The resource tree of prophet

`CachedResource` (`components/prophet/core/resource.go`) is the scheduler's
view of one resource: its metadata, leader, pending peers and statistics.
`resourceTree` (`resource_tree.go`) indexes resources by range in a
google/btree whose `resourceItem.Less` compares start keys, so the tree is
ordered by start key. `find` takes the first item of `DescendLessOrEqual`, the
one with the greatest start not above the key, and keeps it if it holds the
key; `getOverlaps` walks up from there while the items start below the end of
the new range.

The metadata is `bhmetapb.Shard`, which implements `metadata.Resource` in this
repository. The btree holds pointers, but no modelled function mutates a
`CachedResource` after it is stored, so items are values.
-/

namespace MatrixCube.Prophet

open KeyRange

/-- `CachedResource`: the metadata, the raft term, the leader, the down and
pending peers, and the approximate size, key count and flow of
`metapb.ResourceStats`. The indices read the metadata, the leader, the pending
peers and the approximate size and keys; a heartbeat reads them all. -/
structure CachedResource where
  meta_ : Shard
  term : Nat := 0
  leader : Option Peer := none
  downPeers : List PeerStats := []
  pendingPeers : List Peer := []
  approximateSize : Nat := 0
  approximateKeys : Nat := 0
  writtenBytes : Nat := 0
  readBytes : Nat := 0
  writtenKeys : Nat := 0
  readKeys : Nat := 0
  deriving DecidableEq, Repr, Inhabited

namespace CachedResource

/-- `GetStartKey`. -/
abbrev getStartKey (r : CachedResource) : Bytes := r.meta_.start

/-- `GetEndKey`. -/
abbrev getEndKey (r : CachedResource) : Bytes := r.meta_.end_

/-- `getLeaderID`: zero without a leader. -/
def getLeaderID (r : CachedResource) : UInt64 :=
  match r.leader with
  | none => 0
  | some leader => leader.id

/-- `GetVoters`: the peers that `classifyVoterAndLearner` does not class as
learners. -/
def getVoters (r : CachedResource) : List Peer :=
  r.meta_.peers.filter fun p => p.role != .learner

/-- `GetLearners`: the peers of role `Learner`. -/
def getLearners (r : CachedResource) : List Peer :=
  r.meta_.peers.filter fun p => p.role == .learner

/-- The range of the resource. -/
abbrev range (r : CachedResource) : Bytes × Bytes := (r.meta_.start, r.meta_.end_)

end CachedResource

/-- `isInvolved`: the range of `res` lies inside `[startKey, endKey)`, an empty
`endKey` being +∞. -/
def isInvolved (res : CachedResource) (startKey endKey : Bytes) : Bool :=
  decide (startKey ≤ res.getStartKey) &&
    (endKey.length == 0 || (res.getEndKey.length > 0 && decide (res.getEndKey ≤ endKey)))

/-- `resourceTree`: the btree as an ordered set of resources under their start key. -/
abbrev ResourceTree := OrderedSet CachedResource.getStartKey

namespace ResourceTree

open CachedResource

/-- `newResourceTree`. -/
def empty : ResourceTree := OrderedSet.empty getStartKey

/-- `resourceTree.length`. -/
def length (t : ResourceTree) : Nat := t.len

/-- `resourceItem.Contains`. -/
def contains (r : CachedResource) (key : Bytes) : Bool := decide (Contains r.meta_.start r.meta_.end_ key)

/-- `resourceTree.find`: the resource with the greatest start not above the
start of `res`, if it holds that start. -/
def find (t : ResourceTree) (res : CachedResource) : Option CachedResource :=
  match (t.descendLessOrEqual res.getStartKey).head? with
  | none => none
  | some result => if contains result res.getStartKey then some result else none

/-- `resourceTree.getOverlaps`: from the holder of the start of `res` (or from
that start) up in start order, while the items start below the end of `res`. -/
def getOverlaps (t : ResourceTree) (res : CachedResource) : List CachedResource :=
  let result := (t.find res).getD res
  (t.ascendGreaterOrEqual result.getStartKey).takeWhile
    fun item => !(res.getEndKey.length > 0 && decide (res.getEndKey ≤ item.getStartKey))

/-- `resourceTree.update`: delete the overlapping resources, insert `res`, and
return what was deleted. -/
def update (t : ResourceTree) (res : CachedResource) : ResourceTree × List CachedResource :=
  let overlaps := t.getOverlaps res
  ((overlaps.foldl (fun t item => t.delete item.getStartKey) t).replaceOrInsert res, overlaps)

/-- `resourceTree.remove`: delete the holder of the start of `res` if it has the
same ID, and return it. -/
def remove (t : ResourceTree) (res : CachedResource) : ResourceTree × Option CachedResource :=
  if t.length = 0 then (t, none)
  else
    match t.find res with
    | none => (t, none)
    | some result =>
      if result.meta_.id ≠ res.meta_.id then (t, none)
      else (t.delete result.getStartKey, some result)

/-- `resourceTree.newSearchRes`: a resource with only a start key. -/
def newSearchRes (key : Bytes) : CachedResource := { meta_ := { start := key } }

/-- `resourceTree.search`: the stored resource that holds `resKey`. -/
def search (t : ResourceTree) (resKey : Bytes) : Option CachedResource := t.find (newSearchRes resKey)

/-- The ranks `RandomResource` draws from for the range `[startKey, endKey)`:
from the rank of `startKey`, one lower when the item before it holds
`startKey`, up to the rank of `endKey` (the length for an empty `endKey`).
`none` is the run-time panic of the type assertion on a nil item. -/
def rankWindow (t : ResourceTree) (startKey endKey : Bytes) : Option (Nat × Nat) :=
  let (startResource, startIndex) := t.getWithIndex startKey
  let endIndex := if endKey.length ≠ 0 then (t.getWithIndex endKey).2 else t.len
  if startIndex != 0 && startResource.isNone then
    (t.getAt (startIndex - 1)).map fun prev =>
      (if contains prev startKey then startIndex - 1 else startIndex, endIndex)
  else some (startIndex, endIndex)

/-- The loop of `RandomResource` over the ranges in the drawn order `perm`
(`rand.Perm`); `intn j n` is the `rand.Intn(n)` of the `j`-th range tried.
`none` is a run-time panic. -/
def randomResourceLoop (t : ResourceTree) (ranges : List (Bytes × Bytes)) (intn : Nat → Nat → Nat) :
    Nat → List Nat → Option (Option CachedResource)
  | _, [] => some none
  | j, i :: perm => do
    let (startKey, endKey) ← ranges[i]?
    let (startIndex, endIndex) ← t.rankWindow startKey endKey
    if endIndex ≤ startIndex then randomResourceLoop t ranges intn (j + 1) perm
    else
      let res ← t.getAt (intn j (endIndex - startIndex) + startIndex)
      if isInvolved res startKey endKey then pure (some res)
      else randomResourceLoop t ranges intn (j + 1) perm

/-- `resourceTree.RandomResource`: a random stored resource inside one of
`ranges` (the whole key space when there are none), where `perm` is the drawn
`rand.Perm` of the ranges. A `KeyRange` is its start and end key; its group is
not read here. -/
def randomResource (t : ResourceTree) (ranges : List (Bytes × Bytes)) (perm : List Nat)
    (intn : Nat → Nat → Nat) : Option (Option CachedResource) :=
  if t.length = 0 then some none
  else
    let ranges := if ranges.length = 0 then [([], [])] else ranges
    t.randomResourceLoop ranges intn 0 perm

/-! ## Finding the resource that holds a key -/

/-- The representation invariant: every stored range is non-empty, and two
stored resources share no key. -/
structure WellFormed (t : ResourceTree) : Prop where
  nonempty : ∀ r ∈ t.items, Below r.meta_.end_ r.meta_.start
  disjoint : ∀ a ∈ t.items, ∀ b ∈ t.items, a ≠ b → Disjoint a.range b.range

theorem wellFormed_empty : empty.WellFormed :=
  ⟨fun _ h => absurd h OrderedSet.mem_empty, fun _ h => absurd h OrderedSet.mem_empty⟩

@[simp] theorem contains_eq_true {r : CachedResource} {key : Bytes} :
    contains r key = true ↔ Contains r.meta_.start r.meta_.end_ key := by
  simp [contains]

variable {t : ResourceTree}

/-- A well-formed tree is a range index over the start and end of its resources. -/
theorem WellFormed.partition (hw : t.WellFormed) :
    Partition (fun r : CachedResource => r.meta_.start) (fun r => r.meta_.end_) t.items :=
  ⟨hw.nonempty, hw.disjoint⟩

/-- Two stored resources that hold one key are the same resource. -/
theorem WellFormed.eq_of_contains (hw : t.WellFormed) {a b : CachedResource} (ha : a ∈ t.items)
    (hb : b ∈ t.items) {k : Bytes} (hka : Contains a.meta_.start a.meta_.end_ k)
    (hkb : Contains b.meta_.start b.meta_.end_ k) : a = b :=
  hw.partition.eq_of_contains ha hb hka hkb

/-- `find` returns the stored resource that holds the start of its argument. -/
theorem find_eq_some_iff (hw : t.WellFormed) {res r : CachedResource} :
    t.find res = some r ↔ r ∈ t.items ∧ Contains r.meta_.start r.meta_.end_ res.meta_.start := by
  unfold find
  constructor
  · intro h
    split at h
    · cases h
    · rename_i result hhead
      obtain ⟨rest, hlist⟩ := List.head?_eq_some_iff.mp hhead
      split_ifs at h with hc
      cases h
      exact ⟨(OrderedSet.descendLessOrEqual_head hlist).1, contains_eq_true.mp hc⟩
  · rintro ⟨hr, hk⟩
    have hvisit : r ∈ t.descendLessOrEqual res.getStartKey :=
      OrderedSet.mem_descendLessOrEqual.mpr ⟨hr, hk.1⟩
    obtain ⟨x, rest, hlist⟩ := List.exists_cons_of_ne_nil (List.ne_nil_of_mem hvisit)
    obtain ⟨hx, hxk, hgreatest⟩ := OrderedSet.descendLessOrEqual_head hlist
    -- the first resource visited has the greatest start not above the key
    have hxr : x = r := hw.partition.eq_of_greatest hx hxk hgreatest hr hk
    subst hxr
    simp [hlist, hk]

theorem find_eq_none_iff (hw : t.WellFormed) {res : CachedResource} :
    t.find res = none ↔ ∀ r ∈ t.items, ¬ Contains r.meta_.start r.meta_.end_ res.meta_.start := by
  constructor
  · intro h r hr hk
    rw [(find_eq_some_iff hw).mpr ⟨hr, hk⟩] at h
    cases h
  · intro h
    cases hf : t.find res with
    | none => rfl
    | some r =>
      obtain ⟨hr, hk⟩ := (find_eq_some_iff hw).mp hf
      exact absurd hk (h r hr)

/-! ## Update -/

/-- The scan condition of `getOverlaps`: the end of `res` is above the start visited. -/
theorem scan_iff (res item : CachedResource) :
    (!(res.getEndKey.length > 0 && decide (res.getEndKey ≤ item.getStartKey))) = true ↔
      Below res.meta_.end_ item.meta_.start := by
  simp [Below, List.length_pos_iff, or_iff_not_imp_left]

theorem mem_getOverlaps {res y : CachedResource} :
    y ∈ t.getOverlaps res ↔
      y ∈ t.items ∧ ((t.find res).getD res).meta_.start ≤ y.meta_.start ∧
        Below res.meta_.end_ y.meta_.start := by
  -- the walk stops at the first start past the end, so it keeps every start below it
  have hpair := (t.ascendGreaterOrEqual_sorted ((t.find res).getD res).getStartKey).imp
    fun {a b} hab hb => (scan_iff res a).mpr (((scan_iff res b).mp hb).of_le (le_of_lt hab))
  rw [getOverlaps, OrderedSet.takeWhile_eq_filter hpair, List.mem_filter, scan_iff,
    OrderedSet.mem_ascendGreaterOrEqual, and_assoc]

/-- A stored resource is collected by `getOverlaps`, or has the start the
insertion replaces, exactly when it overlaps `res`. -/
theorem getOverlaps_or_start_eq_iff (hw : t.WellFormed) {res y : CachedResource}
    (hs : Below res.meta_.end_ res.meta_.start) (hy : y ∈ t.items) :
    (y ∈ t.getOverlaps res ∨ y.meta_.start = res.meta_.start) ↔ ¬ Disjoint y.range res.range :=
  hw.partition.walk_or_start_eq_iff (fun _ => find_eq_some_iff hw) (fun _ => mem_getOverlaps) hs hy

/-- After `update(res)` the tree holds `res` and exactly the stored resources
disjoint from it. -/
theorem mem_update (hw : t.WellFormed) {res : CachedResource} (hs : Below res.meta_.end_ res.meta_.start)
    {x : CachedResource} :
    x ∈ (t.update res).1.items ↔ x = res ∨ (x ∈ t.items ∧ Disjoint x.range res.range) :=
  Partition.mem_update (fun _ _ => Iff.rfl) (fun _ hy => getOverlaps_or_start_eq_iff hw hs hy)
    fun _ ho => (mem_getOverlaps.mp ho).1

/-- What `update(res)` returns: the stored resources that overlap `res`. -/
theorem mem_update_snd (hw : t.WellFormed) {res : CachedResource}
    (hs : Below res.meta_.end_ res.meta_.start) {x : CachedResource} (hx : x ∈ (t.update res).2) :
    x ∈ t.items ∧ ¬ Disjoint x.range res.range := by
  have hov : x ∈ t.getOverlaps res := hx
  have hxt := (mem_getOverlaps.mp hov).1
  exact ⟨hxt, (getOverlaps_or_start_eq_iff hw hs hxt).mp (.inl hov)⟩

/-- A stored resource with the start of `res` is where `getOverlaps` starts. -/
theorem mem_getOverlaps_of_start_eq (hw : t.WellFormed) {res y : CachedResource}
    (hs : Below res.meta_.end_ res.meta_.start) (hy : y ∈ t.items)
    (hstart : y.meta_.start = res.meta_.start) : y ∈ t.getOverlaps res := by
  have hk : Contains y.meta_.start y.meta_.end_ res.meta_.start := by
    rw [← hstart]
    exact contains_start_iff.mpr (hw.nonempty y hy)
  rw [mem_getOverlaps, (find_eq_some_iff hw).mpr ⟨hy, hk⟩, Option.getD_some, hstart]
  exact ⟨hy, le_rfl, hs⟩

/-- On a well-formed tree, `getOverlaps` collects exactly the stored resources
that overlap `res`. -/
theorem mem_getOverlaps_iff (hw : t.WellFormed) {res y : CachedResource}
    (hs : Below res.meta_.end_ res.meta_.start) (hy : y ∈ t.items) :
    y ∈ t.getOverlaps res ↔ ¬ Disjoint y.range res.range := by
  rw [← getOverlaps_or_start_eq_iff hw hs hy]
  exact ⟨.inl, fun h => h.elim id (mem_getOverlaps_of_start_eq hw hs hy)⟩

/-- A tree of some of the resources of a well-formed tree is well formed. -/
theorem WellFormed.mono (hw : t.WellFormed) {t' : ResourceTree} (hsub : ∀ x ∈ t'.items, x ∈ t.items) :
    t'.WellFormed where
  nonempty x hx := hw.nonempty x (hsub x hx)
  disjoint a ha b hb hne := hw.disjoint a (hsub a ha) b (hsub b hb) hne

/-- `getOverlaps` on a tree of fewer resources collects fewer. -/
theorem mem_getOverlaps_of_subset (hw : t.WellFormed) {t' : ResourceTree}
    (hsub : ∀ x ∈ t'.items, x ∈ t.items) {res x : CachedResource}
    (hs : Below res.meta_.end_ res.meta_.start) (hx : x ∈ t'.getOverlaps res) :
    x ∈ t.getOverlaps res := by
  have hx' : x ∈ t'.items := (mem_getOverlaps.mp hx).1
  exact (mem_getOverlaps_iff hw hs (hsub x hx')).mpr ((mem_getOverlaps_iff (hw.mono hsub) hs hx').mp hx)

theorem WellFormed.update (hw : t.WellFormed) {res : CachedResource}
    (hs : Below res.meta_.end_ res.meta_.start) : (t.update res).1.WellFormed :=
  have hp : Partition (fun r : CachedResource => r.meta_.start) (fun r => r.meta_.end_)
      (t.update res).1.items :=
    hw.partition.update (fun _ _ => Iff.rfl) (fun _ hy => getOverlaps_or_start_eq_iff hw hs hy)
      (fun _ ho => (mem_getOverlaps.mp ho).1) hs
  ⟨hp.nonempty, hp.disjoint⟩

/-- Replacing a stored resource by one with the same range keeps the tree well formed. -/
theorem WellFormed.replaceOrInsert (hw : t.WellFormed) {old res : CachedResource}
    (hold : old ∈ t.items) (hrange : res.range = old.range) :
    WellFormed (t.replaceOrInsert res) where
  nonempty x hx := by
    rcases OrderedSet.mem_replaceOrInsert.mp hx with rfl | ⟨hx, -⟩
    · have := hw.nonempty old hold
      simp only [Prod.mk.injEq] at hrange
      rwa [hrange.1, hrange.2]
    · exact hw.nonempty x hx
  disjoint a ha b hb hne := by
    -- the new item stands where `old` stood, and `old` was the only item with its start
    have hdrop : ∀ y ∈ t.items, y.meta_.start ≠ res.meta_.start → y ≠ old := by
      rintro y - hy rfl
      exact hy (congrArg Prod.fst hrange).symm
    rcases OrderedSet.mem_replaceOrInsert.mp ha with hares | ⟨ha', hka⟩ <;>
      rcases OrderedSet.mem_replaceOrInsert.mp hb with hbres | ⟨hb', hkb⟩
    · exact absurd (hares.trans hbres.symm) hne
    · rw [hares, hrange]; exact hw.disjoint old hold b hb' (hdrop b hb' hkb).symm
    · rw [hbres, hrange]; exact hw.disjoint a ha' old hold (hdrop a ha' hka)
    · exact hw.disjoint a ha' b hb' hne

/-! ## Remove -/

/-- `remove(res)` deletes the stored resource holding the start of `res` when
it has the same ID, and nothing else. -/
theorem mem_remove (hw : t.WellFormed) {res x : CachedResource} :
    x ∈ (t.remove res).1.items ↔
      x ∈ t.items ∧ ¬ (Contains x.meta_.start x.meta_.end_ res.meta_.start ∧ x.meta_.id = res.meta_.id) := by
  unfold remove
  split_ifs with hlen
  · -- an empty tree has nothing to remove
    have hnil : t.items = [] := List.length_eq_zero_iff.mp hlen
    simp [hnil]
  cases hf : t.find res with
  | none =>
    have hnone := (find_eq_none_iff hw).mp hf
    exact ⟨fun hx => ⟨hx, fun h => hnone x hx h.1⟩, And.left⟩
  | some r =>
    obtain ⟨hr, hk⟩ := (find_eq_some_iff hw).mp hf
    dsimp only
    split_ifs with hid
    · -- a different ID: the tree stays, and the holder of the start is `r`
      refine ⟨fun hx => ⟨hx, fun h => hid ?_⟩, And.left⟩
      rw [← hw.eq_of_contains hx hr h.1 hk, h.2]
    · -- the holder has the ID of `res`, so holding the start is the whole condition
      rw [not_not] at hid
      rw [hw.partition.mem_delete_holder hr hk]
      refine and_congr_right fun hx => not_congr ⟨fun h => ⟨h, ?_⟩, And.left⟩
      rw [hw.eq_of_contains hx hr h hk, hid]

/-- `remove` only deletes. -/
theorem mem_of_mem_remove {res x : CachedResource} (hx : x ∈ (t.remove res).1.items) : x ∈ t.items := by
  unfold remove at hx
  split_ifs at hx
  · exact hx
  split at hx
  · exact hx
  split_ifs at hx
  · exact hx
  · exact (OrderedSet.mem_delete.mp hx).1

theorem WellFormed.remove (hw : t.WellFormed) (res : CachedResource) : (t.remove res).1.WellFormed where
  nonempty x hx := hw.nonempty x ((mem_remove hw).mp hx).1
  disjoint a ha b hb hne := hw.disjoint a ((mem_remove hw).mp ha).1 b ((mem_remove hw).mp hb).1 hne

/-! ## Search and random resources -/

theorem search_eq_some_iff (hw : t.WellFormed) {key : Bytes} {r : CachedResource} :
    t.search key = some r ↔ r ∈ t.items ∧ Contains r.meta_.start r.meta_.end_ key :=
  find_eq_some_iff hw

theorem search_eq_none_iff (hw : t.WellFormed) {key : Bytes} :
    t.search key = none ↔ ∀ r ∈ t.items, ¬ Contains r.meta_.start r.meta_.end_ key :=
  find_eq_none_iff hw

@[simp] theorem isInvolved_eq_true {res : CachedResource} {startKey endKey : Bytes} :
    isInvolved res startKey endKey = true ↔
      startKey ≤ res.meta_.start ∧ (endKey = [] ∨ (res.meta_.end_ ≠ [] ∧ res.meta_.end_ ≤ endKey)) := by
  simp [isInvolved, List.length_pos_iff]

/-- The window `RandomResource` draws from, as the two ranks it is built from. -/
theorem rankWindow_eq_some {startKey endKey : Bytes} {s e : Nat} (h : t.rankWindow startKey endKey = some (s, e)) :
    s ≤ (t.getWithIndex startKey).2 ∧ e = if endKey.length ≠ 0 then (t.getWithIndex endKey).2 else t.len := by
  unfold rankWindow at h
  cases hget : t.getWithIndex startKey with
  | mk startResource startIndex =>
    simp only [hget] at h ⊢
    generalize (if endKey.length ≠ 0 then (t.getWithIndex endKey).2 else t.len) = endIndex at h ⊢
    split_ifs at h
    · obtain ⟨prev, -, hprev⟩ := Option.map_eq_some_iff.mp h
      obtain ⟨rfl, rfl⟩ := Prod.mk.inj hprev
      exact ⟨by split_ifs <;> omega, rfl⟩
    · obtain ⟨rfl, rfl⟩ := Prod.mk.inj (Option.some.inj h)
      exact ⟨le_rfl, rfl⟩

/-- The window never panics and ends within the tree: the item before the rank
of the start key exists, since that rank is at most the length. -/
theorem rankWindow_isSome (t : ResourceTree) (startKey endKey : Bytes) :
    ∃ s e, t.rankWindow startKey endKey = some (s, e) ∧ e ≤ t.len := by
  have hle := t.getWithIndex_snd_le_len startKey
  obtain ⟨w, hw⟩ : ∃ w, t.rankWindow startKey endKey = some w := by
    unfold rankWindow
    cases hget : t.getWithIndex startKey with
    | mk startResource startIndex =>
      rw [hget] at hle
      simp only
      generalize (if endKey.length ≠ 0 then (t.getWithIndex endKey).2 else t.len) = endIndex
      split_ifs with hprev
      · have hlt : startIndex - 1 < t.len := by
          simp only [Bool.and_eq_true, bne_iff_ne] at hprev
          dsimp only at hle
          omega
        obtain ⟨prev, hp⟩ := Option.isSome_iff_exists.mp (OrderedSet.getAt_isSome_iff.mpr hlt)
        exact ⟨_, by rw [hp, Option.map_some]⟩
      · exact ⟨_, rfl⟩
  obtain ⟨s, e⟩ := w
  refine ⟨s, e, hw, ?_⟩
  rw [(rankWindow_eq_some hw).2]
  split_ifs
  · exact t.getWithIndex_snd_le_len endKey
  · exact le_rfl

/-- Every stored resource inside `[startKey, endKey)` has its rank in the
window, so the draw can reach it. -/
theorem rankWindow_covers (hw : t.WellFormed) {startKey endKey : Bytes} {s e : Nat}
    (h : t.rankWindow startKey endKey = some (s, e)) {res : CachedResource} (hres : res ∈ t.items)
    (hinv : isInvolved res startKey endKey = true) :
    s ≤ (t.getWithIndex res.getStartKey).2 ∧ (t.getWithIndex res.getStartKey).2 < e := by
  obtain ⟨hstart, hend⟩ := isInvolved_eq_true.mp hinv
  obtain ⟨hs, rfl⟩ := rankWindow_eq_some h
  refine ⟨le_trans hs (t.getWithIndex_snd_mono hstart), ?_⟩
  split_ifs with hek
  · -- a bounded range: the resource starts below its own end, so below `endKey`
    have hne : endKey ≠ [] := fun h => hek (by simp [h])
    obtain ⟨hresEnd, hle⟩ := hend.resolve_left hne
    have hlt : res.meta_.start < res.meta_.end_ := (hw.nonempty res hres).resolve_left hresEnd
    exact OrderedSet.getWithIndex_snd_lt hres (lt_of_lt_of_le hlt hle)
  · exact OrderedSet.getAt_isSome_iff.mp (by rw [OrderedSet.getAt_getWithIndex hres]; rfl)

/-- The loop of `RandomResource` does not panic when the drawn order indexes
the ranges and every draw is below its bound, and what it returns is a stored
resource inside the range it was drawn for. -/
theorem randomResourceLoop_spec {ranges : List (Bytes × Bytes)} {intn : Nat → Nat → Nat}
    (hintn : ∀ j n, 0 < n → intn j n < n) :
    ∀ {perm : List Nat}, (∀ i ∈ perm, i < ranges.length) → ∀ j,
      ∃ out, t.randomResourceLoop ranges intn j perm = some out ∧
        ∀ r, out = some r → r ∈ t.items ∧ ∃ rg ∈ ranges, isInvolved r rg.1 rg.2 = true
  | [], _, _ => ⟨none, rfl, fun _ h => nomatch h⟩
  | i :: perm, hperm, j => by
    have ih := randomResourceLoop_spec hintn
      (fun i' hi' => hperm i' (List.mem_cons_of_mem _ hi') : ∀ i' ∈ perm, i' < ranges.length)
    obtain ⟨rg, hrg⟩ : ∃ rg, ranges[i]? = some rg :=
      Option.isSome_iff_exists.mp (by simp [hperm i List.mem_cons_self])
    obtain ⟨s, e, hwin, he⟩ := t.rankWindow_isSome rg.1 rg.2
    simp only [randomResourceLoop, hrg, Option.bind_eq_bind, Option.bind_some, hwin]
    split_ifs with hempty
    · exact ih (j + 1)
    -- the draw lands in the window, below the length
    have hidx : intn j (e - s) + s < t.len := by
      have := hintn j (e - s) (by omega)
      omega
    obtain ⟨res, hres⟩ := Option.isSome_iff_exists.mp (OrderedSet.getAt_isSome_iff.mpr hidx)
    simp only [hres, Option.bind_some]
    split_ifs with hinv
    · refine ⟨some res, rfl, fun r hr => ?_⟩
      cases hr
      exact ⟨OrderedSet.mem_of_getAt hres, rg, List.mem_of_getElem? hrg, hinv⟩
    · exact ih (j + 1)

/-- The loop returns any stored resource inside the first range it tries, for
the draw that lands on its rank. -/
theorem randomResourceLoop_reaches (hw : t.WellFormed) {ranges : List (Bytes × Bytes)} {i : Nat}
    {rg : Bytes × Bytes} (hrg : ranges[i]? = some rg) {res : CachedResource} (hres : res ∈ t.items)
    (hinv : isInvolved res rg.1 rg.2 = true) (j : Nat) (perm : List Nat) :
    ∃ intn : Nat → Nat → Nat, t.randomResourceLoop ranges intn j (i :: perm) = some (some res) := by
  obtain ⟨s, e, hwin, -⟩ := t.rankWindow_isSome rg.1 rg.2
  obtain ⟨hs, he⟩ := rankWindow_covers hw hwin hres hinv
  refine ⟨fun _ _ => (t.getWithIndex res.getStartKey).2 - s, ?_⟩
  have hdraw : (t.getWithIndex res.getStartKey).2 - s + s = (t.getWithIndex res.getStartKey).2 := by omega
  simp only [randomResourceLoop, hrg, Option.bind_eq_bind, Option.bind_some, hwin, hdraw,
    OrderedSet.getAt_getWithIndex hres, hinv, if_true]
  rw [if_neg (by omega)]
  rfl

/-- `RandomResource` does not panic when every index of the drawn order is
below the number of ranges it draws from and every draw is below its bound;
what it returns is a stored resource inside one of `ranges`, or any stored
resource when no range is given. -/
theorem randomResource_spec {ranges : List (Bytes × Bytes)} {perm : List Nat} {intn : Nat → Nat → Nat}
    (hperm : ∀ i ∈ perm, i < max 1 ranges.length) (hintn : ∀ j n, 0 < n → intn j n < n) :
    ∃ out, t.randomResource ranges perm intn = some out ∧
      ∀ r, out = some r → r ∈ t.items ∧ (ranges = [] ∨ ∃ rg ∈ ranges, isInvolved r rg.1 rg.2 = true) := by
  unfold randomResource
  split_ifs with hlen hnil
  · exact ⟨none, rfl, fun _ h => nomatch h⟩
  · -- no range given: the loop draws from the whole key space
    have hnil' : ranges = [] := List.length_eq_zero_iff.mp hnil
    have hperm' : ∀ i ∈ perm, i < [(([] : Bytes), ([] : Bytes))].length := fun i hi => by
      have := hperm i hi
      simp only [hnil', List.length_nil, List.length_singleton] at this ⊢
      omega
    obtain ⟨out, hout, hspec⟩ := randomResourceLoop_spec hintn hperm' 0
    exact ⟨out, hout, fun r hr => ⟨(hspec r hr).1, .inl hnil'⟩⟩
  · have hperm' : ∀ i ∈ perm, i < ranges.length := fun i hi => by
      have := hperm i hi
      omega
    obtain ⟨out, hout, hspec⟩ := randomResourceLoop_spec hintn hperm' 0
    exact ⟨out, hout, fun r hr => ⟨(hspec r hr).1, .inr (hspec r hr).2⟩⟩

theorem resourceTree_range_queries (hw : t.WellFormed) :
    (∀ key r, t.search key = some r ↔ r ∈ t.items ∧ Contains r.meta_.start r.meta_.end_ key) ∧
    (∀ key, t.search key = none ↔ ∀ r ∈ t.items, ¬ Contains r.meta_.start r.meta_.end_ key) ∧
    (∀ res : CachedResource, Below res.meta_.end_ res.meta_.start → ∀ y,
      y ∈ t.getOverlaps res ↔ y ∈ t.items ∧ ¬ Disjoint y.range res.range) ∧
    (∀ res : CachedResource, Below res.meta_.end_ res.meta_.start →
      (t.update res).2 = t.getOverlaps res ∧
        ∀ x, x ∈ (t.update res).1.items ↔ x = res ∨ (x ∈ t.items ∧ Disjoint x.range res.range)) ∧
    (∀ (ranges : List (Bytes × Bytes)) (perm : List Nat) (intn : Nat → Nat → Nat),
      (∀ i ∈ perm, i < max 1 ranges.length) → (∀ j n, 0 < n → intn j n < n) →
      ∃ out, t.randomResource ranges perm intn = some out ∧
        ∀ r, out = some r → r ∈ t.items ∧ (ranges = [] ∨ ∃ rg ∈ ranges, isInvolved r rg.1 rg.2 = true)) := by
  refine ⟨fun _ _ => search_eq_some_iff hw, fun _ => search_eq_none_iff hw, ?_, ?_,
    fun _ _ _ hperm hintn => randomResource_spec hperm hintn⟩
  · intro res hs y
    constructor
    · intro hy
      have hyt := (mem_getOverlaps.mp hy).1
      exact ⟨hyt, (mem_getOverlaps_iff hw hs hyt).mp hy⟩
    · rintro ⟨hyt, hd⟩
      exact (mem_getOverlaps_iff hw hs hyt).mpr hd
  · -- what `update` returns is what `getOverlaps` collects
    exact fun res hs => ⟨rfl, fun x => mem_update hw hs⟩

theorem resourceTree_range_queries_cover :
    ∃ t : ResourceTree, t.length = 2 ∧ t.WellFormed ∧
    (∀ key r, t.search key = some r ↔ r ∈ t.items ∧ Contains r.meta_.start r.meta_.end_ key) ∧
    (∀ key, t.search key = none ↔ ∀ r ∈ t.items, ¬ Contains r.meta_.start r.meta_.end_ key) ∧
    (∀ res : CachedResource, Below res.meta_.end_ res.meta_.start → ∀ y,
      y ∈ t.getOverlaps res ↔ y ∈ t.items ∧ ¬ Disjoint y.range res.range) ∧
    (∀ res : CachedResource, Below res.meta_.end_ res.meta_.start →
      (t.update res).2 = t.getOverlaps res ∧
        ∀ x, x ∈ (t.update res).1.items ↔ x = res ∨ (x ∈ t.items ∧ Disjoint x.range res.range)) ∧
    (∀ (ranges : List (Bytes × Bytes)) (perm : List Nat) (intn : Nat → Nat → Nat),
      (∀ i ∈ perm, i < max 1 ranges.length) → (∀ j n, 0 < n → intn j n < n) →
      ∃ out, t.randomResource ranges perm intn = some out ∧
        ∀ r, out = some r → r ∈ t.items ∧ (ranges = [] ∨ ∃ rg ∈ ranges, isInvolved r rg.1 rg.2 = true)) := by
  -- two resources covering the key space, split at `[2]`
  let a : CachedResource := { meta_ := { id := 1, end_ := [2] } }
  let b : CachedResource := { meta_ := { id := 2, start := [2] } }
  let t : ResourceTree := ⟨[a, b], by decide⟩
  have hw : t.WellFormed := by
    constructor
    · intro r hr
      simp only [t, List.mem_cons, List.not_mem_nil, or_false] at hr
      rcases hr with rfl | rfl <;> decide
    · intro x hx y hy hne
      simp only [t, List.mem_cons, List.not_mem_nil, or_false] at hx hy
      have hab : Disjoint a.range b.range := disjoint_of_le (by decide) le_rfl
      rcases hx with rfl | rfl <;> rcases hy with rfl | rfl
      · exact absurd rfl hne
      · exact hab
      · exact hab.symm
      · exact absurd rfl hne
  exact ⟨t, rfl, hw, resourceTree_range_queries hw⟩

/-- Where a stored range or the range of the argument is empty the queries
differ from the ranges they stand for, and with no range `RandomResource`
returns a resource of no given range: `search` misses a key of a stored range
when an empty range starts there; `getOverlaps` of an inverted range returns a
resource it shares no key with; `update` with an empty range at the start of a
stored resource replaces it without reporting it. -/
theorem resourceTree_range_queries_degenerate :
    let y : CachedResource := { meta_ := { id := 1, start := [1], end_ := [4] } }
    let z : CachedResource := { meta_ := { id := 2, start := [2], end_ := [2] } }
    let t : ResourceTree := (empty.replaceOrInsert y).replaceOrInsert z
    let ty : ResourceTree := empty.replaceOrInsert y
    let inverted : CachedResource := { meta_ := { id := 3, start := [3], end_ := [2] } }
    let atStart : CachedResource := { meta_ := { id := 3, start := [1], end_ := [1] } }
    (Disjoint y.range z.range ∧ Contains y.meta_.start y.meta_.end_ [2] ∧ t.search [2] = none) ∧
    (Disjoint y.range inverted.range ∧ ty.getOverlaps inverted = [y]) ∧
    (y ∈ ty.items ∧ (ty.update atStart).2 = [] ∧ y ∉ (ty.update atStart).1.items) ∧
    ty.randomResource [] [0] (fun _ _ => 0) = some (some y) := by
  intro y z t ty inverted atStart
  -- an empty range `[s, e)` with `e ≤ s` holds no key
  have hempty : ∀ r : Bytes × Bytes, r.2 ≠ [] → r.2 ≤ r.1 → ∀ r', Disjoint r' r := by
    rintro r hne hle r' k ⟨-, hk, hb⟩
    rcases hb with h | h
    · exact hne h
    · exact absurd (lt_of_le_of_lt hk h) (not_lt.mpr hle)
  refine ⟨⟨hempty z.range (by decide) le_rfl y.range, by decide, by decide⟩,
    ⟨hempty inverted.range (by decide) (by decide) y.range, by decide⟩, ⟨by decide, by decide, by decide⟩,
    by decide⟩

end ResourceTree

end MatrixCube.Prophet
