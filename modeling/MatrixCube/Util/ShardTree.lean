import MatrixCube.Pb
import MatrixCube.Lib.RangeIndex

/-! # The shard tree

`ShardTree` (`util/btree_shard.go`) indexes shards by range in a google/btree
whose `Less` puts a greater start first: the tree is ordered by start key in
reverse. `AscendGreaterOrEqual(pivot)` therefore visits the shards starting at
or below the pivot's start, from the greatest start down, and
`DescendLessOrEqual(pivot)` the shards starting at or above it, from the least
start up. `find` takes the first shard of the former walk, the one with the
greatest start not above the key, and keeps it if it holds the key.
-/

namespace MatrixCube.Util

open KeyRange

/-- The key `ShardItem.Less` orders by: the start, reversed. -/
def shardKey (s : Shard) : OrderDual Bytes := OrderDual.toDual s.start

/-- `ShardTree`: the btree as an ordered set of shards under `shardKey`. -/
abbrev ShardTree := OrderedSet shardKey

namespace ShardTree

/-- `NewShardTree`. -/
def empty : ShardTree := OrderedSet.empty shardKey

/-- `ShardItem.Contains`. -/
def contains (s : Shard) (key : Bytes) : Bool := decide (Contains s.start s.end_ key)

/-- `ShardTree.find`: the shard with the greatest start not above the start of
`shard`, if it holds that start. -/
def find (t : ShardTree) (shard : Shard) : Option Shard :=
  match (t.ascendGreaterOrEqual (shardKey shard)).head? with
  | none => none
  | some result => if contains result shard.start then some result else none

/-- The shards the scan of `ShardTree.Update` collects: from `result` up in
start order, while they start below the end of `shard`. -/
def overlaps (t : ShardTree) (shard result : Shard) : List Shard :=
  (t.descendLessOrEqual (shardKey result)).takeWhile
    fun item => !(shard.end_.length > 0 && decide (shard.end_ ≤ item.start))

/-- `ShardTree.Update`: delete the shards that overlap, then insert. -/
def update (t : ShardTree) (shard : Shard) : ShardTree :=
  let result := (t.find shard).getD shard
  let t := (t.overlaps shard result).foldl (fun t item => t.delete (shardKey item)) t
  t.replaceOrInsert shard

/-- `ShardTree.Remove`: delete the shard holding the start of `shard` if it
has the same ID. -/
def remove (t : ShardTree) (shard : Shard) : ShardTree × Bool :=
  match t.find shard with
  | none => (t, false)
  | some result => if result.id ≠ shard.id then (t, false) else (t.delete (shardKey result), true)

/-- `ShardTree.Search`; `emptyShard` when no shard holds the key. -/
def search (t : ShardTree) (key : Bytes) : Shard :=
  (t.find { start := key }).getD {}

/-! ## Finding the shard that holds a key -/

/-- The representation invariant: every stored range is non-empty, and two
stored shards share no key. -/
structure WellFormed (t : ShardTree) : Prop where
  nonempty : ∀ s ∈ t.items, Below s.end_ s.start
  disjoint : ∀ a ∈ t.items, ∀ b ∈ t.items, a ≠ b → Disjoint a.range b.range

@[simp] theorem shardKey_le_shardKey {a b : Shard} : shardKey a ≤ shardKey b ↔ b.start ≤ a.start :=
  OrderDual.toDual_le_toDual

theorem shardKey_eq_shardKey {a b : Shard} : shardKey a = shardKey b ↔ a.start = b.start :=
  OrderDual.toDual_inj

@[simp] theorem contains_eq_true {s : Shard} {key : Bytes} :
    contains s key = true ↔ Contains s.start s.end_ key := by
  simp [contains]

variable {t : ShardTree}

/-- A well-formed tree is a range index over the start and end of its shards. -/
theorem WellFormed.partition (hw : t.WellFormed) : Partition Shard.start Shard.end_ t.items :=
  ⟨hw.nonempty, hw.disjoint⟩

/-- Two stored shards that hold one key are the same shard. -/
theorem WellFormed.eq_of_contains (hw : t.WellFormed) {a b : Shard} (ha : a ∈ t.items)
    (hb : b ∈ t.items) {k : Bytes} (hka : Contains a.start a.end_ k)
    (hkb : Contains b.start b.end_ k) : a = b :=
  hw.partition.eq_of_contains ha hb hka hkb

/-- `find` returns the stored shard that holds the start of its argument. -/
theorem find_eq_some_iff (hw : t.WellFormed) {shard r : Shard} :
    t.find shard = some r ↔ r ∈ t.items ∧ Contains r.start r.end_ shard.start := by
  unfold find
  constructor
  · intro h
    split at h
    · cases h
    · rename_i result hhead
      obtain ⟨rest, hlist⟩ := List.head?_eq_some_iff.mp hhead
      split_ifs at h with hc
      cases h
      exact ⟨(OrderedSet.ascendGreaterOrEqual_head hlist).1, contains_eq_true.mp hc⟩
  · rintro ⟨hr, hk⟩
    have hvisit : r ∈ t.ascendGreaterOrEqual (shardKey shard) :=
      OrderedSet.mem_ascendGreaterOrEqual.mpr ⟨hr, shardKey_le_shardKey.mpr hk.1⟩
    obtain ⟨x, rest, hlist⟩ := List.exists_cons_of_ne_nil (List.ne_nil_of_mem hvisit)
    obtain ⟨hx, hxk, hleast⟩ := OrderedSet.ascendGreaterOrEqual_head hlist
    -- the first shard visited has the greatest start not above the key
    have hxr : x = r := hw.partition.eq_of_greatest hx (shardKey_le_shardKey.mp hxk)
      (fun y hy hyk => shardKey_le_shardKey.mp (hleast y hy (shardKey_le_shardKey.mpr hyk))) hr hk
    subst hxr
    simp [hlist, hk]

theorem find_eq_none_iff (hw : t.WellFormed) {shard : Shard} :
    t.find shard = none ↔ ∀ r ∈ t.items, ¬ Contains r.start r.end_ shard.start := by
  constructor
  · intro h r hr hk
    rw [(find_eq_some_iff hw).mpr ⟨hr, hk⟩] at h
    cases h
  · intro h
    cases hf : t.find shard with
    | none => rfl
    | some r =>
      obtain ⟨hr, hk⟩ := (find_eq_some_iff hw).mp hf
      exact absurd hk (h r hr)

/-! ## Update -/

/-- The scan condition of `Update`: the end of the shard is above the start
visited. -/
theorem scan_iff (shard item : Shard) :
    (!(shard.end_.length > 0 && decide (shard.end_ ≤ item.start))) = true ↔
      Below shard.end_ item.start := by
  simp [Below, List.length_pos_iff, or_iff_not_imp_left]

theorem mem_overlaps {shard result y : Shard} :
    y ∈ t.overlaps shard result ↔ y ∈ t.items ∧ result.start ≤ y.start ∧ Below shard.end_ y.start := by
  -- the scan stops at the first start past the end, so it keeps every start below it
  have hpair := (t.descendLessOrEqual_sorted (shardKey result)).imp
    fun {a b} hab hb => (scan_iff shard a).mpr (((scan_iff shard b).mp hb).of_le (le_of_lt hab))
  rw [overlaps, OrderedSet.takeWhile_eq_filter hpair, List.mem_filter, scan_iff,
    OrderedSet.mem_descendLessOrEqual, shardKey_le_shardKey, and_assoc]

/-- A stored shard is collected by the scan of `Update`, or has the start the
insertion replaces, exactly when it overlaps the new shard. -/
theorem overlaps_or_start_eq_iff (hw : t.WellFormed) {shard y : Shard}
    (hs : Below shard.end_ shard.start) (hy : y ∈ t.items) :
    (y ∈ t.overlaps shard ((t.find shard).getD shard) ∨ y.start = shard.start) ↔
      ¬ Disjoint y.range shard.range :=
  hw.partition.walk_or_start_eq_iff (fun _ => find_eq_some_iff hw) (fun _ => mem_overlaps) hs hy

/-- After `Update(shard)` the tree holds the new shard and exactly the stored
shards disjoint from it. -/
theorem mem_update (hw : t.WellFormed) {shard : Shard} (hs : Below shard.end_ shard.start)
    {x : Shard} : x ∈ (t.update shard).items ↔ x = shard ∨ (x ∈ t.items ∧ Disjoint x.range shard.range) :=
  Partition.mem_update (fun _ _ => shardKey_eq_shardKey) (fun _ hy => overlaps_or_start_eq_iff hw hs hy)
    fun _ ho => (mem_overlaps.mp ho).1

theorem WellFormed.update (hw : t.WellFormed) {shard : Shard} (hs : Below shard.end_ shard.start) :
    (t.update shard).WellFormed :=
  have hp : Partition Shard.start Shard.end_ (t.update shard).items :=
    hw.partition.update (fun _ _ => shardKey_eq_shardKey)
      (fun _ hy => overlaps_or_start_eq_iff hw hs hy) (fun _ ho => (mem_overlaps.mp ho).1) hs
  ⟨hp.nonempty, hp.disjoint⟩

/-! ## Remove and Search -/

/-- `Remove(shard)` deletes the stored shard holding the start of `shard` when
it has the same ID, and nothing else. -/
theorem mem_remove (hw : t.WellFormed) {shard x : Shard} :
    x ∈ (t.remove shard).1.items ↔
      x ∈ t.items ∧ ¬ (Contains x.start x.end_ shard.start ∧ x.id = shard.id) := by
  unfold remove
  cases hf : t.find shard with
  | none =>
    have hnone := (find_eq_none_iff hw).mp hf
    exact ⟨fun hx => ⟨hx, fun h => hnone x hx h.1⟩, And.left⟩
  | some r =>
    obtain ⟨hr, hk⟩ := (find_eq_some_iff hw).mp hf
    dsimp only
    split_ifs with hid
    · -- a different ID: the tree stays, and the holder of the start is `r`
      refine ⟨fun hx => ⟨hx, fun h => hid ?_⟩, And.left⟩
      rw [← hw.eq_of_contains hx hr h.1 hk, h.2]
    · -- the holder has the ID of `shard`, so holding the start is the whole condition
      rw [not_not] at hid
      rw [hw.partition.mem_delete_holder hr hk]
      refine and_congr_right fun hx => not_congr ⟨fun h => ⟨h, ?_⟩, And.left⟩
      rw [hw.eq_of_contains hx hr h hk, hid]

theorem WellFormed.remove (hw : t.WellFormed) (shard : Shard) : (t.remove shard).1.WellFormed where
  nonempty x hx := hw.nonempty x ((mem_remove hw).mp hx).1
  disjoint a ha b hb hne := hw.disjoint a ((mem_remove hw).mp ha).1 b ((mem_remove hw).mp hb).1 hne

theorem search_eq_of_contains (hw : t.WellFormed) {key : Bytes} {r : Shard} (hr : r ∈ t.items)
    (hk : Contains r.start r.end_ key) : t.search key = r := by
  rw [search, (find_eq_some_iff hw).mpr ⟨hr, hk⟩, Option.getD_some]

theorem search_eq_empty (hw : t.WellFormed) {key : Bytes}
    (h : ∀ r ∈ t.items, ¬ Contains r.start r.end_ key) : t.search key = {} := by
  rw [search, (find_eq_none_iff hw).mpr h, Option.getD_none]

/-! ## Runs of updates and removals -/

/-- The trees reached from `NewShardTree` by `Update` with non-empty ranges and
`Remove`. -/
inductive Reachable : ShardTree → Prop where
  | empty : Reachable empty
  | update {t : ShardTree} {shard : Shard} :
      Reachable t → Below shard.end_ shard.start → Reachable (t.update shard)
  | remove {t : ShardTree} (shard : Shard) : Reachable t → Reachable (t.remove shard).1

theorem Reachable.wellFormed (h : Reachable t) : t.WellFormed := by
  induction h with
  | empty => exact ⟨fun s hs => absurd hs OrderedSet.mem_empty, fun a ha => absurd ha OrderedSet.mem_empty⟩
  | update _ hs hw => exact hw.update hs
  | remove shard _ hw => exact hw.remove shard

/-- What the shard tree guarantees: its ranges are non-empty and disjoint,
`Update` replaces the overlapping shards by the new one, `Remove` deletes the
holder of the start with the same ID, and `Search` finds the holder of a key. -/
structure Spec (t : ShardTree) : Prop where
  wellFormed : t.WellFormed
  mem_update : ∀ shard, Below shard.end_ shard.start → ∀ x,
    x ∈ (t.update shard).items ↔ x = shard ∨ (x ∈ t.items ∧ Disjoint x.range shard.range)
  mem_remove : ∀ shard x, x ∈ (t.remove shard).1.items ↔
    x ∈ t.items ∧ ¬ (Contains x.start x.end_ shard.start ∧ x.id = shard.id)
  search_found : ∀ key, ∀ r ∈ t.items, Contains r.start r.end_ key → t.search key = r
  search_missing : ∀ key, (∀ r ∈ t.items, ¬ Contains r.start r.end_ key) → t.search key = {}

theorem reachable_spec (h : Reachable t) : Spec t :=
  have hw := h.wellFormed
  ⟨hw, fun _ hs _ => mem_update hw hs, fun _ _ => mem_remove hw,
    fun _ _ hr hk => search_eq_of_contains hw hr hk, fun _ hnone => search_eq_empty hw hnone⟩

/-- Two adjacent shards inserted into a new tree. -/
theorem reachable_spec_two_shards :
    let t := (empty.update { id := 1, start := [], end_ := [5] }).update { id := 2, start := [5] }
    Reachable t ∧ Spec t := by
  intro t
  have h : Reachable t :=
    Reachable.update (Reachable.update Reachable.empty (.inr (by decide))) (.inl rfl)
  exact ⟨h, reachable_spec h⟩

end ShardTree

end MatrixCube.Util
