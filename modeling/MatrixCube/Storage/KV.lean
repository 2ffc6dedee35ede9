import MatrixCube.Lib.ByteOrder
import MatrixCube.Lib.OrderedSet

/-! # Key-value stores

Both data storages keep a sorted map from keys to values: the mem storage a
`KVTree` (`util/kv_btree.go`), a google/btree of `treeItem`s ordered by key,
and the pebble storage a pebble database, whose iterators visit the live keys
in order. Both are modelled as the ordered set of their `(key, value)` pairs.
`KVTree`'s operations are modelled from its code; pebble's `Set`, `DeleteRange`
and bounded iterators by their documented behaviour on the sorted map.
-/

namespace MatrixCube.Storage

open ByteOrder

/-- A sorted map of byte keys to byte values. -/
abbrev KVStore := OrderedSet (fun kv : Bytes × Bytes => kv.1)

namespace KVStore

/-- The empty store. -/
def empty : KVStore := OrderedSet.empty _

/-- The pairs whose key lies in `[start, end_)`, in key order. -/
def range (s : KVStore) (start end_ : Bytes) : List (Bytes × Bytes) :=
  s.items.filter fun kv => decide (start ≤ kv.1 ∧ kv.1 < end_)

/-- The value stored under `key`. -/
def get (s : KVStore) (key : Bytes) : Option Bytes :=
  (OrderedSet.get s key).map (·.2)

/-! ## KVTree -/

/-- `KVTree.Put`. -/
def put (s : KVStore) (key value : Bytes) : KVStore :=
  s.replaceOrInsert (key, value)

/-- `KVTree.Scan`: from `start` up while the key is below `end_`. -/
def scan (s : KVStore) (start end_ : Bytes) : List (Bytes × Bytes) :=
  (s.ascendGreaterOrEqual start).takeWhile fun kv => decide (kv.1 < end_)

/-- `KVTree.RangeDelete`: collect the items of `[start, end_)` by the same walk
as `Scan`, then delete them one by one. -/
def rangeDelete (s : KVStore) (start end_ : Bytes) : KVStore :=
  (s.scan start end_).foldl (fun s kv => s.delete kv.1) s

/-! ## Pebble -/

/-- `DB.Set`. -/
def set (s : KVStore) (key value : Bytes) : KVStore :=
  s.replaceOrInsert (key, value)

/-- `DB.DeleteRange`: drop every key of `[start, end_)`. -/
def deleteRange (s : KVStore) (start end_ : Bytes) : KVStore :=
  ⟨s.items.filter (fun kv => !decide (start ≤ kv.1 ∧ kv.1 < end_)), s.sorted.filter _⟩

/-- An iterator with `LowerBound` and `UpperBound`, from `First` to the end. -/
def iter (s : KVStore) (lower upper : Bytes) : List (Bytes × Bytes) :=
  s.range lower upper

/-! ## Lemmas -/

/-- The walk of `Scan` visits exactly the pairs of the range. -/
theorem scan_eq_range (s : KVStore) (start end_ : Bytes) : s.scan start end_ = s.range start end_ := by
  have hpair := (s.sorted.filter (fun kv => decide (start ≤ kv.1))).imp
    fun {a b : Bytes × Bytes} (hab : a.1 < b.1) (hb : decide (b.1 < end_) = true) =>
      decide_eq_true (lt_trans hab (of_decide_eq_true hb))
  rw [scan, OrderedSet.ascendGreaterOrEqual, OrderedSet.takeWhile_eq_filter hpair, List.filter_filter, range]
  congr 1
  funext kv
  rw [Bool.and_comm, Bool.decide_and]

@[simp] theorem mem_range {s : KVStore} {start end_ : Bytes} {kv : Bytes × Bytes} :
    kv ∈ s.range start end_ ↔ kv ∈ s.items ∧ start ≤ kv.1 ∧ kv.1 < end_ := by
  simp [range]

theorem range_sorted (s : KVStore) (start end_ : Bytes) :
    (s.range start end_).Pairwise (fun a b => a.1 < b.1) :=
  s.sorted.filter _

/-- A scan resumed at the successor of the last key of a page of a range
returns the rest of the range. -/
theorem range_succ_last (s : KVStore) (start end_ : Bytes) (n : Nat) {last : Bytes × Bytes}
    (hlast : ((s.range start end_).take n).getLast? = some last) :
    s.range (last.1 ++ [0]) end_ = (s.range start end_).drop n := by
  have hmem : last ∈ s.range start end_ := List.mem_of_mem_take (List.mem_of_getLast? hlast)
  have hstart : start ≤ last.1 := (mem_range.mp hmem).2.1
  -- from the successor of `last` on is above `last`, within the range
  have habove : s.range (last.1 ++ [0]) end_ =
      (s.range start end_).filter fun kv => decide (last.1 < kv.1) := by
    simp only [range, List.filter_filter]
    congr 1
    funext kv
    simp only [← ByteOrder.lt_iff_append_zero_le]
    by_cases h : last.1 < kv.1
    · simp [h, le_of_lt (lt_of_le_of_lt hstart h)]
    · simp [h]
  have hs := range_sorted s start end_
  rw [← List.take_append_drop n (s.range start end_)] at hs
  rw [habove]
  conv_lhs => rw [← List.take_append_drop n (s.range start end_)]
  exact OrderedSet.filter_lt_getLast hs hlast

@[simp] theorem mem_rangeDelete {s : KVStore} {start end_ : Bytes} {kv : Bytes × Bytes} :
    kv ∈ (s.rangeDelete start end_).items ↔ kv ∈ s.items ∧ ¬ (start ≤ kv.1 ∧ kv.1 < end_) := by
  rw [rangeDelete, OrderedSet.mem_foldl_delete, scan_eq_range]
  refine and_congr_right fun hkv => ⟨fun h hr => h kv (mem_range.mpr ⟨hkv, hr⟩) rfl, ?_⟩
  intro h x hx hkey
  exact h (hkey ▸ (mem_range.mp hx).2)

@[simp] theorem mem_deleteRange {s : KVStore} {start end_ : Bytes} {kv : Bytes × Bytes} :
    kv ∈ (s.deleteRange start end_).items ↔ kv ∈ s.items ∧ ¬ (start ≤ kv.1 ∧ kv.1 < end_) := by
  simp only [deleteRange, List.mem_filter, Bool.not_eq_eq_eq_not, Bool.not_true,
    decide_eq_false_iff_not]

end KVStore

end MatrixCube.Storage
