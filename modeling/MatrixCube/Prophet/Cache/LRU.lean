import Mathlib.Data.List.Nodup

/-! # The LRU list of `util/cache`

`LRU` keeps its items in a `container/list`, most recently used at the front,
and a map `cache` from each key to its element. The map is an index of the
list, so the model keeps the list alone and reads `cache[key]` as the first
item with that key. Every operation leaves the list without a repeated key
(`Moved.nodup`, `nodup_of_sublist`), and so that first item is the only one.

Each operation either drops items (`remove`, `removeOldest`,
`getAndRemoveOldest`: the new list is a sublist) or moves one key to the front
(`put`, `get`: the new list is a sublist of that item before the old list
without the key). The lemmas about keys, lengths and values are proved once for
each of the two shapes.
-/

namespace MatrixCube.Prophet.Cache

/-- `Item`: a cache entry. -/
structure Item (α : Type) where
  key : UInt64
  value : α
deriving DecidableEq, Repr

/-- `LRU`: at most `maxCount` items (`0` for no limit), in `ll` from the front
(most recently used) to the back. -/
structure LRU (α : Type) where
  maxCount : Int
  ll : List (Item α)
deriving Repr

variable {α : Type}

def newLRU (maxCount : Int) : LRU α := ⟨maxCount, []⟩

namespace LRU

/-- The keys of the list, front first. -/
def keys (c : LRU α) : List UInt64 := c.ll.map (·.key)

/-- `c.cache[key]`: the element of the list the map holds for `key`. -/
def cache (c : LRU α) (key : UInt64) : Option (Item α) := c.ll.find? (·.key == key)

def removeOldest (c : LRU α) : LRU α := { c with ll := c.ll.dropLast }

def put (c : LRU α) (key : UInt64) (value : α) : LRU α :=
  match c.cache key with
  -- `MoveToFront` and the new value
  | some _ => { c with ll := ⟨key, value⟩ :: c.ll.eraseP (·.key == key) }
  | none =>
    let c := { c with ll := ⟨key, value⟩ :: c.ll }
    if c.maxCount ≠ 0 ∧ (c.ll.length : Int) > c.maxCount then c.removeOldest else c

def get (c : LRU α) (key : UInt64) : Option α × LRU α :=
  match c.cache key with
  | some ele => (some ele.value, { c with ll := ele :: c.ll.eraseP (·.key == key) })
  | none => (none, c)

def peek (c : LRU α) (key : UInt64) : Option α := (c.cache key).map (·.value)

def contains (c : LRU α) (key : UInt64) : Bool := (c.cache key).isSome

/-- `remove`, which says whether the key was there; `Remove` drops that answer. -/
def remove (c : LRU α) (key : UInt64) : Bool × LRU α :=
  match c.cache key with
  | some _ => (true, { c with ll := c.ll.eraseP (·.key == key) })
  | none => (false, c)

/-- `getAndRemoveOldest`: the back item, if there is one, and the list without it. -/
def getAndRemoveOldest (c : LRU α) : Option (Item α) × LRU α :=
  match c.ll.getLast? with
  | some ele => (some ele, { c with ll := c.ll.dropLast })
  | none => (none, c)

def len (c : LRU α) : Nat := c.ll.length

/-! ## Lookups -/

section Lookup
variable {c : LRU α} {k : UInt64}

theorem key_of_cache {ele : Item α} (h : c.cache k = some ele) : ele.key = k := by
  simpa using List.find?_some h

theorem mem_keys_of_cache {ele : Item α} (h : c.cache k = some ele) : k ∈ c.keys :=
  key_of_cache h ▸ List.mem_map_of_mem (List.mem_of_find?_eq_some h)

theorem cache_eq_none_iff : c.cache k = none ↔ k ∉ c.keys := by
  simp [cache, keys, List.find?_eq_none]

theorem contains_iff : c.contains k = true ↔ k ∈ c.keys := by
  rw [contains, Option.isSome_iff_ne_none, ne_eq, cache_eq_none_iff, not_not]

theorem peek_eq_none_iff : c.peek k = none ↔ k ∉ c.keys := by
  rw [peek, Option.map_eq_none_iff, cache_eq_none_iff]

theorem mem_keys_of_peek {v : α} (h : c.peek k = some v) : k ∈ c.keys := by
  by_contra hk
  rw [peek_eq_none_iff.mpr hk] at h
  cases h

/-- With distinct keys, an item found in a sublist is the one found in the list. -/
theorem find?_of_sublist {l l' : List (Item α)} {ele : Item α} (hs : l'.Sublist l)
    (hnd : (l.map (·.key)).Nodup) (h : l'.find? (·.key == k) = some ele) :
    l.find? (·.key == k) = some ele := by
  have hmem : ele ∈ l := hs.subset (List.mem_of_find?_eq_some h)
  have hkey : ele.key = k := by simpa using List.find?_some h
  obtain ⟨ele', hfind⟩ : ∃ ele', l.find? (·.key == k) = some ele' := by
    refine Option.ne_none_iff_exists'.mp fun hnone => ?_
    exact List.find?_eq_none.mp hnone ele hmem (by simp [hkey])
  have hkey' : ele'.key = k := by simpa using List.find?_some hfind
  rw [hfind, List.inj_on_of_nodup_map hnd (List.mem_of_find?_eq_some hfind) hmem
    (hkey'.trans hkey.symm)]

/-- The key looked up is in no item of the list without it. -/
theorem not_mem_keys_eraseP {l : List (Item α)} (hnd : (l.map (·.key)).Nodup) :
    k ∉ (l.eraseP (·.key == k)).map (·.key) := by
  induction l with
  | nil => simp
  | cons x l ih =>
    rw [List.map_cons, List.nodup_cons] at hnd
    by_cases hx : x.key = k
    · rw [List.eraseP_cons_of_pos (by simp [hx])]
      exact hx ▸ hnd.1
    · simpa [List.eraseP_cons, hx, Ne.symm hx] using ih hnd.2

end Lookup

/-! ## Operations that only drop items -/

section Sublist
variable {c c' : LRU α} {k : UInt64}

theorem nodup_of_sublist (hs : c'.ll.Sublist c.ll) (hnd : c.keys.Nodup) : c'.keys.Nodup :=
  hnd.sublist (hs.map _)

theorem mem_keys_of_sublist (hs : c'.ll.Sublist c.ll) (h : k ∈ c'.keys) : k ∈ c.keys :=
  (hs.map _).subset h

theorem peek_of_sublist {v : α} (hs : c'.ll.Sublist c.ll) (hnd : c.keys.Nodup)
    (h : c'.peek k = some v) : c.peek k = some v := by
  obtain ⟨ele, hele, rfl⟩ := Option.map_eq_some_iff.mp h
  rw [peek, cache, find?_of_sublist hs hnd hele, Option.map_some]

theorem remove_sublist (c : LRU α) (k : UInt64) : (c.remove k).2.ll.Sublist c.ll := by
  unfold remove
  split
  · exact List.eraseP_sublist
  · exact List.Sublist.refl _

theorem removeOldest_sublist (c : LRU α) : c.removeOldest.ll.Sublist c.ll := List.dropLast_sublist _

theorem getAndRemoveOldest_sublist (c : LRU α) : c.getAndRemoveOldest.2.ll.Sublist c.ll := by
  unfold getAndRemoveOldest
  split
  · exact List.dropLast_sublist _
  · exact List.Sublist.refl _

theorem not_mem_keys_remove (hnd : c.keys.Nodup) : k ∉ (c.remove k).2.keys := by
  unfold remove
  split
  · exact not_mem_keys_eraseP hnd
  · rwa [← cache_eq_none_iff]

theorem len_remove (hk : k ∈ c.keys) : (c.remove k).2.len + 1 = c.len := by
  obtain ⟨ele, hele, rfl⟩ := List.mem_map.mp hk
  have hpos : 0 < c.len := List.length_pos_of_mem hele
  obtain ⟨ele', hcache⟩ := Option.ne_none_iff_exists'.mp (cache_eq_none_iff.not.mpr (not_not.mpr hk))
  simp only [remove, hcache, len]
  rw [List.length_eraseP_of_mem hele (by simp)]
  exact Nat.sub_add_cancel hpos

theorem len_removeOldest (c : LRU α) : c.removeOldest.len = c.len - 1 := List.length_dropLast

theorem getAndRemoveOldest_of_len_pos (h : 0 < c.len) :
    ∃ ele, c.getAndRemoveOldest = (some ele, c.removeOldest) := by
  obtain ⟨ele, hlast⟩ := Option.ne_none_iff_exists'.mp
    (List.getLast?_eq_none_iff.not.mpr (List.ne_nil_of_length_pos h))
  exact ⟨ele, by simp only [getAndRemoveOldest, hlast]; rfl⟩

/-- `getAndRemoveOldest` returns the back item, whose key leaves the list. -/
theorem getAndRemoveOldest_some {ele : Item α} (h : c.getAndRemoveOldest = (some ele, c'))
    (hnd : c.keys.Nodup) :
    ele.key ∈ c.keys ∧ ele.key ∉ c'.keys ∧ c'.len + 1 = c.len ∧ c'.ll.Sublist c.ll := by
  unfold getAndRemoveOldest at h
  split at h
  · next ele' hlast =>
    obtain ⟨⟨⟩, rfl⟩ := Prod.mk.inj h
    obtain ⟨ys, hys⟩ := List.getLast?_eq_some_iff.mp hlast
    have hnd' : (ys.map (·.key) ++ [ele.key]).Nodup := by
      simpa [keys, hys] using hnd
    simp only [keys, len, hys, List.dropLast_concat, List.map_append, List.map_cons,
      List.map_nil, List.length_append, List.length_cons, List.length_nil]
    refine ⟨by simp, fun hmem => ?_, by simp, List.sublist_append_left _ _⟩
    exact (List.nodup_append.mp hnd').2.2 _ hmem _ (List.mem_singleton_self _) rfl
  · cases h

end Sublist

/-! ## Operations that move one key to the front -/

/-- `c'` is a sublist of `x` (which has key `k`) before `c` without `k`: what
`put` and `get` leave. -/
def Moved (c c' : LRU α) (k : UInt64) (x : Item α) : Prop :=
  x.key = k ∧ c'.ll.Sublist (x :: c.ll.eraseP (·.key == k))

section Moved
variable {c c' : LRU α} {k k' : UInt64} {x : Item α}

/-- The list `put` and `get` build before any eviction has distinct keys. -/
theorem nodup_cons_eraseP (hnd : c.keys.Nodup) (hx : x.key = k) :
    ((x :: c.ll.eraseP (·.key == k)).map (·.key)).Nodup := by
  rw [List.map_cons, List.nodup_cons, hx]
  exact ⟨not_mem_keys_eraseP hnd, hnd.sublist (List.eraseP_sublist.map _)⟩

theorem Moved.nodup (h : Moved c c' k x) (hnd : c.keys.Nodup) : c'.keys.Nodup :=
  (nodup_cons_eraseP hnd h.1).sublist (h.2.map _)

theorem Moved.mem_keys (h : Moved c c' k x) (hk' : k' ∈ c'.keys) : k' = k ∨ k' ∈ c.keys := by
  obtain ⟨rfl, hs⟩ := h
  rcases List.mem_cons.mp ((hs.map (·.key)).subset hk') with rfl | hmem
  · exact .inl rfl
  · exact .inr ((List.eraseP_sublist.map _).subset hmem)

theorem Moved.len_le (h : Moved c c' k x) : c'.len ≤ c.len + 1 := by
  have hs := h.2.length_le
  have he := List.length_eraseP_le (l := c.ll) (p := (·.key == k))
  simp only [len, List.length_cons] at *
  omega

theorem Moved.len_le_of_mem (h : Moved c c' k x) (hk : k ∈ c.keys) : c'.len ≤ c.len := by
  obtain ⟨ele, hele, rfl⟩ := List.mem_map.mp hk
  have he := List.length_eraseP_of_mem hele (p := (·.key == ele.key)) (by simp)
  have hpos : 0 < c.ll.length := List.length_pos_of_mem hele
  have hs := h.2.length_le
  simp only [len, List.length_cons] at *
  omega

/-- The moved key reads the moved item's value. -/
theorem Moved.peek_self {v : α} (h : Moved c c' k x) (hnd : c.keys.Nodup)
    (hv : c'.peek k = some v) : v = x.value := by
  obtain ⟨ele, hele, rfl⟩ := Option.map_eq_some_iff.mp hv
  have hfind := find?_of_sublist h.2 (nodup_cons_eraseP hnd h.1) hele
  rw [List.find?_cons_of_pos (by simp [h.1])] at hfind
  rw [Option.some.inj hfind]

/-- Every other key reads what it read before. -/
theorem Moved.peek_of_ne {v : α} (h : Moved c c' k x) (hnd : c.keys.Nodup) (hne : k' ≠ k)
    (hv : c'.peek k' = some v) : c.peek k' = some v := by
  obtain ⟨ele, hele, rfl⟩ := Option.map_eq_some_iff.mp hv
  have hfind := find?_of_sublist h.2 (nodup_cons_eraseP hnd h.1) hele
  rw [List.find?_cons_of_neg (by simpa [h.1] using Ne.symm hne)] at hfind
  rw [peek, cache, find?_of_sublist List.eraseP_sublist hnd hfind, Option.map_some]

theorem put_moved (c : LRU α) (k : UInt64) (v : α) : Moved c (c.put k v) k ⟨k, v⟩ := by
  refine ⟨rfl, ?_⟩
  unfold put
  split
  · exact List.Sublist.refl _
  · next hnone =>
    -- no item has the key, so erasing it changes nothing and only an eviction can follow
    have hkeep : c.ll.eraseP (·.key == k) = c.ll :=
      List.eraseP_of_forall_not (List.find?_eq_none.mp hnone)
    rw [hkeep]
    dsimp only
    split
    · exact List.dropLast_sublist _
    · exact List.Sublist.refl _

theorem get_moved {ele : Item α} (h : c.cache k = some ele) : Moved c (c.get k).2 k ele := by
  refine ⟨key_of_cache h, ?_⟩
  simp only [get, h]
  exact List.Sublist.refl _

theorem get_of_cache_eq_none (h : c.cache k = none) : c.get k = (none, c) := by
  simp only [get, h]

end Moved

end LRU

end MatrixCube.Prophet.Cache
