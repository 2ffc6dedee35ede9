import MatrixCube.Prophet.Cache.LRU
import MatrixCube.Lib.Binary64

/-! # The 2Q cache of `util/cache`

`TwoQueue` keeps entries seen once in `recent`, entries seen again in
`frequent`, and the keys lately evicted from `recent` in `ghost`. `Put` and
`Get` move keys between the three lists, and `ensureSpace` makes room before a
new key enters.

`Inv` is what every reachable state keeps: no list repeats a key, no key is in
two lists, and `recent` and `frequent` hold at most `size` entries together.
`Sound` relates a state to the history of calls: every value the cache holds
for a key is the value of the last `Put` of that key. Both are proved for one
call (`Inv.exec`, `Sound.exec`) and then for every sequence of calls from
`newTwoQueue` (`Inv.run`).
-/

namespace MatrixCube.Prophet.Cache

/-- `defaultRecentRatio`, the float64 `0.25`. -/
def defaultRecentRatio : ℚ := 1 / 4

/-- `defaultGhostRatio`, the float64 `0.50`. -/
def defaultGhostRatio : ℚ := 1 / 2

/-- `TwoQueue`. The values of `ghost` are always `nil`, so it keeps keys only. -/
structure TwoQueue (α : Type) where
  size : Int
  recentSize : Int
  recent : LRU α
  frequent : LRU α
  ghost : LRU Unit

variable {α : Type}

def newTwoQueueParams (size : Int) (recentRatio ghostRatio : ℚ) : TwoQueue α :=
  let recentSize := Binary64.toInt (Binary64.mul (Binary64.round size) recentRatio)
  let ghostSize := Binary64.toInt (Binary64.mul (Binary64.round size) ghostRatio)
  { size, recentSize, recent := newLRU size, frequent := newLRU size, ghost := newLRU ghostSize }

def newTwoQueue (size : Int) : TwoQueue α :=
  newTwoQueueParams size defaultRecentRatio defaultGhostRatio

namespace TwoQueue

def ensureSpace (c : TwoQueue α) (ghost : Bool) : TwoQueue α :=
  let recentLen : Int := c.recent.len
  let frequentLen : Int := c.frequent.len
  if recentLen + frequentLen < c.size then c
  else if recentLen > 0 ∧ (recentLen > c.recentSize ∨ (recentLen = c.recentSize ∧ !ghost)) then
    match c.recent.getAndRemoveOldest with
    -- an empty list would give the key `0`
    | (ele, recent) => { c with recent, ghost := c.ghost.put ((ele.map (·.key)).getD 0) () }
  else { c with frequent := c.frequent.removeOldest }

def put (c : TwoQueue α) (key : UInt64) (value : α) : TwoQueue α :=
  if c.frequent.contains key then { c with frequent := c.frequent.put key value }
  else if c.recent.contains key then
    { c with recent := (c.recent.remove key).2, frequent := c.frequent.put key value }
  else if c.ghost.contains key then
    let c := c.ensureSpace true
    { c with ghost := (c.ghost.remove key).2, frequent := c.frequent.put key value }
  else
    let c := c.ensureSpace false
    { c with recent := c.recent.put key value }

def get (c : TwoQueue α) (key : UInt64) : Option α × TwoQueue α :=
  match c.frequent.get key with
  | (some val, frequent) => (some val, { c with frequent })
  -- a miss leaves `frequent` as it was
  | (none, _) =>
    match c.recent.peek key with
    | some val =>
      (some val, { c with recent := (c.recent.remove key).2, frequent := c.frequent.put key val })
    | none => (none, c)

def peek (c : TwoQueue α) (key : UInt64) : Option α :=
  match c.frequent.peek key with
  | some val => some val
  | none => c.recent.peek key

def remove (c : TwoQueue α) (key : UInt64) : TwoQueue α :=
  match c.frequent.remove key with
  | (true, frequent) => { c with frequent }
  | (false, _) =>
    match c.recent.remove key with
    | (true, recent) => { c with recent }
    | (false, _) => { c with ghost := (c.ghost.remove key).2 }

def len (c : TwoQueue α) : Int := c.recent.len + c.frequent.len

/-- A call on the cache. -/
inductive Op (α : Type) where
  | put (key : UInt64) (value : α)
  | get (key : UInt64)
  | peek (key : UInt64)
  | remove (key : UInt64)

/-- The state after one call; `Peek` changes nothing. -/
def exec (c : TwoQueue α) : Op α → TwoQueue α
  | .put key value => c.put key value
  | .get key => (c.get key).2
  | .peek _ => c
  | .remove key => c.remove key

def run (c : TwoQueue α) : List (Op α) → TwoQueue α
  | [] => c
  | op :: ops => (c.exec op).run ops

/-! ## What the cache is for

The value of a key is the one its last `Put` gave; the cache may have dropped
the key since, but it never answers with another value. -/

def recordPut (last : UInt64 → Option α) : Op α → UInt64 → Option α
  | .put key value => Function.update last key (some value)
  | _ => last

/-- The value of the last `Put` of each key in `ops`. -/
def lastPut (ops : List (Op α)) : UInt64 → Option α := ops.foldl recordPut fun _ => none

/-- `recent` or `frequent` holds `v` for `k`. -/
def Holds (c : TwoQueue α) (k : UInt64) (v : α) : Prop :=
  c.frequent.peek k = some v ∨ c.recent.peek k = some v

def Sound (c : TwoQueue α) (last : UInt64 → Option α) : Prop :=
  ∀ k v, c.Holds k v → last k = some v

/-- The invariant of every reachable state. -/
structure Inv (c : TwoQueue α) : Prop where
  size_pos : 1 ≤ c.size
  recentSize_lt : c.recentSize < c.size
  nodup_recent : c.recent.keys.Nodup
  nodup_frequent : c.frequent.keys.Nodup
  nodup_ghost : c.ghost.keys.Nodup
  recent_frequent : c.recent.keys.Disjoint c.frequent.keys
  recent_ghost : c.recent.keys.Disjoint c.ghost.keys
  frequent_ghost : c.frequent.keys.Disjoint c.ghost.keys
  len_le : c.len ≤ c.size

/-! ## Making room -/

section Space
variable {c : TwoQueue α} {g : Bool}

/-- What `ensureSpace` can do: nothing while there is room, else move the oldest
recent key to the ghost list, else drop the oldest frequent entry. -/
theorem ensureSpace_cases (c : TwoQueue α) (g : Bool) :
    (c.len < c.size ∧ c.ensureSpace g = c) ∨
    (0 < c.recent.len ∧ ∃ ele, c.recent.getAndRemoveOldest = (some ele, c.recent.removeOldest) ∧
      c.ensureSpace g = { c with recent := c.recent.removeOldest, ghost := c.ghost.put ele.key () }) ∨
    (c.size ≤ c.len ∧
      ¬((c.recent.len : Int) > 0 ∧ ((c.recent.len : Int) > c.recentSize ∨
        ((c.recent.len : Int) = c.recentSize ∧ (!g) = true))) ∧
      c.ensureSpace g = { c with frequent := c.frequent.removeOldest }) := by
  unfold ensureSpace len
  dsimp only
  split_ifs with hroom hrecent
  · exact .inl ⟨hroom, rfl⟩
  · have hpos : 0 < c.recent.len := by exact_mod_cast hrecent.1
    obtain ⟨ele, h⟩ := c.recent.getAndRemoveOldest_of_len_pos hpos
    refine .inr (.inl ⟨hpos, ele, h, ?_⟩)
    simp only [h, Option.map_some, Option.getD_some]
  · exact .inr (.inr ⟨not_lt.mp hroom, hrecent, rfl⟩)

@[simp] theorem size_ensureSpace : (c.ensureSpace g).size = c.size := by
  rcases ensureSpace_cases c g with ⟨-, h⟩ | ⟨-, ele, -, h⟩ | ⟨-, -, h⟩ <;> rw [h]

@[simp] theorem recentSize_ensureSpace : (c.ensureSpace g).recentSize = c.recentSize := by
  rcases ensureSpace_cases c g with ⟨-, h⟩ | ⟨-, ele, -, h⟩ | ⟨-, -, h⟩ <;> rw [h]

theorem ensureSpace_recent (c : TwoQueue α) (g : Bool) :
    (c.ensureSpace g).recent.ll.Sublist c.recent.ll := by
  rcases ensureSpace_cases c g with ⟨-, h⟩ | ⟨-, ele, -, h⟩ | ⟨-, -, h⟩
  · rw [h]
  · rw [h]; exact c.recent.removeOldest_sublist
  · rw [h]

theorem ensureSpace_frequent (c : TwoQueue α) (g : Bool) :
    (c.ensureSpace g).frequent.ll.Sublist c.frequent.ll := by
  rcases ensureSpace_cases c g with ⟨-, h⟩ | ⟨-, ele, -, h⟩ | ⟨-, -, h⟩
  · rw [h]
  · rw [h]
  · rw [h]; exact c.frequent.removeOldest_sublist

/-- A new ghost key comes from `recent`. -/
theorem mem_ghost_ensureSpace {k : UInt64} (hi : c.Inv) (hk : k ∈ (c.ensureSpace g).ghost.keys) :
    k ∈ c.ghost.keys ∨ k ∈ c.recent.keys := by
  rcases ensureSpace_cases c g with ⟨-, h⟩ | ⟨-, ele, hele, h⟩ | ⟨-, -, h⟩ <;> rw [h] at hk
  · exact .inl hk
  · rcases (c.ghost.put_moved ele.key ()).mem_keys hk with rfl | hg
    · exact .inr (LRU.getAndRemoveOldest_some hele hi.nodup_recent).1
    · exact .inl hg
  · exact .inl hk

end Space

/-! ## The invariant, one change at a time -/

section Invariant
variable {c c' : TwoQueue α} {key : UInt64}

/-- Keeping part of each list, with no key twice and no more entries, keeps the
invariant. -/
theorem Inv.of_subset (hi : c.Inv) (hsize : c'.size = c.size) (hrs : c'.recentSize = c.recentSize)
    (hnr : c'.recent.keys.Nodup) (hnf : c'.frequent.keys.Nodup) (hng : c'.ghost.keys.Nodup)
    (hr : c'.recent.keys ⊆ c.recent.keys) (hf : c'.frequent.keys ⊆ c.frequent.keys)
    (hg : c'.ghost.keys ⊆ c.ghost.keys) (hlen : c'.len ≤ c.len) : c'.Inv where
  size_pos := hsize ▸ hi.size_pos
  recentSize_lt := hsize ▸ hrs ▸ hi.recentSize_lt
  nodup_recent := hnr
  nodup_frequent := hnf
  nodup_ghost := hng
  recent_frequent := fun _ h₁ h₂ => hi.recent_frequent (hr h₁) (hf h₂)
  recent_ghost := fun _ h₁ h₂ => hi.recent_ghost (hr h₁) (hg h₂)
  frequent_ghost := fun _ h₁ h₂ => hi.frequent_ghost (hf h₁) (hg h₂)
  len_le := hsize ▸ hlen.trans hi.len_le

/-- Dropping entries keeps the invariant. -/
theorem Inv.of_sublist (hi : c.Inv) (hsize : c'.size = c.size) (hrs : c'.recentSize = c.recentSize)
    (hr : c'.recent.ll.Sublist c.recent.ll) (hf : c'.frequent.ll.Sublist c.frequent.ll)
    (hg : c'.ghost.ll.Sublist c.ghost.ll) : c'.Inv := by
  refine hi.of_subset hsize hrs (LRU.nodup_of_sublist hr hi.nodup_recent)
    (LRU.nodup_of_sublist hf hi.nodup_frequent) (LRU.nodup_of_sublist hg hi.nodup_ghost)
    (fun _ => LRU.mem_keys_of_sublist hr) (fun _ => LRU.mem_keys_of_sublist hf)
    (fun _ => LRU.mem_keys_of_sublist hg) ?_
  have hr' := hr.length_le
  have hf' := hf.length_le
  simp only [len, LRU.len] at *
  omega

/-- A key enters `frequent` when it is in neither other list and it was there
already or there is room for one more entry. -/
theorem Inv.put_frequent (hi : c.Inv) (hr : key ∉ c.recent.keys) (hg : key ∉ c.ghost.keys)
    (hroom : key ∈ c.frequent.keys ∨ c.len < c.size) (v : α) :
    ({ c with frequent := c.frequent.put key v } : TwoQueue α).Inv := by
  have hm := c.frequent.put_moved key v
  refine ⟨hi.size_pos, hi.recentSize_lt, hi.nodup_recent, hm.nodup hi.nodup_frequent,
    hi.nodup_ghost, fun k hkr hkf => ?_, hi.recent_ghost, fun k hkf hkg => ?_, ?_⟩
  · rcases hm.mem_keys hkf with rfl | hkf
    · exact hr hkr
    · exact hi.recent_frequent hkr hkf
  · rcases hm.mem_keys hkf with rfl | hkf
    · exact hg hkg
    · exact hi.frequent_ghost hkf hkg
  · have hle := hi.len_le
    rcases hroom with hk | hroom
    · -- the entry is replaced in place
      have hput := hm.len_le_of_mem hk
      simp only [len] at *
      omega
    · have hput := hm.len_le
      simp only [len] at *
      omega

/-- A key enters `recent` when it is in neither other list and there is room. -/
theorem Inv.put_recent (hi : c.Inv) (hf : key ∉ c.frequent.keys) (hg : key ∉ c.ghost.keys)
    (hroom : c.len < c.size) (v : α) : ({ c with recent := c.recent.put key v } : TwoQueue α).Inv := by
  have hm := c.recent.put_moved key v
  refine ⟨hi.size_pos, hi.recentSize_lt, hm.nodup hi.nodup_recent, hi.nodup_frequent,
    hi.nodup_ghost, fun k hkr hkf => ?_, fun k hkr hkg => ?_, hi.frequent_ghost, ?_⟩
  · rcases hm.mem_keys hkr with rfl | hkr
    · exact hf hkf
    · exact hi.recent_frequent hkr hkf
  · rcases hm.mem_keys hkr with rfl | hkr
    · exact hg hkg
    · exact hi.recent_ghost hkr hkg
  · have hput := hm.len_le
    simp only [len] at *
    omega

/-- `Put` and `Get` of a recent key move it to `frequent`. -/
theorem Inv.promote (hi : c.Inv) (hk : key ∈ c.recent.keys) (v : α) :
    ({ c with recent := (c.recent.remove key).2, frequent := c.frequent.put key v } : TwoQueue α).Inv := by
  have hrm : ({ c with recent := (c.recent.remove key).2 } : TwoQueue α).Inv :=
    hi.of_sublist rfl rfl (c.recent.remove_sublist key) (List.Sublist.refl _) (List.Sublist.refl _)
  have hlen := LRU.len_remove hk
  have hle := hi.len_le
  refine hrm.put_frequent (LRU.not_mem_keys_remove hi.nodup_recent) (hi.recent_ghost hk) (.inr ?_) v
  simp only [len] at *
  omega

theorem Inv.ensureSpace (hi : c.Inv) (g : Bool) : (c.ensureSpace g).Inv := by
  rcases ensureSpace_cases c g with ⟨-, h⟩ | ⟨-, ele, hele, h⟩ | ⟨-, -, h⟩ <;> rw [h]
  · exact hi
  · -- the oldest recent key becomes a ghost
    obtain ⟨hin, hout, hlen, hsub⟩ := LRU.getAndRemoveOldest_some hele hi.nodup_recent
    have hm := c.ghost.put_moved ele.key ()
    refine ⟨hi.size_pos, hi.recentSize_lt, LRU.nodup_of_sublist hsub hi.nodup_recent,
      hi.nodup_frequent, hm.nodup hi.nodup_ghost,
      fun k hkr hkf => hi.recent_frequent (LRU.mem_keys_of_sublist hsub hkr) hkf,
      fun k hkr hkg => ?_, fun k hkf hkg => ?_, ?_⟩
    · rcases hm.mem_keys hkg with rfl | hkg
      · exact hout hkr
      · exact hi.recent_ghost (LRU.mem_keys_of_sublist hsub hkr) hkg
    · rcases hm.mem_keys hkg with rfl | hkg
      · exact hi.recent_frequent hin hkf
      · exact hi.frequent_ghost hkf hkg
    · have hle := hi.len_le
      simp only [len] at *
      omega
  · exact hi.of_sublist rfl rfl (List.Sublist.refl _) c.frequent.removeOldest_sublist
      (List.Sublist.refl _)

/-- After `ensureSpace` there is room for one more entry: the frequent list is
not empty when `recent` is not over its target, since `recentSize < size`. -/
theorem len_ensureSpace_lt (hi : c.Inv) (g : Bool) : (c.ensureSpace g).len < c.size := by
  have hle := hi.len_le
  rcases ensureSpace_cases c g with ⟨hroom, h⟩ | ⟨-, ele, hele, h⟩ | ⟨hfull, hnot, h⟩ <;> rw [h]
  · exact hroom
  · have hlen := (LRU.getAndRemoveOldest_some hele hi.nodup_recent).2.2.1
    simp only [len] at *
    omega
  · have hrs := hi.recentSize_lt
    have hpos := hi.size_pos
    have hf : 0 < c.frequent.len := by
      by_contra hf
      simp only [len] at hle hfull
      exact hnot ⟨by omega, .inl (by omega)⟩
    simp only [len, LRU.len_removeOldest] at *
    omega

theorem Inv.put (hi : c.Inv) (key : UInt64) (v : α) : (c.put key v).Inv := by
  unfold TwoQueue.put
  split_ifs with hf hr hg
  · -- a frequent key: its entry is replaced
    have hf := LRU.contains_iff.mp hf
    exact hi.put_frequent (fun h => hi.recent_frequent h hf) (fun h => hi.frequent_ghost hf h) (.inl hf) v
  · exact hi.promote (LRU.contains_iff.mp hr) v
  · -- a ghost key: room is made, and it leaves the ghost list for `frequent`
    have hr : key ∉ c.recent.keys := fun h => hr (LRU.contains_iff.mpr h)
    have he := hi.ensureSpace true
    have hgr : ({ c.ensureSpace true with ghost := ((c.ensureSpace true).ghost.remove key).2 } : TwoQueue α).Inv :=
      he.of_sublist rfl rfl (List.Sublist.refl _) (List.Sublist.refl _) (LRU.remove_sublist _ key)
    refine hgr.put_frequent (fun h => hr (LRU.mem_keys_of_sublist (c.ensureSpace_recent true) h))
      (LRU.not_mem_keys_remove he.nodup_ghost) (.inr ?_) v
    simpa [len] using len_ensureSpace_lt hi true
  · -- a new key: room is made, and it enters `recent`
    have hf : key ∉ c.frequent.keys := fun h => hf (LRU.contains_iff.mpr h)
    have hr : key ∉ c.recent.keys := fun h => hr (LRU.contains_iff.mpr h)
    have hg : key ∉ c.ghost.keys := fun h => hg (LRU.contains_iff.mpr h)
    refine (hi.ensureSpace false).put_recent
      (fun h => hf (LRU.mem_keys_of_sublist (c.ensureSpace_frequent false) h))
      (fun h => (mem_ghost_ensureSpace hi h).elim hg hr) ?_ v
    simpa using len_ensureSpace_lt hi false

/-- What `Get` can do: refresh a frequent key, move a recent key to `frequent`,
or change nothing. -/
theorem get_cases (c : TwoQueue α) (key : UInt64) :
    (∃ ele, c.frequent.cache key = some ele ∧ (c.get key).2 = { c with frequent := (c.frequent.get key).2 }) ∨
    (∃ val, c.frequent.cache key = none ∧ c.recent.peek key = some val ∧
      (c.get key).2 = { c with recent := (c.recent.remove key).2, frequent := c.frequent.put key val }) ∨
    (c.get key).2 = c := by
  cases hc : c.frequent.cache key with
  | some ele =>
    refine .inl ⟨ele, rfl, ?_⟩
    simp only [get, LRU.get, hc]
  | none =>
    cases hp : c.recent.peek key with
    | some val =>
      refine .inr (.inl ⟨val, rfl, rfl, ?_⟩)
      simp only [get, LRU.get_of_cache_eq_none hc, hp]
    | none =>
      refine .inr (.inr ?_)
      simp only [get, LRU.get_of_cache_eq_none hc, hp]

/-- What `Remove` can do: drop the key from the first list that has it. -/
theorem remove_cases (c : TwoQueue α) (key : UInt64) :
    c.remove key = { c with frequent := (c.frequent.remove key).2 } ∨
    c.remove key = { c with recent := (c.recent.remove key).2 } ∨
    c.remove key = { c with ghost := (c.ghost.remove key).2 } := by
  unfold remove
  split
  · next frequent h => exact .inl (by rw [h])
  · split
    · next recent h => exact .inr (.inl (by rw [h]))
    · exact .inr (.inr rfl)

theorem Inv.get (hi : c.Inv) (key : UInt64) : (c.get key).2.Inv := by
  rcases get_cases c key with ⟨ele, hc, h⟩ | ⟨val, -, hp, h⟩ | h <;> rw [h]
  · -- the key moves to the front of `frequent`
    have hm := c.frequent.get_moved hc
    have hk := LRU.mem_keys_of_cache hc
    exact hi.of_subset rfl rfl hi.nodup_recent (hm.nodup hi.nodup_frequent) hi.nodup_ghost
      (fun _ h => h) (fun _ h => (hm.mem_keys h).elim (· ▸ hk) id) (fun _ h => h)
      (by simpa [len] using hm.len_le_of_mem hk)
  · exact hi.promote (LRU.mem_keys_of_peek hp) val
  · exact hi

theorem Inv.remove (hi : c.Inv) (key : UInt64) : (c.remove key).Inv := by
  rcases remove_cases c key with h | h | h <;> rw [h]
  · exact hi.of_sublist rfl rfl (List.Sublist.refl _) (LRU.remove_sublist _ key) (List.Sublist.refl _)
  · exact hi.of_sublist rfl rfl (LRU.remove_sublist _ key) (List.Sublist.refl _) (List.Sublist.refl _)
  · exact hi.of_sublist rfl rfl (List.Sublist.refl _) (List.Sublist.refl _) (LRU.remove_sublist _ key)

theorem Inv.exec (hi : c.Inv) : ∀ op : Op α, (c.exec op).Inv
  | .put key v => hi.put key v
  | .get key => hi.get key
  | .peek _ => hi
  | .remove key => hi.remove key

end Invariant

/-! ## The values the cache holds

A value held after a call was held before it, except the value a `Put` gives
to its own key. -/

section Values
variable {c c' : TwoQueue α} {key k : UInt64} {v w : α}

theorem Holds.of_sublist (h : c'.Holds k w) (hi : c.Inv) (hr : c'.recent.ll.Sublist c.recent.ll)
    (hf : c'.frequent.ll.Sublist c.frequent.ll) : c.Holds k w :=
  h.imp (LRU.peek_of_sublist hf hi.nodup_frequent) (LRU.peek_of_sublist hr hi.nodup_recent)

theorem Holds.ensureSpace (hi : c.Inv) {g : Bool} (h : (c.ensureSpace g).Holds k w) : c.Holds k w :=
  h.of_sublist hi (c.ensureSpace_recent g) (c.ensureSpace_frequent g)

theorem Holds.put_frequent (hi : c.Inv) (hr : key ∉ c.recent.keys)
    (h : ({ c with frequent := c.frequent.put key v } : TwoQueue α).Holds k w) :
    (k = key → w = v) ∧ (k ≠ key → c.Holds k w) := by
  have hm := c.frequent.put_moved key v
  rcases h with h | h
  · exact ⟨fun hk => hm.peek_self hi.nodup_frequent (hk ▸ h),
      fun hk => .inl (hm.peek_of_ne hi.nodup_frequent hk h)⟩
  · -- `recent` is unchanged and does not have the key
    refine ⟨fun hk => absurd (LRU.mem_keys_of_peek h) (hk ▸ hr), fun _ => .inr h⟩

theorem Holds.put_recent (hi : c.Inv) (hf : key ∉ c.frequent.keys)
    (h : ({ c with recent := c.recent.put key v } : TwoQueue α).Holds k w) :
    (k = key → w = v) ∧ (k ≠ key → c.Holds k w) := by
  have hm := c.recent.put_moved key v
  rcases h with h | h
  · refine ⟨fun hk => absurd (LRU.mem_keys_of_peek h) (hk ▸ hf), fun _ => .inl h⟩
  · exact ⟨fun hk => hm.peek_self hi.nodup_recent (hk ▸ h),
      fun hk => .inr (hm.peek_of_ne hi.nodup_recent hk h)⟩

theorem Holds.promote (hi : c.Inv)
    (h : ({ c with recent := (c.recent.remove key).2, frequent := c.frequent.put key v } : TwoQueue α).Holds k w) :
    (k = key → w = v) ∧ (k ≠ key → c.Holds k w) := by
  have hrm : ({ c with recent := (c.recent.remove key).2 } : TwoQueue α).Inv :=
    hi.of_sublist rfl rfl (c.recent.remove_sublist key) (List.Sublist.refl _) (List.Sublist.refl _)
  obtain ⟨hself, hother⟩ := Holds.put_frequent hrm (LRU.not_mem_keys_remove hi.nodup_recent) h
  exact ⟨hself, fun hne => (hother hne).of_sublist hi (c.recent.remove_sublist key) (List.Sublist.refl _)⟩

theorem Holds.put (hi : c.Inv) (h : (c.put key v).Holds k w) :
    (k = key → w = v) ∧ (k ≠ key → c.Holds k w) := by
  unfold TwoQueue.put at h
  split_ifs at h with hf hr hg
  · have hf := LRU.contains_iff.mp hf
    exact h.put_frequent hi (fun h => hi.recent_frequent h hf)
  · exact h.promote hi
  · -- the ghost list plays no part in what is held
    have hr : key ∉ c.recent.keys := fun h => hr (LRU.contains_iff.mpr h)
    have he := hi.ensureSpace true
    have hgr : ({ c.ensureSpace true with ghost := ((c.ensureSpace true).ghost.remove key).2 } : TwoQueue α).Inv :=
      he.of_sublist rfl rfl (List.Sublist.refl _) (List.Sublist.refl _) (LRU.remove_sublist _ key)
    obtain ⟨hself, hother⟩ := Holds.put_frequent hgr
      (fun h => hr (LRU.mem_keys_of_sublist (c.ensureSpace_recent true) h)) h
    exact ⟨hself, fun hne => Holds.ensureSpace hi (hother hne)⟩
  · have hf : key ∉ c.frequent.keys := fun h => hf (LRU.contains_iff.mpr h)
    obtain ⟨hself, hother⟩ := Holds.put_recent (hi.ensureSpace false)
      (fun h => hf (LRU.mem_keys_of_sublist (c.ensureSpace_frequent false) h)) h
    exact ⟨hself, fun hne => Holds.ensureSpace hi (hother hne)⟩

/-- `Get` holds what was held: a moved key keeps its value. -/
theorem Holds.get (hi : c.Inv) (h : (c.get key).2.Holds k w) : c.Holds k w := by
  rcases get_cases c key with ⟨ele, hc, hget⟩ | ⟨val, -, hp, hget⟩ | hget <;> rw [hget] at h
  · have hm := c.frequent.get_moved hc
    rcases h with h | h
    · by_cases hk : k = key
      · subst hk
        have hw := hm.peek_self hi.nodup_frequent h
        exact .inl (by rw [LRU.peek, hc, hw, Option.map_some])
      · exact .inl (hm.peek_of_ne hi.nodup_frequent hk h)
    · exact .inr h
  · obtain ⟨hself, hother⟩ := h.promote hi
    by_cases hk : k = key
    · subst hk
      exact .inr (hself rfl ▸ hp)
    · exact hother hk
  · exact h

theorem Holds.remove (hi : c.Inv) (h : (c.remove key).Holds k w) : c.Holds k w := by
  rcases remove_cases c key with hrm | hrm | hrm <;> rw [hrm] at h
  · exact h.of_sublist hi (List.Sublist.refl _) (LRU.remove_sublist _ key)
  · exact h.of_sublist hi (LRU.remove_sublist _ key) (List.Sublist.refl _)
  · exact h

theorem Sound.exec {last : UInt64 → Option α} (hi : c.Inv) (hs : c.Sound last) :
    ∀ op : Op α, (c.exec op).Sound (recordPut last op)
  | .put key v => fun k w h => by
    obtain ⟨hself, hother⟩ := Holds.put hi h
    by_cases hk : k = key
    · subst hk
      rw [recordPut, Function.update_self, hself rfl]
    · rw [recordPut, Function.update_of_ne hk]
      exact hs k w (hother hk)
  | .get _ => fun k w h => hs k w (Holds.get hi h)
  | .peek _ => hs
  | .remove _ => fun k w h => hs k w (Holds.remove hi h)

end Values

/-! ## Runs -/

theorem size_exec (c : TwoQueue α) : ∀ op : Op α, (c.exec op).size = c.size
  | .put key v => by
    show (c.put key v).size = c.size
    unfold TwoQueue.put
    split_ifs <;> simp
  | .get key => by
    rcases get_cases c key with ⟨ele, -, h⟩ | ⟨val, -, -, h⟩ | h <;> simp only [exec, h]
  | .peek _ => rfl
  | .remove key => by
    rcases remove_cases c key with h | h | h <;> simp only [exec, h]

theorem size_run (c : TwoQueue α) (ops : List (Op α)) : (c.run ops).size = c.size := by
  induction ops generalizing c with
  | nil => rfl
  | cons op ops ih => rw [run, ih, size_exec]

/-- Along every sequence of calls the invariant holds and every held value is
the last one put. -/
theorem Inv.run {c : TwoQueue α} {last : UInt64 → Option α} (hi : c.Inv) (hs : c.Sound last)
    (ops : List (Op α)) : (c.run ops).Inv ∧ (c.run ops).Sound (ops.foldl recordPut last) := by
  induction ops generalizing c last with
  | nil => exact ⟨hi, hs⟩
  | cons op ops ih => exact ih (hi.exec op) (hs.exec hi op)

theorem recentSize_newTwoQueue_lt {size : Int} (h : 1 ≤ size) :
    (newTwoQueue size : TwoQueue α).recentSize < size := by
  have hpos : (0 : ℚ) < size := by exact_mod_cast h
  have hround := Binary64.round_lt_two_mul hpos
  refine Binary64.toInt_lt (by omega) (Binary64.round_lt_of_two_mul_le hpos ?_)
  -- `float64(size) * 0.25` is at most half of `size`'s double
  rw [defaultRecentRatio]
  linarith

theorem inv_newTwoQueue {size : Int} (h : 1 ≤ size) : (newTwoQueue size : TwoQueue α).Inv where
  size_pos := h
  recentSize_lt := recentSize_newTwoQueue_lt h
  nodup_recent := List.nodup_nil
  nodup_frequent := List.nodup_nil
  nodup_ghost := List.nodup_nil
  recent_frequent := List.disjoint_nil_left _
  recent_ghost := List.disjoint_nil_left _
  frequent_ghost := List.disjoint_nil_left _
  len_le := by simp [len, LRU.len, newTwoQueue, newTwoQueueParams, newLRU]; omega

theorem sound_newTwoQueue (size : Int) : (newTwoQueue size : TwoQueue α).Sound fun _ => none := by
  rintro k w (h | h) <;> simp [newTwoQueue, newTwoQueueParams, newLRU, LRU.peek, LRU.cache] at h

/-- The answer of `Peek` from what is held: the held value for a key in
`recent` or `frequent`, and nothing for any other key. -/
theorem peek_eq_of_sound {c : TwoQueue α} {last : UInt64 → Option α} (hs : c.Sound last) (k : UInt64) :
    c.peek k = if k ∈ c.recent.keys ∨ k ∈ c.frequent.keys then last k else none := by
  unfold peek
  cases hf : c.frequent.peek k with
  | some w => rw [if_pos (.inr (LRU.mem_keys_of_peek hf)), hs k w (.inl hf)]
  | none =>
    cases hr : c.recent.peek k with
    | some w => rw [if_pos (.inl (LRU.mem_keys_of_peek hr)), hs k w (.inr hr)]
    | none =>
      rw [if_neg]
      rintro (h | h)
      · exact LRU.peek_eq_none_iff.mp hr h
      · exact LRU.peek_eq_none_iff.mp hf h

theorem twoQueue_invariant (size : Int) (hsize : 1 ≤ size) (ops : List (Op α)) (c : TwoQueue α)
    (hc : (newTwoQueue size).run ops = c) :
    c.recent.keys.Disjoint c.frequent.keys ∧ c.recent.keys.Disjoint c.ghost.keys ∧
      c.frequent.keys.Disjoint c.ghost.keys ∧ c.len ≤ size ∧
      ∀ k, c.peek k = if k ∈ c.recent.keys ∨ k ∈ c.frequent.keys then lastPut ops k else none := by
  obtain ⟨hi, hs⟩ := (inv_newTwoQueue hsize).run (sound_newTwoQueue size) ops
  have hlen := hi.len_le
  rw [size_run] at hlen
  subst hc
  exact ⟨hi.recent_frequent, hi.recent_ghost, hi.frequent_ghost, hlen, peek_eq_of_sound hs⟩

theorem twoQueue_invariant_two : ∃ c : TwoQueue Nat,
    (newTwoQueue 2).run [.put 1 10, .get 1, .put 2 20, .remove 2] = c ∧
    c.recent.keys.Disjoint c.frequent.keys ∧ c.recent.keys.Disjoint c.ghost.keys ∧
      c.frequent.keys.Disjoint c.ghost.keys ∧ c.len ≤ 2 ∧
      ∀ k, c.peek k = if k ∈ c.recent.keys ∨ k ∈ c.frequent.keys then
        lastPut [.put 1 10, .get 1, .put 2 20, .remove 2] k else none :=
  ⟨_, rfl, twoQueue_invariant 2 (by decide) _ _ rfl⟩

end TwoQueue

end MatrixCube.Prophet.Cache
