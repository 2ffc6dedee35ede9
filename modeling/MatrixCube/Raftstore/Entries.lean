import MatrixCube.Raftstore.LogStorage

/-! # Reading the raft log

`peerStorage.Entries` (`peer_storage.go`) serves raft's reads of the log.
After `checkRange` it answers an empty range at once, reads a range of one
entry with `Get`, and scans the log keys of any longer range in order. The
scan callback stops at a gap, and stops once the sizes read exceed `maxSize`,
keeping the entry that crossed the bound only when nothing was kept before.

`getRaftLogKey(shard, index)` ends with the big-endian index, so the keys from
`getRaftLogKey(low)` to `getRaftLogKey(high)` are those of the indices of
`[low, high)`, in index order: the scan visits the entries stored there. The
size of an entry is the length of the value stored for it, its protobuf
encoding, which `size` stands for.
-/

namespace MatrixCube.Raftstore

/-- The errors of `checkRange` and `Entries`, with the values their messages
print. -/
inductive EntriesError where
  /-- `shard %d low %d is greater that high %d` -/
  | lowGreaterThanHigh (shardID : UInt64) (low high : Nat)
  /-- `raft.ErrCompacted` -/
  | errCompacted
  /-- `shard %d entries' high is out of bound lastindex, hight=<%d> lastindex=<%d>` -/
  | highOutOfBound (shardID : UInt64) (high lastIndex : Nat)
  /-- `raft.ErrUnavailable` -/
  | errUnavailable
  deriving DecidableEq, Repr

/-- `peerStorage.checkRange`. -/
def checkRange (shardID : UInt64) (s : RaftLogState) (low high : Nat) : Option EntriesError :=
  if low > high then some (.lowGreaterThanHigh shardID low high)
  else if low ≤ s.applyState.truncatedState.index then some .errCompacted
  else if high > s.lastIndex + 1 then some (.highOutOfBound shardID high s.lastIndex)
  else none

/-- The variables of `Entries` that its scan callback updates. -/
structure EntriesScan where
  ents : List Entry
  nextIndex : Nat
  totalSize : Nat
  exceededMaxSize : Bool

/-- The scan callback of `Entries` on one entry: the variables after it, and
whether the scan goes on. -/
def entriesScanStep (size : Entry → Nat) (maxSize : Nat) (st : EntriesScan) (e : Entry) :
    EntriesScan × Bool :=
  if e.index ≠ st.nextIndex then (st, false)
  else
    let totalSize := st.totalSize + size e
    let exceededMaxSize := decide (totalSize > maxSize)
    let ents := if !exceededMaxSize || st.ents.isEmpty then st.ents ++ [e] else st.ents
    (⟨ents, st.nextIndex + 1, totalSize, exceededMaxSize⟩, !exceededMaxSize)

/-- `Scan` with that callback: the entries in order, until the callback stops it. -/
def entriesScanLoop (size : Entry → Nat) (maxSize : Nat) : List Entry → EntriesScan → EntriesScan
  | [], st => st
  | e :: es, st =>
    match entriesScanStep size maxSize st e with
    | (st', true) => entriesScanLoop size maxSize es st'
    | (st', false) => st'

/-- The entries stored under the log keys of `[low, high)`, in index order. -/
def storedEntries (s : RaftLogState) (low high : Nat) : List Entry :=
  (List.range' low (high - low)).filterMap s.log

/-- `peerStorage.Entries`; `none` is the `Fatalf` of `unmarshal` on an entry
stored under another index. -/
def entries (size : Entry → Nat) (shardID : UInt64) (s : RaftLogState) (low high maxSize : Nat) :
    Option (Except EntriesError (List Entry)) :=
  match checkRange shardID s low high with
  | some err => some (.error err)
  | none =>
    if low = high then some (.ok [])
    else if low + 1 = high then
      match s.log low with
      | none => some (.error .errUnavailable)
      | some e => if e.index ≠ low then none else some (.ok [e])
    else
      let st := entriesScanLoop size maxSize (storedEntries s low high) ⟨[], low, 0, false⟩
      if st.ents.length = high - low ∨ st.exceededMaxSize then some (.ok st.ents)
      else some (.error .errUnavailable)

/-- The total size of a list of entries. -/
def sizeSum (size : Entry → Nat) (l : List Entry) : Nat := (l.map size).sum

@[simp] theorem sizeSum_nil (size : Entry → Nat) : sizeSum size [] = 0 := rfl

@[simp] theorem sizeSum_append (size : Entry → Nat) (l l' : List Entry) :
    sizeSum size (l ++ l') = sizeSum size l + sizeSum size l' := by
  simp [sizeSum]

@[simp] theorem sizeSum_cons (size : Entry → Nat) (e : Entry) (l : List Entry) :
    sizeSum size (e :: l) = size e + sizeSum size l := by
  simp [sizeSum]

/-! ## The scan -/

section Scan

variable (size : Entry → Nat) (maxSize low : Nat)

/-- The scan over entries with consecutive indices, from a state that has kept
the prefix `p` within the bound: it keeps everything when the whole list fits
the bound, and otherwise stops after the longest prefix that fits, or after
the first entry when not even that one fits. -/
theorem entriesScanLoop_spec :
    ∀ (es p : List Entry), sizeSum size p ≤ maxSize →
      es.map (·.index) = List.range' (low + p.length) es.length →
      let st := entriesScanLoop size maxSize es ⟨p, low + p.length, sizeSum size p, false⟩
      (sizeSum size (p ++ es) ≤ maxSize → st.ents = p ++ es) ∧
      (maxSize < sizeSum size (p ++ es) → st.exceededMaxSize = true ∧
        ∃ n, sizeSum size ((p ++ es).take n) ≤ maxSize ∧
          maxSize < sizeSum size ((p ++ es).take (n + 1)) ∧ st.ents = (p ++ es).take (max 1 n))
  | [], p, hp, _ => by
    simp only [List.append_nil]
    exact ⟨fun _ => rfl, fun h => absurd hp (Nat.not_le.mpr h)⟩
  | e :: es, p, hp, hidx => by
    rw [List.map_cons, List.length_cons, List.range'_succ, List.cons.injEq] at hidx
    obtain ⟨he, hidx⟩ := hidx
    by_cases hex : maxSize < sizeSum size p + size e
    · -- `e` crosses the bound: the scan stops after the prefix, or after `e` alone
      have hstep : entriesScanStep size maxSize ⟨p, low + p.length, sizeSum size p, false⟩ e =
          (⟨if p.isEmpty then p ++ [e] else p, low + p.length + 1, sizeSum size p + size e, true⟩,
            false) := by
        simp [entriesScanStep, he, hex]
      have htake : (p ++ e :: es).take (p.length + 1) = p ++ [e] := by
        rw [List.take_append]
        simp
      simp only [entriesScanLoop, hstep]
      refine ⟨fun h => absurd h (by simp only [sizeSum_append, sizeSum_cons]; omega),
        fun _ => ⟨by simp, p.length, ?_, ?_, ?_⟩⟩
      · rw [List.take_left' rfl]
        exact hp
      · rw [htake, sizeSum_append, sizeSum_cons, sizeSum_nil]
        omega
      · cases p with
        | nil => rfl
        | cons x xs => simp [List.take_left' rfl]
    · -- `e` fits: it is kept and the scan goes on from `p ++ [e]`
      have hstep : entriesScanStep size maxSize ⟨p, low + p.length, sizeSum size p, false⟩ e =
          (⟨p ++ [e], low + (p ++ [e]).length, sizeSum size (p ++ [e]), false⟩, true) := by
        simp [entriesScanStep, he, hex, Nat.add_assoc]
      have ih := entriesScanLoop_spec es (p ++ [e]) (by simp; omega)
        (by rw [hidx, List.length_append, List.length_singleton, Nat.add_assoc])
      simp only [List.append_assoc, List.singleton_append] at ih
      simp only [entriesScanLoop, hstep]
      refine ⟨ih.1, fun h => ?_⟩
      obtain ⟨hexc, n, hn⟩ := ih.2 h
      exact ⟨hexc, n, hn⟩

end Scan

/-! ## The entries of a range within the log -/

/-- Indices each holding an entry stored under it: the entries read from them
in order are those indices. -/
theorem filterMap_range' {log : Nat → Option Entry} :
    ∀ (n low : Nat), (∀ i, low ≤ i → i < low + n → ∃ e, log i = some e ∧ e.index = i) →
      ((List.range' low n).filterMap log).map (·.index) = List.range' low n ∧
        ∀ e ∈ (List.range' low n).filterMap log, log e.index = some e
  | 0, _, _ => ⟨rfl, by simp⟩
  | n + 1, low, h => by
    obtain ⟨e, he, hidx⟩ := h low le_rfl (by omega)
    obtain ⟨ih₁, ih₂⟩ := filterMap_range' n (low + 1) fun i h₁ h₂ => h i (by omega) (by omega)
    rw [List.range'_succ, List.filterMap_cons_some he]
    refine ⟨by rw [List.map_cons, ih₁, hidx], fun x hx => ?_⟩
    rcases List.mem_cons.mp hx with rfl | hx
    · rwa [hidx]
    · exact ih₂ x hx

section InRange

variable {s : RaftLogState} {low high : Nat}

/-- Under the invariant, the entries stored for a range past the truncated
index and up to the last one hold one entry per index, from `low` on. -/
theorem storedEntries_spec (hinv : RaftLogInv s) (hlow : s.applyState.truncatedState.index < low)
    (hhigh : high ≤ s.lastIndex + 1) :
    (storedEntries s low high).map (·.index) = List.range' low (high - low) ∧
      ∀ e ∈ storedEntries s low high, s.log e.index = some e :=
  filterMap_range' (high - low) low fun i h₁ h₂ => hinv.stored i (by omega) (by omega)

theorem length_storedEntries (hinv : RaftLogInv s) (hlow : s.applyState.truncatedState.index < low)
    (hhigh : high ≤ s.lastIndex + 1) : (storedEntries s low high).length = high - low := by
  simpa using congrArg List.length (storedEntries_spec hinv hlow hhigh).1

/-- A prefix of entries with consecutive indices from `low` has consecutive
indices from `low`. -/
theorem map_index_take {l : List Entry} (h : l.map (·.index) = List.range' low l.length) (k : Nat) :
    (l.take k).map (·.index) = List.range' low (l.take k).length := by
  rw [List.map_take, h, List.length_take]
  rcases le_total k l.length with hk | hk
  · rw [List.take_range'_of_length_ge hk, Nat.min_eq_left hk]
  · rw [List.take_range'_of_length_le hk, Nat.min_eq_right hk]

theorem checkRange_eq_none {shardID : UInt64} (hle : low ≤ high)
    (hlow : s.applyState.truncatedState.index < low) (hhigh : high ≤ s.lastIndex + 1) :
    checkRange shardID s low high = none := by
  unfold checkRange
  rw [if_neg (by omega), if_neg (by omega), if_neg (by omega)]

variable (size : Entry → Nat) (shardID : UInt64) (maxSize : Nat)

/-- For a range within the log, `Entries` returns the stored entries when
their sizes fit `maxSize`, and otherwise the longest prefix that fits, with at
least one entry. -/
theorem entries_of_inRange (hinv : RaftLogInv s) (hle : low ≤ high)
    (hlow : s.applyState.truncatedState.index < low) (hhigh : high ≤ s.lastIndex + 1) :
    ∃ ents, entries size shardID s low high maxSize = some (.ok ents) ∧
      (sizeSum size (storedEntries s low high) ≤ maxSize → ents = storedEntries s low high) ∧
      (maxSize < sizeSum size (storedEntries s low high) → ∃ n,
        sizeSum size ((storedEntries s low high).take n) ≤ maxSize ∧
        maxSize < sizeSum size ((storedEntries s low high).take (n + 1)) ∧
        ents = (storedEntries s low high).take (max 1 n)) := by
  have hlen := length_storedEntries hinv hlow hhigh
  have hidx := (storedEntries_spec hinv hlow hhigh).1
  unfold entries
  rw [checkRange_eq_none hle hlow hhigh]
  by_cases hempty : low = high
  · -- an empty range reads nothing
    subst hempty
    have hnil : storedEntries s low low = [] := by simp [storedEntries]
    refine ⟨[], by rw [if_pos rfl], fun _ => hnil.symm, fun h => ?_⟩
    simp [hnil] at h
  rw [if_neg hempty]
  by_cases hone : low + 1 = high
  · -- one entry, read with `Get`, whatever its size
    obtain ⟨e, he, heidx⟩ := hinv.stored low hlow (by omega)
    have hone' : storedEntries s low high = [e] := by
      simp [storedEntries, ← hone, he]
    rw [if_pos hone, he, hone']
    simp only [heidx, ne_eq, not_true_eq_false, if_false]
    refine ⟨[e], rfl, fun _ => rfl, fun h => ⟨0, by simp, by simpa using h, rfl⟩⟩
  rw [if_neg hone]
  -- the scan, from an empty prefix
  have hspec := entriesScanLoop_spec size maxSize low (storedEntries s low high) []
    (by simp) (by rw [List.length_nil, Nat.add_zero, hlen]; exact hidx)
  simp only [List.nil_append, List.length_nil, Nat.add_zero, sizeSum_nil] at hspec
  dsimp only
  by_cases hfit : sizeSum size (storedEntries s low high) ≤ maxSize
  · have hents := hspec.1 hfit
    rw [if_pos (.inl (by rw [hents, hlen]))]
    exact ⟨_, rfl, fun _ => hents, fun h => absurd hfit (Nat.not_le.mpr h)⟩
  · obtain ⟨hexc, n, hn⟩ := hspec.2 (Nat.lt_of_not_le hfit)
    rw [if_pos (.inr hexc)]
    exact ⟨_, rfl, fun h => absurd h hfit, fun _ => ⟨n, hn⟩⟩

end InRange

/-! ## The errors -/

section Errors

variable {size : Entry → Nat} {shardID : UInt64} {s : RaftLogState} {low high maxSize : Nat}

/-- Past `checkRange`, the only error `Entries` returns is `ErrUnavailable`. -/
theorem entries_error_of_checkRange_none (h : checkRange shardID s low high = none) {err : EntriesError}
    (herr : entries size shardID s low high maxSize = some (.error err)) : err = .errUnavailable := by
  unfold entries at herr
  rw [h] at herr
  dsimp only at herr
  split_ifs at herr
  · cases herr
  · split at herr
    · cases herr
      rfl
    · split_ifs at herr
      cases herr
  · cases herr
  · cases herr
    rfl

/-- Every error but `ErrUnavailable` comes from `checkRange`. -/
theorem entries_eq_error_iff {err : EntriesError} (herr : err ≠ .errUnavailable) :
    entries size shardID s low high maxSize = some (.error err) ↔
      checkRange shardID s low high = some err := by
  cases hc : checkRange shardID s low high with
  | none =>
    simp only [reduceCtorEq, iff_false]
    exact fun h => herr (entries_error_of_checkRange_none hc h)
  | some e => simp [entries, hc]

theorem checkRange_eq_errCompacted_iff :
    checkRange shardID s low high = some .errCompacted ↔
      low ≤ high ∧ low ≤ s.applyState.truncatedState.index := by
  unfold checkRange
  split_ifs <;> simp <;> omega

theorem checkRange_eq_lowGreaterThanHigh_iff :
    checkRange shardID s low high = some (.lowGreaterThanHigh shardID low high) ↔ high < low := by
  unfold checkRange
  split_ifs <;> simp <;> omega

theorem checkRange_eq_highOutOfBound_iff :
    checkRange shardID s low high = some (.highOutOfBound shardID high s.lastIndex) ↔
      low ≤ high ∧ s.applyState.truncatedState.index < low ∧ s.lastIndex + 1 < high := by
  unfold checkRange
  split_ifs <;> simp <;> omega

end Errors

/-- `Entries` under the raft log invariant. For a range within the log it
returns entries with consecutive indices from `low`, as stored, at least one
when the range is not empty: all of the range when their sizes fit `maxSize`,
and otherwise the longest prefix that fits, or the first entry when none
does. `ErrCompacted` is returned exactly for a range that is not reversed and
starts at or below the truncated index; the reversed-range error exactly for a
reversed range; and the out-of-bound error exactly for a range that passes the
first two checks and ends past the last index plus one. -/
theorem entries_meets_contract (size : Entry → Nat) (shardID : UInt64) {s : RaftLogState}
    (hinv : RaftLogInv s) (low high maxSize : Nat) :
    (low ≤ high → s.applyState.truncatedState.index < low → high ≤ s.lastIndex + 1 →
      ∃ ents, entries size shardID s low high maxSize = some (.ok ents) ∧
        ents.map (·.index) = List.range' low ents.length ∧
        (∀ e ∈ ents, s.log e.index = some e) ∧
        (low < high → ents ≠ []) ∧
        (sizeSum size (storedEntries s low high) ≤ maxSize →
          ents = storedEntries s low high ∧ ents.length = high - low) ∧
        (maxSize < sizeSum size (storedEntries s low high) → ∃ n,
          sizeSum size ((storedEntries s low high).take n) ≤ maxSize ∧
          maxSize < sizeSum size ((storedEntries s low high).take (n + 1)) ∧
          ents = (storedEntries s low high).take (max 1 n))) ∧
    (entries size shardID s low high maxSize = some (.error .errCompacted) ↔
      low ≤ high ∧ low ≤ s.applyState.truncatedState.index) ∧
    (entries size shardID s low high maxSize = some (.error (.lowGreaterThanHigh shardID low high)) ↔
      high < low) ∧
    (entries size shardID s low high maxSize = some (.error (.highOutOfBound shardID high s.lastIndex)) ↔
      low ≤ high ∧ s.applyState.truncatedState.index < low ∧ s.lastIndex + 1 < high) := by
  refine ⟨fun hle hlow hhigh => ?_,
    (entries_eq_error_iff (by decide)).trans checkRange_eq_errCompacted_iff,
    (entries_eq_error_iff (by simp)).trans checkRange_eq_lowGreaterThanHigh_iff,
    (entries_eq_error_iff (by simp)).trans checkRange_eq_highOutOfBound_iff⟩
  obtain ⟨ents, hents, hfit, hcut⟩ := entries_of_inRange size shardID maxSize hinv hle hlow hhigh
  have hlen := length_storedEntries hinv hlow hhigh
  -- in both cases the result is a prefix of the stored entries
  obtain ⟨k, hk, hkpos⟩ : ∃ k, ents = (storedEntries s low high).take k ∧ 0 < k := by
    by_cases h : sizeSum size (storedEntries s low high) ≤ maxSize
    · exact ⟨high - low + 1, by rw [hfit h, List.take_of_length_le (by omega)], by omega⟩
    · obtain ⟨n, -, -, hn⟩ := hcut (Nat.lt_of_not_le h)
      exact ⟨max 1 n, hn, by omega⟩
  obtain ⟨hidx, hlog⟩ := storedEntries_spec hinv hlow hhigh
  refine ⟨ents, hents, hk ▸ map_index_take (by rw [hlen]; exact hidx) k,
    fun e he => hlog e (List.mem_of_mem_take (hk ▸ he)), fun hlt => ?_,
    fun h => ⟨hfit h, by rw [hfit h, hlen]⟩, hcut⟩
  rw [hk, ne_eq, List.take_eq_nil_iff, not_or]
  exact ⟨by omega, List.ne_nil_of_length_pos (by omega)⟩

/-- Two entries appended to a new shard, read with a bound that fits one. -/
theorem entries_meets_contract_two_entries :
    let s₀ : RaftLogState := ⟨fun _ => none, 5, 5, ⟨5, ⟨5, 5⟩⟩, true, 0, []⟩
    let s := raftLogStep s₀ (.appendEntries [{ term := 6, index := 6 }, { term := 6, index := 7 }])
    RaftLogInv s ∧
      ((6 ≤ 8 → s.applyState.truncatedState.index < 6 → 8 ≤ s.lastIndex + 1 →
        ∃ ents, entries (fun _ => 1) 1 s 6 8 1 = some (.ok ents) ∧
          ents.map (·.index) = List.range' 6 ents.length ∧
          (∀ e ∈ ents, s.log e.index = some e) ∧
          (6 < 8 → ents ≠ []) ∧
          (sizeSum (fun _ => 1) (storedEntries s 6 8) ≤ 1 →
            ents = storedEntries s 6 8 ∧ ents.length = 8 - 6) ∧
          (1 < sizeSum (fun _ => 1) (storedEntries s 6 8) → ∃ n,
            sizeSum (fun _ => 1) ((storedEntries s 6 8).take n) ≤ 1 ∧
            1 < sizeSum (fun _ => 1) ((storedEntries s 6 8).take (n + 1)) ∧
            ents = (storedEntries s 6 8).take (max 1 n))) ∧
      (entries (fun _ => 1) 1 s 6 8 1 = some (.error .errCompacted) ↔
        6 ≤ 8 ∧ 6 ≤ s.applyState.truncatedState.index) ∧
      (entries (fun _ => 1) 1 s 6 8 1 = some (.error (.lowGreaterThanHigh 1 6 8)) ↔ 8 < 6) ∧
      (entries (fun _ => 1) 1 s 6 8 1 = some (.error (.highOutOfBound 1 8 s.lastIndex)) ↔
        6 ≤ 8 ∧ s.applyState.truncatedState.index < 6 ∧ s.lastIndex + 1 < 8)) := by
  intro s₀ s
  have h₀ : RaftLogInv s₀ := @raftLogInv_newPeerStorage true s₀ rfl
  have hinv : RaftLogInv s := raftLogInv_step h₀ ⟨6, rfl, by decide, by decide, by decide⟩
  exact ⟨hinv, entries_meets_contract (fun _ => 1) 1 hinv 6 8 1⟩

/-- On a new shard, truncated at index 5, a reversed range starting at index 3
is answered with the reversed-range error, not `ErrCompacted`. -/
theorem entries_reversed_range_not_compacted :
    (newPeerStorage true).map (fun s => (s.applyState.truncatedState.index, entries (fun _ => 1) 1 s 3 2 0)) =
      some (5, some (.error (.lowGreaterThanHigh 1 3 2))) := by
  rfl

/-! ## The term of an index -/

/-- `peerStorage.Term`: the truncated term at the truncated index; past
`checkRange`, `lastTerm` when the truncated term is the last one or the index
is the last, and otherwise the term of the entry read. `none` is the `Fatalf`
of `unmarshal` on an entry stored under another index. -/
def term (shardID : UInt64) (s : RaftLogState) (idx : Nat) : Option (Except EntriesError Nat) :=
  if idx = s.applyState.truncatedState.index then some (.ok s.applyState.truncatedState.term)
  else
    match checkRange shardID s idx (idx + 1) with
    | some err => some (.error err)
    | none =>
      if s.applyState.truncatedState.term = s.lastTerm ∨ idx = s.lastIndex then some (.ok s.lastTerm)
      else
        match s.log idx with
        | none => some (.error .errUnavailable)
        | some e => if e.index ≠ idx then none else some (.ok e.term)

/-- The term of the log at an index: the truncated term at the truncated
index, and past it the term of the entry stored there. -/
def termAt (s : RaftLogState) (i : Nat) : Option Nat :=
  if i = s.applyState.truncatedState.index then some s.applyState.truncatedState.term
  else (s.log i).map (·.term)

/-- Terms do not decrease along the log, from the truncated index to the last
one. -/
def TermsNondecreasing (s : RaftLogState) : Prop :=
  ∀ i j ti tj, s.applyState.truncatedState.index ≤ i → i ≤ j → j ≤ s.lastIndex →
    termAt s i = some ti → termAt s j = some tj → ti ≤ tj

section Term

variable {s : RaftLogState}

theorem termAt_of_stored {i : Nat} {e : Entry} (hi : s.applyState.truncatedState.index < i)
    (he : s.log i = some e) : termAt s i = some e.term := by
  simp [termAt, Nat.ne_of_gt hi, he]

/-- With nondecreasing terms, a truncated term equal to the last term is the
term of every entry in between. -/
theorem term_eq_lastTerm_of_truncated (hinv : RaftLogInv s) (hmono : TermsNondecreasing s)
    (hterm : s.applyState.truncatedState.term = s.lastTerm) {i : Nat} {e : Entry}
    (hlo : s.applyState.truncatedState.index < i) (hhi : i ≤ s.lastIndex) (he : s.log i = some e) :
    e.term = s.lastTerm := by
  obtain ⟨last, hlast, hlastTerm⟩ := hinv.lastTerm_stored (by omega)
  have hbelow : s.applyState.truncatedState.term ≤ e.term :=
    hmono _ i _ _ (Nat.le_refl _) (Nat.le_of_lt hlo) hhi (by simp [termAt]) (termAt_of_stored hlo he)
  have habove : e.term ≤ last.term :=
    hmono i _ _ _ (Nat.le_of_lt hlo) hhi (Nat.le_refl _) (termAt_of_stored hlo he)
      (termAt_of_stored (by omega) hlast)
  omega

/-- The last term is the term of the entry at the last index. -/
theorem term_eq_lastTerm_of_last (hinv : RaftLogInv s) {e : Entry}
    (hlo : s.applyState.truncatedState.index < s.lastIndex) (he : s.log s.lastIndex = some e) :
    e.term = s.lastTerm := by
  obtain ⟨last, hlast, hlastTerm⟩ := hinv.lastTerm_stored hlo
  rw [he, Option.some.injEq] at hlast
  rw [hlast, hlastTerm]

/-- `Term` agrees with the log: with nondecreasing terms, every index from the
truncated one to the last is answered with the truncated term at the
truncated index, and past it with the term of the entry stored there, also
when `Term` answers `lastTerm` without reading the entry. -/
theorem term_agrees_with_log (shardID : UInt64) (hinv : RaftLogInv s) (hmono : TermsNondecreasing s)
    (idx : Nat) (hlo : s.applyState.truncatedState.index ≤ idx) (hhi : idx ≤ s.lastIndex) :
    (idx = s.applyState.truncatedState.index →
      term shardID s idx = some (.ok s.applyState.truncatedState.term)) ∧
    (s.applyState.truncatedState.index < idx →
      ∃ e, s.log idx = some e ∧ e.index = idx ∧ term shardID s idx = some (.ok e.term)) := by
  refine ⟨fun h => by simp [term, h], fun hlt => ?_⟩
  obtain ⟨e, he, hidx⟩ := hinv.stored idx hlt hhi
  refine ⟨e, he, hidx, ?_⟩
  unfold term
  rw [if_neg (Nat.ne_of_gt hlt), checkRange_eq_none (Nat.le_succ idx) hlt (by omega)]
  dsimp only
  by_cases hfast : s.applyState.truncatedState.term = s.lastTerm ∨ idx = s.lastIndex
  · -- answered from `lastTerm`: that is the entry's term
    rw [if_pos hfast]
    rcases hfast with hterm | rfl
    · rw [term_eq_lastTerm_of_truncated hinv hmono hterm hlt hhi he]
    · rw [term_eq_lastTerm_of_last hinv hlt he]
  · -- the entry is read
    rw [if_neg hfast, he]
    simp [hidx]

end Term

/-- Entries of terms 6 and 7 appended to a new shard truncated at term 5:
index 6 is neither the last index nor covered by the truncated term, and is
read from the log. -/
theorem term_agrees_with_log_two_entries :
    let s₀ : RaftLogState := ⟨fun _ => none, 5, 5, ⟨5, ⟨5, 5⟩⟩, true, 0, []⟩
    let s := raftLogStep s₀ (.appendEntries [{ term := 6, index := 6 }, { term := 7, index := 7 }])
    RaftLogInv s ∧ TermsNondecreasing s ∧ s.applyState.truncatedState.index ≤ 6 ∧ 6 ≤ s.lastIndex ∧
      (6 = s.applyState.truncatedState.index → term 1 s 6 = some (.ok s.applyState.truncatedState.term)) ∧
      (s.applyState.truncatedState.index < 6 →
        ∃ e, s.log 6 = some e ∧ e.index = 6 ∧ term 1 s 6 = some (.ok e.term)) := by
  intro s₀ s
  have h₀ : RaftLogInv s₀ := @raftLogInv_newPeerStorage true s₀ rfl
  have hinv : RaftLogInv s := raftLogInv_step h₀ ⟨6, rfl, by decide, by decide, by decide⟩
  have hmono : TermsNondecreasing s := by
    intro i j ti tj hi hij hj hti htj
    have htrunc : s.applyState.truncatedState.index = 5 := rfl
    have hlast : s.lastIndex = 7 := rfl
    obtain rfl | rfl | rfl : i = 5 ∨ i = 6 ∨ i = 7 := by omega
    all_goals
      obtain rfl | rfl | rfl : j = 5 ∨ j = 6 ∨ j = 7 := by omega
    all_goals
      simp [s, s₀, termAt, raftLogStep, doAppendEntries, writeEntries, deleteRange] at hti htj
      omega
  exact ⟨hinv, hmono, by decide, by decide, term_agrees_with_log 1 hinv hmono 6 (by decide) (by decide)⟩

end MatrixCube.Raftstore
