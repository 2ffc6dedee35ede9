import MatrixCube.Pb

/-! # Raft log storage

The raft log of a shard lives in the metadata store under
`getRaftLogKey(shard, index)`; `RaftLocalState.LastIndex` and the peer
storage's `lastTerm` describe its end, and `RaftApplyState.TruncatedState` its
logical start. Compaction is logical first (`compactRaftLog`, run when a
`CompactLog` command applies) and physical later (`doCompactRaftLog`).
-/

namespace MatrixCube.Raftstore

/-- The errors of `compactRaftLog`. -/
inductive CompactError where
  /-- `try to truncate compacted entries` -/
  | truncateCompacted
  /-- `compact index %d > applied index %d` -/
  | compactIndexAfterApplied (compactIndex appliedIndex : Nat)
  /-- `command format is outdated, please upgrade leader` (from `doExecCompactRaftLog`) -/
  | outdatedFormat
  deriving DecidableEq, Repr

/-- `compactRaftLog`: move the truncated state to `compactIndex`; the entries
themselves are deleted later. -/
def compactRaftLog (state : RaftApplyState) (compactIndex compactTerm : Nat) :
    Except CompactError RaftApplyState :=
  if compactIndex ≤ state.truncatedState.index then .error .truncateCompacted
  else if compactIndex > state.appliedIndex then
    .error (.compactIndexAfterApplied compactIndex state.appliedIndex)
  else .ok { state with truncatedState := ⟨compactIndex, compactTerm⟩ }

/-- `raftGCResult`: the new truncated state and the first index before it. -/
structure RaftGCResult where
  state : RaftTruncatedState
  firstIndex : Nat
  deriving DecidableEq, Repr

/-- `applyDelegate.doExecCompactRaftLog` on the apply context's state: `none`
in the result position is its `nil, nil, nil` for an index not past the
first one. -/
def doExecCompactRaftLog (applyState : RaftApplyState) (req : CompactLogRequest) :
    RaftApplyState × Except CompactError (Option RaftGCResult) :=
  let firstIndex := applyState.truncatedState.index + 1
  if req.compactIndex ≤ firstIndex then (applyState, .ok none)
  else if req.compactTerm = 0 then (applyState, .error .outdatedFormat)
  else
    match compactRaftLog applyState req.compactIndex req.compactTerm with
    | .error e => (applyState, .error e)
    | .ok state => (state, .ok (some ⟨state.truncatedState, firstIndex⟩))

/-! ## The log of one shard and its writers -/

/-- `raftInitLogIndex`: every raft log starts truncated at this index. -/
def raftInitLogIndex : Nat := 5

/-- `raftInitLogTerm`. -/
def raftInitLogTerm : Nat := 5

/-- A `WriteBatch.Set` of each entry under its index, in order. -/
def writeEntries (log : Nat → Option Entry) (entries : List Entry) : Nat → Option Entry :=
  entries.foldl (fun log e i => if i = e.index then some e else log i) log

/-- `WriteBatch.Delete` of the indices in `[lo, hi)`. -/
def deleteRange (log : Nat → Option Entry) (lo hi : Nat) : Nat → Option Entry :=
  fun i => if lo ≤ i ∧ i < hi then none else log i

/-- The raft log of one shard: the entries the metadata store holds under
`getRaftLogKey(shard, i)`, the peer storage's `raftLocalState.LastIndex`,
`lastTerm`, `raftApplyState`, whether the shard has peers, and the physical
compactions queued on the apply worker as `(startIndex, endIndex)`. -/
structure RaftLogState where
  log : Nat → Option Entry
  lastIndex : Nat
  lastTerm : Nat
  applyState : RaftApplyState
  initialized : Bool
  lastCompactIndex : Nat
  compactJobs : List (Nat × Nat)

/-- `peerStorage.initLastTerm`; `none` is the `Fatalf` on an index below the
initial one and the error on a missing entry. -/
def initLastTerm (log : Nat → Option Entry) (lastIndex : Nat) (truncated : RaftTruncatedState) :
    Option Nat :=
  if lastIndex = 0 then some 0
  else if lastIndex = raftInitLogIndex then some raftInitLogTerm
  else if lastIndex = truncated.index then some truncated.term
  else if lastIndex < raftInitLogIndex then none
  else (log lastIndex).map (·.term)

/-- `newPeerStorage` on a store holding what `writeInitialState` wrote for a
shard with peers, or nothing for a shard created without them. -/
def newPeerStorage (initialized : Bool) : Option RaftLogState :=
  let lastIndex := if initialized then raftInitLogIndex else 0
  let applyState : RaftApplyState :=
    if initialized then ⟨raftInitLogIndex, ⟨raftInitLogIndex, raftInitLogTerm⟩⟩ else {}
  let log : Nat → Option Entry := fun _ => none
  (initLastTerm log lastIndex applyState.truncatedState).map fun lastTerm =>
    ⟨log, lastIndex, lastTerm, applyState, initialized, 0, []⟩

/-- `peerReplica.doAppendEntries`: write the entries, delete the old tail past
the new last index, and move the last index and term. -/
def doAppendEntries (s : RaftLogState) (entries : List Entry) : RaftLogState :=
  match entries.getLast? with
  | none => s
  | some last =>
      let prevLastIndex := s.lastIndex
      { s with
        log := deleteRange (writeEntries s.log entries) (last.index + 1) (prevLastIndex + 1)
        lastIndex := last.index
        lastTerm := last.term }

/-- `peerReplica.doAppendSnapshot` with the snapshot's metadata: an initialized
shard's raft keys are cleared first (`clearMeta`); the log then starts
truncated at the snapshot. The shard becomes the snapshot's, which has
peers. -/
def doAppendSnapshot (s : RaftLogState) (index term : Nat) : RaftLogState :=
  { s with
    log := if s.initialized then fun _ => none else s.log
    lastIndex := index
    lastTerm := term
    applyState := { appliedIndex := index, truncatedState := ⟨index, term⟩ }
    initialized := true }

/-- A `CompactLog` command applied (`doExecCompactRaftLog`), with
`doApplyCompactRaftLog` queueing the physical deletion up to the new truncated
index. -/
def execCompactLog (s : RaftLogState) (req : CompactLogRequest) : RaftLogState :=
  match doExecCompactRaftLog s.applyState req with
  | (state, .ok (some gc)) =>
      let endIndex := gc.state.index + 1
      { s with applyState := state, lastCompactIndex := endIndex,
               compactJobs := s.compactJobs ++ [(s.lastCompactIndex, endIndex)] }
  | (state, _) => { s with applyState := state }

/-- `peerReplica.doCompactRaftLog(startIndex, endIndex)`. A zero start is
replaced by what the seek for the shard's first log key finds: `seek` is the
index `getRaftLogIndex` reads from that key, none when there is no key. -/
def doCompactRaftLog (log : Nat → Option Entry) (startIndex endIndex : Nat) (seek : Option Nat) :
    Nat → Option Entry :=
  let firstIndex := if startIndex = 0 then seek.getD endIndex else startIndex
  if firstIndex ≥ endIndex then log else deleteRange log firstIndex endIndex

/-- The operations on the raft log of a shard. -/
inductive RaftLogEvent where
  /-- the entries of a raft ready -/
  | appendEntries (entries : List Entry)
  /-- the snapshot of a raft ready, by its metadata -/
  | appendSnapshot (index term : Nat)
  /-- a committed entry applied, which moves the applied index -/
  | applyEntry (index : Nat)
  /-- a `CompactLog` command applied -/
  | compactLog (req : CompactLogRequest)
  /-- the apply worker runs the oldest queued `doCompactRaftLog` -/
  | compactJob (seek : Option Nat)

/-- One operation on the raft log. -/
def raftLogStep (s : RaftLogState) : RaftLogEvent → RaftLogState
  | .appendEntries entries => doAppendEntries s entries
  | .appendSnapshot index term => doAppendSnapshot s index term
  | .applyEntry index => { s with applyState.appliedIndex := index }
  | .compactLog req => execCompactLog s req
  | .compactJob seek =>
      match s.compactJobs with
      | [] => s
      | (startIndex, endIndex) :: jobs =>
          { s with log := doCompactRaftLog s.log startIndex endIndex seek, compactJobs := jobs }

/-- What raft guarantees about the operations it drives: appended entries have
consecutive indices, start past the applied index (only uncommitted entries
are replaced), past the initial index, and at most one past the last index; a
snapshot is not behind the applied index; entries apply one after another and
only once stored; a compaction's term is the term of the entry at its index. -/
def RaftContract (s : RaftLogState) : RaftLogEvent → Prop
  | .appendEntries entries =>
      ∃ first, entries.map (·.index) = List.range' first entries.length ∧
        s.applyState.appliedIndex < first ∧ raftInitLogIndex < first ∧ first ≤ s.lastIndex + 1
  | .appendSnapshot index _ => s.applyState.appliedIndex ≤ index
  | .applyEntry index => index = s.applyState.appliedIndex + 1 ∧ index ≤ s.lastIndex
  | .compactLog req => ∀ e, s.log req.compactIndex = some e → e.term = req.compactTerm
  | .compactJob _ => True

/-- The states a shard's raft log reaches from a new peer storage under raft's
guarantees. -/
inductive RaftLogReachable : RaftLogState → Prop where
  | init {initialized : Bool} {s : RaftLogState} :
      newPeerStorage initialized = some s → RaftLogReachable s
  | step {s : RaftLogState} {e : RaftLogEvent} :
      RaftLogReachable s → RaftContract s e → RaftLogReachable (raftLogStep s e)

/-! ## The invariant -/


section WriteEntries

variable {i : Nat}

/-- The update `writeEntries` makes for one entry. -/
theorem writeEntries_cons (log : Nat → Option Entry) (e : Entry) (es : List Entry) :
    writeEntries log (e :: es) = writeEntries (fun j => if j = e.index then some e else log j) es :=
  rfl

theorem writeEntries_of_forall_ne {entries : List Entry} (h : ∀ e ∈ entries, e.index ≠ i) :
    ∀ log : Nat → Option Entry, writeEntries log entries i = log i := by
  induction entries with
  | nil => intro log; rfl
  | cons e es ih =>
    intro log
    rw [writeEntries_cons, ih (fun e' he' => h e' (List.mem_cons_of_mem _ he')),
      if_neg (Ne.symm (h e List.mem_cons_self))]

/-- The entry `writeEntries` leaves at an index written by some entry has that index. -/
theorem writeEntries_exists {entries : List Entry} (h : ∃ e ∈ entries, e.index = i) :
    ∀ log : Nat → Option Entry, ∃ e, writeEntries log entries i = some e ∧ e.index = i := by
  induction entries with
  | nil => simp at h
  | cons e es ih =>
    intro log
    rw [writeEntries_cons]
    by_cases hrest : ∃ e' ∈ es, e'.index = i
    · exact ih hrest _
    · -- no later entry writes `i`, so the head's write stands
      have he : e.index = i := by
        obtain ⟨e', he', hidx⟩ := h
        rcases List.mem_cons.mp he' with rfl | hmem
        · exact hidx
        · exact absurd ⟨e', hmem, hidx⟩ hrest
      push Not at hrest
      rw [writeEntries_of_forall_ne hrest, if_pos he.symm]
      exact ⟨e, rfl, he⟩

/-- The last entry written is what its index holds. -/
theorem writeEntries_concat (log : Nat → Option Entry) (es : List Entry) (e : Entry) :
    writeEntries log (es ++ [e]) e.index = some e := by
  simp [writeEntries, List.foldl_append]

end WriteEntries

theorem deleteRange_of_not_mem {log : Nat → Option Entry} {lo hi i : Nat} (h : ¬(lo ≤ i ∧ i < hi)) :
    deleteRange log lo hi i = log i := if_neg h

theorem doCompactRaftLog_of_le {log : Nat → Option Entry} {startIndex endIndex i : Nat}
    {seek : Option Nat} (h : endIndex ≤ i) :
    doCompactRaftLog log startIndex endIndex seek i = log i := by
  unfold doCompactRaftLog
  -- whatever the start, the deleted indices stay below `endIndex`
  split_ifs <;> first | rfl | exact deleteRange_of_not_mem (by omega)

theorem doCompactRaftLog_eq_none {log : Nat → Option Entry} {startIndex endIndex i : Nat}
    {seek : Option Nat} (h : log i = none) :
    doCompactRaftLog log startIndex endIndex seek i = none := by
  unfold doCompactRaftLog deleteRange
  split_ifs <;> simp [h]

/-- What `doExecCompactRaftLog` can do: leave the apply state as it is and
return no result, or truncate it at a compact index past the truncated one and
not past the applied one. -/
theorem doExecCompactRaftLog_cases (st : RaftApplyState) (req : CompactLogRequest) :
    (∃ r, doExecCompactRaftLog st req = (st, r) ∧ ∀ gc, r ≠ .ok (some gc)) ∨
      (st.truncatedState.index < req.compactIndex ∧ req.compactIndex ≤ st.appliedIndex ∧
        doExecCompactRaftLog st req =
          ({ st with truncatedState := ⟨req.compactIndex, req.compactTerm⟩ },
            .ok (some ⟨⟨req.compactIndex, req.compactTerm⟩, st.truncatedState.index + 1⟩))) := by
  -- the checks in the order the code makes them
  by_cases hfirst : req.compactIndex ≤ st.truncatedState.index + 1
  · exact .inl ⟨.ok none, by simp [doExecCompactRaftLog, hfirst], by simp⟩
  by_cases hterm : req.compactTerm = 0
  · exact .inl ⟨.error .outdatedFormat, by simp [doExecCompactRaftLog, hfirst, hterm], by simp⟩
  have htrunc : ¬req.compactIndex ≤ st.truncatedState.index := by omega
  by_cases happ : req.compactIndex > st.appliedIndex
  · exact .inl ⟨.error (.compactIndexAfterApplied req.compactIndex st.appliedIndex),
      by simp [doExecCompactRaftLog, compactRaftLog, hfirst, hterm, htrunc, happ], by simp⟩
  · exact .inr ⟨by omega, by omega,
      by simp [doExecCompactRaftLog, compactRaftLog, hfirst, hterm, htrunc, happ]⟩

/-- A compaction result starts its first index below the new truncated index,
which the apply state has applied. -/
theorem doExecCompactRaftLog_gc {st st' : RaftApplyState} {req : CompactLogRequest} {gc : RaftGCResult}
    (h : doExecCompactRaftLog st req = (st', .ok (some gc))) :
    gc.firstIndex < gc.state.index ∧ gc.state.index ≤ st.appliedIndex := by
  simp only [doExecCompactRaftLog, compactRaftLog] at h
  split_ifs at h with hfirst hterm htrunc happ <;> simp at h
  -- the compaction went through: the result is built from the request
  obtain ⟨-, rfl⟩ := h
  exact ⟨by dsimp only; omega, by dsimp only; omega⟩

/-- `execCompactLog` either changes nothing or truncates the log and queues the
deletion up to the new truncated index. -/
theorem execCompactLog_cases (s : RaftLogState) (req : CompactLogRequest) :
    execCompactLog s req = s ∨
      (s.applyState.truncatedState.index < req.compactIndex ∧
        req.compactIndex ≤ s.applyState.appliedIndex ∧
        execCompactLog s req =
          { s with applyState.truncatedState := ⟨req.compactIndex, req.compactTerm⟩
                   lastCompactIndex := req.compactIndex + 1
                   compactJobs := s.compactJobs ++ [(s.lastCompactIndex, req.compactIndex + 1)] }) := by
  rcases doExecCompactRaftLog_cases s.applyState req with ⟨r, hr, hnot⟩ | ⟨htrunc, happ, hr⟩
  · left
    unfold execCompactLog
    rw [hr]
    split
    · rename_i gc heq
      exact (hnot gc (by cases heq; rfl)).elim
    · rename_i heq
      cases heq; rfl
  · right
    refine ⟨htrunc, happ, ?_⟩
    unfold execCompactLog
    rw [hr]

/-- The raft log invariant: the entries between the truncated and the last
index are stored at their own index, nothing is stored past the last index,
and `lastTerm` is the term at the last index; the applied index lies between
the truncated and the last one; a storage without peers has an empty log; and
every queued deletion stays at or below the truncated index. -/
structure RaftLogInv (s : RaftLogState) : Prop where
  truncated_le_applied : s.applyState.truncatedState.index ≤ s.applyState.appliedIndex
  applied_le_last : s.applyState.appliedIndex ≤ s.lastIndex
  stored : ∀ i, s.applyState.truncatedState.index < i → i ≤ s.lastIndex →
    ∃ e, s.log i = some e ∧ e.index = i
  none_past_last : ∀ i, s.lastIndex < i → s.log i = none
  lastTerm_truncated : s.lastIndex = s.applyState.truncatedState.index →
    s.lastTerm = s.applyState.truncatedState.term
  lastTerm_stored : s.applyState.truncatedState.index < s.lastIndex →
    ∃ e, s.log s.lastIndex = some e ∧ e.term = s.lastTerm
  uninitialized : s.initialized = false → s.lastIndex = 0
  jobs_le : ∀ j ∈ s.compactJobs, j.2 ≤ s.applyState.truncatedState.index + 1

theorem raftLogInv_newPeerStorage {initialized : Bool} {s : RaftLogState}
    (h : newPeerStorage initialized = some s) : RaftLogInv s := by
  cases initialized <;>
    · simp only [newPeerStorage, initLastTerm, raftInitLogIndex, raftInitLogTerm] at h
      cases h
      constructor <;> simp <;> omega

section Step

variable {s : RaftLogState}

/-- The indices of consecutive entries: all lie in `[first, last]`, and each
index there is written by one of them. -/
theorem consecutive_indices {entries : List Entry} {first : Nat} {last : Entry}
    (hidx : entries.map (·.index) = List.range' first entries.length)
    (hlast : entries.getLast? = some last) :
    last.index + 1 = first + entries.length ∧
      (∀ e ∈ entries, first ≤ e.index ∧ e.index ≤ last.index) ∧
      ∀ i, first ≤ i → i ≤ last.index → ∃ e ∈ entries, e.index = i := by
  obtain ⟨init, rfl⟩ := List.getLast?_eq_some_iff.mp hlast
  have hlen : (init ++ [last]).length = init.length + 1 := by simp
  rw [hlen, List.range'_concat, List.map_append] at hidx
  have hlastIdx : last.index = first + init.length := by
    simpa using List.append_inj_right' hidx (by simp)
  have hmem : ∀ i, i ∈ (init ++ [last]).map (·.index) ↔ first ≤ i ∧ i < first + (init.length + 1) := by
    intro i
    rw [List.map_append, hidx, ← List.range'_concat, List.mem_range'_1]
  refine ⟨by rw [hlen]; omega, fun e he => ?_, fun i h1 h2 => ?_⟩
  · have := (hmem e.index).mp (List.mem_map_of_mem he)
    omega
  · obtain ⟨e, he, hi⟩ := List.mem_map.mp ((hmem i).mpr ⟨h1, by omega⟩)
    exact ⟨e, he, hi⟩

/-- `doAppendEntries` keeps the invariant: the new entries are stored at their
indices, the replaced tail past the new last index is deleted. -/
theorem raftLogInv_appendEntries {entries : List Entry} (hinv : RaftLogInv s)
    (hc : RaftContract s (.appendEntries entries)) :
    RaftLogInv (doAppendEntries s entries) := by
  obtain ⟨first, hidx, happ, hinit, hfirst⟩ := hc
  cases hlast : entries.getLast? with
  | none => simpa [doAppendEntries, hlast] using hinv
  | some last =>
    obtain ⟨-, hbounds, hcover⟩ := consecutive_indices hidx hlast
    have hwritten : ∀ i, last.index < i → writeEntries s.log entries i = s.log i := fun i hi =>
      writeEntries_of_forall_ne (fun e he => by have := hbounds e he; omega) _
    have hfirstLast : first ≤ last.index := (hbounds last (List.mem_of_getLast? hlast)).1
    have hinitialized : s.initialized = true := by
      cases hi : s.initialized
      · have := hinv.uninitialized hi
        simp only [raftInitLogIndex] at hinit
        omega
      · rfl
    obtain ⟨init, rfl⟩ := List.getLast?_eq_some_iff.mp hlast
    simp only [doAppendEntries, hlast]
    constructor
    · exact hinv.truncated_le_applied
    · simp only; omega
    · intro i htrunc hi
      simp only at htrunc hi ⊢
      rw [deleteRange_of_not_mem (by omega)]
      by_cases hnew : first ≤ i
      · exact writeEntries_exists (hcover i hnew hi) _
      · -- an older entry, below every written one and not in the deleted tail
        rw [writeEntries_of_forall_ne (fun e he => by have := hbounds e he; omega)]
        exact hinv.stored i htrunc (by omega)
    · intro i hi
      simp only at hi ⊢
      by_cases hdel : i < s.lastIndex + 1
      · exact if_pos ⟨by omega, hdel⟩
      · rw [deleteRange_of_not_mem (by omega), hwritten i hi]
        exact hinv.none_past_last i (by omega)
    · intro h
      simp only at h
      have := hinv.truncated_le_applied
      omega
    · intro _
      simp only
      rw [deleteRange_of_not_mem (by omega), writeEntries_concat]
      exact ⟨last, rfl, rfl⟩
    · simp [hinitialized]
    · exact hinv.jobs_le

/-- `doAppendSnapshot` keeps the invariant: the log restarts truncated at the
snapshot, and what an initialized shard stored is cleared. -/
theorem raftLogInv_appendSnapshot {index term : Nat} (hinv : RaftLogInv s)
    (hc : RaftContract s (.appendSnapshot index term)) :
    RaftLogInv (doAppendSnapshot s index term) := by
  have happ : s.applyState.appliedIndex ≤ index := hc
  constructor
  · exact le_rfl
  · exact le_rfl
  · intro i h1 h2
    exact absurd h2 (by simp only [doAppendSnapshot] at h1 ⊢; omega)
  · intro i hi
    simp only [doAppendSnapshot] at hi ⊢
    cases hinit : s.initialized
    · -- a shard without peers has stored nothing past index zero
      simpa using hinv.none_past_last i (by rw [hinv.uninitialized hinit]; omega)
    · rfl
  · intro _; rfl
  · intro h
    simp only [doAppendSnapshot] at h
    omega
  · intro h
    simp [doAppendSnapshot] at h
  · intro j hj
    have := hinv.jobs_le j hj
    have := hinv.truncated_le_applied
    simp only [doAppendSnapshot]
    omega

theorem raftLogInv_applyEntry {index : Nat} (hinv : RaftLogInv s)
    (hc : RaftContract s (.applyEntry index)) :
    RaftLogInv { s with applyState.appliedIndex := index } := by
  obtain ⟨hnext, hstored⟩ := hc
  have := hinv.truncated_le_applied
  exact ⟨by simp only; omega, hstored, hinv.stored, hinv.none_past_last, hinv.lastTerm_truncated,
    hinv.lastTerm_stored, hinv.uninitialized, hinv.jobs_le⟩

/-- A `CompactLog` keeps the invariant: the new truncated index is at most the
applied one, its term is the term stored there, and the deletion it queues
stops at it. -/
theorem raftLogInv_compactLog {req : CompactLogRequest} (hinv : RaftLogInv s)
    (hc : RaftContract s (.compactLog req)) :
    RaftLogInv (execCompactLog s req) := by
  rcases execCompactLog_cases s req with heq | ⟨htrunc, happ, heq⟩
  · rwa [heq]
  rw [heq]
  have hlast := hinv.applied_le_last
  constructor
  · exact happ
  · exact hlast
  · intro i h1 h2
    exact hinv.stored i (by simp only at h1; omega) h2
  · exact hinv.none_past_last
  · intro h
    simp only at h ⊢
    -- the last entry is the one at the compact index, whose term the request carries
    have hcompact : ∀ e, s.log req.compactIndex = some e → e.term = req.compactTerm := hc
    obtain ⟨e, he, hterm⟩ := hinv.lastTerm_stored (by omega)
    exact hterm.symm.trans (hcompact e (h ▸ he))
  · intro h
    exact hinv.lastTerm_stored (by simp only at h; omega)
  · exact hinv.uninitialized
  · intro j hj
    simp only [List.mem_append, List.mem_singleton] at hj ⊢
    rcases hj with hj | rfl
    · have := hinv.jobs_le j hj
      omega
    · exact le_rfl

/-- A queued `doCompactRaftLog` keeps the invariant: it deletes only at or below
the truncated index. -/
theorem raftLogInv_compactJob {seek : Option Nat} (hinv : RaftLogInv s) :
    RaftLogInv (raftLogStep s (.compactJob seek)) := by
  simp only [raftLogStep]
  split
  · exact hinv
  · rename_i startIndex endIndex jobs hjobs
    have hend : endIndex ≤ s.applyState.truncatedState.index + 1 :=
      hinv.jobs_le _ (by rw [hjobs]; exact List.mem_cons_self)
    constructor
    · exact hinv.truncated_le_applied
    · exact hinv.applied_le_last
    · intro i h1 h2
      simp only at h1 h2 ⊢
      rw [doCompactRaftLog_of_le (by omega)]
      exact hinv.stored i h1 h2
    · intro i hi
      exact doCompactRaftLog_eq_none (hinv.none_past_last i hi)
    · exact hinv.lastTerm_truncated
    · intro h
      simp only at h ⊢
      rw [doCompactRaftLog_of_le (by omega)]
      exact hinv.lastTerm_stored h
    · exact hinv.uninitialized
    · intro j hj
      exact hinv.jobs_le j (by rw [hjobs]; exact List.mem_cons_of_mem _ hj)

/-- One operation under raft's guarantees keeps the invariant. -/
theorem raftLogInv_step {e : RaftLogEvent} (hinv : RaftLogInv s) (hc : RaftContract s e) :
    RaftLogInv (raftLogStep s e) := by
  cases e with
  | appendEntries entries => exact raftLogInv_appendEntries hinv hc
  | appendSnapshot index term => exact raftLogInv_appendSnapshot hinv hc
  | applyEntry index => exact raftLogInv_applyEntry hinv hc
  | compactLog req => exact raftLogInv_compactLog hinv hc
  | compactJob seek => exact raftLogInv_compactJob hinv

end Step

/-- Every state the raft log of a shard reaches from a new peer storage keeps
the raft log invariant. -/
theorem raftLogReachable_inv {s : RaftLogState} (h : RaftLogReachable s) : RaftLogInv s := by
  induction h with
  | init hnew => exact raftLogInv_newPeerStorage hnew
  | step _ hc ih => exact raftLogInv_step ih hc

/-- Two entries appended to a new initialized shard. -/
theorem raftLogReachable_inv_two_entries :
    let s₀ : RaftLogState := ⟨fun _ => none, 5, 5, ⟨5, ⟨5, 5⟩⟩, true, 0, []⟩
    let s := raftLogStep s₀ (.appendEntries [{ term := 6, index := 6 }, { term := 6, index := 7 }])
    newPeerStorage true = some s₀ ∧ RaftLogReachable s ∧ RaftLogInv s := by
  intro s₀ s
  have h₀ : newPeerStorage true = some s₀ := rfl
  have h : RaftLogReachable s :=
    RaftLogReachable.step (RaftLogReachable.init h₀) ⟨6, rfl, by decide, by decide, by decide⟩
  exact ⟨h₀, h, raftLogReachable_inv h⟩

end MatrixCube.Raftstore
