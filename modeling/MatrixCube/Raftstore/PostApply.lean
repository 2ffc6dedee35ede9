import MatrixCube.Raftstore.Apply

/-! # The raft loop around the apply worker

A peer's raft loop (`peerReplica`, `peer_event_raft_ready.go`,
`peer_event_post_apply.go`) hands the committed entries of each ready to its
apply worker, a FIFO queue of jobs, after moving `lastReadyIndex` to the last
of them; a ready that brings a snapshot moves it to the snapshot's index
instead. The worker applies the entries with the shard's delegate and queues
one result per entry back to the peer, which handles them in order. A
`CompactLog` entry yields a `raftGCResult`, which `doApplyCompactRaftLog`
turns into a new size hint, by a `uint64` division by the length of the log
before the compaction, and a physical compaction job for the worker.

The post-apply of the other exec results (membership changes, splits) is not
modelled here, and neither are the parts of a ready that do not touch the
apply path (appending, messages, reads).
-/

namespace MatrixCube.Raftstore

/-! ## What the apply worker hands back -/

/-- An admin executor returns a compaction result only for `CompactLog`, and
that result truncates at an index the apply state has applied. -/
theorem execAdminRequest_raftGCResult {d d' : ApplyDelegate} {st st' : RaftApplyState} {index : Nat}
    {admin : AdminRequest} {gc : RaftGCResult}
    (h : execAdminRequest d st index admin = some (d', st', .done (.raftGCResult gc))) :
    gc.firstIndex < gc.state.index ∧ gc.state.index ≤ st.appliedIndex := by
  unfold execAdminRequest at h
  -- the other executors return their own kinds of result
  split at h
  · split at h
    split at h <;> simp at h
  · obtain ⟨_, -, h⟩ := Option.map_eq_some_iff.mp h
    split at h
    split at h <;> simp at h
  · obtain ⟨_, -, h⟩ := Option.map_eq_some_iff.mp h
    split at h
    split at h <;> simp at h
  · -- `CompactLog`: the executor's result
    split at h
    · rename_i gc' hexec
      simp only [Option.some.injEq, Prod.mk.injEq, AdminOutcome.done.injEq, ExecResult.raftGCResult.injEq] at h
      obtain ⟨-, -, rfl⟩ := h
      exact doExecCompactRaftLog_gc hexec
    · simp at h
    · simp at h
  · simp at h

theorem execRaftCMD_raftGCResult {d d' : ApplyDelegate} {index : Nat} {req : RaftCMDRequest}
    {st : RaftApplyState} {resp : Option Reply} {gc : RaftGCResult}
    (h : execRaftCMD d index req = some (d', st, resp, some (.raftGCResult gc))) :
    gc.firstIndex < gc.state.index ∧ gc.state.index ≤ d.applyState.appliedIndex := by
  unfold execRaftCMD at h
  split_ifs at h
  · -- a stale epoch returns no result
    obtain ⟨_, -, h⟩ := Option.map_eq_some_iff.mp h
    simp at h
  · split at h
    · obtain ⟨⟨d₁, st₁, out⟩, hexec, h⟩ := Option.bind_eq_some_iff.mp h
      dsimp only at h
      split at h
      · simp only [Option.some.injEq, Prod.mk.injEq] at h
        obtain ⟨-, -, -, h⟩ := h
        subst h
        exact execAdminRequest_raftGCResult hexec
      · simp at h
      · obtain ⟨_, -, h⟩ := Option.map_eq_some_iff.mp h
        simp at h
    · simp at h

theorem doApplyRaftCMD_raftGCResult {d d' : ApplyDelegate} {index term : Nat} {req : RaftCMDRequest}
    {gc : RaftGCResult} (h : doApplyRaftCMD d index term req = some (d', some (.raftGCResult gc))) :
    gc.firstIndex < gc.state.index ∧ gc.state.index ≤ d.applyState.appliedIndex := by
  obtain ⟨d₁, c, d₂, st, resp, -, hfind, -, hexec, -⟩ := doApplyRaftCMD_eq_some h
  -- `findCB` leaves the apply state alone
  have hst : d₁.applyState = d.applyState := congrArg (·.2.2.2.1) (findCB_core hfind)
  rw [← hst]
  exact execRaftCMD_raftGCResult hexec

/-- An entry without a command returns no result. -/
theorem applyEntry_raftGCResult {d d' : ApplyDelegate} {entry : Entry} {gc : RaftGCResult}
    (h : applyEntry d entry = some (d', some (.raftGCResult gc))) :
    gc.firstIndex < gc.state.index ∧ gc.state.index ≤ d.applyState.appliedIndex := by
  unfold applyEntry at h
  split at h
  · exact doApplyRaftCMD_raftGCResult h
  · split_ifs at h
    obtain ⟨_, -, h⟩ := Option.map_eq_some_iff.mp h
    simp at h

/-- A conf change passes on the result of its command. -/
theorem applyConfChange_raftGCResult {d d' : ApplyDelegate} {entry : Entry} {gc : RaftGCResult}
    (h : applyConfChange d entry = some (d', some (.raftGCResult gc))) :
    gc.firstIndex < gc.state.index ∧ gc.state.index ≤ d.applyState.appliedIndex := by
  simp only [applyConfChange, Option.bind_eq_bind, Option.bind_eq_some_iff] at h
  obtain ⟨req, -, ⟨d₁, res⟩, happly, h⟩ := h
  cases res with
  | none => simp at h
  | some r =>
    simp only [Option.pure_def, Option.some.injEq, Prod.mk.injEq] at h
    obtain ⟨-, rfl⟩ := h
    exact doApplyRaftCMD_raftGCResult happly

/-- The apply loop: every compaction result it hands back was made by an
entry of the batch, and truncates below that entry's index, since the entry
applies right after the delegate's applied index. -/
theorem applyCommittedEntries_raftGCResult :
    ∀ {d d' : ApplyDelegate} {entries : List Entry} {rs : List AsyncApplyResult},
      applyCommittedEntries d entries = some (d', rs) →
      ∀ r ∈ rs, ∀ gc, r.result = some (.raftGCResult gc) →
        gc.firstIndex < gc.state.index ∧ ∃ e ∈ entries, gc.state.index < e.index := by
  intro d d' entries rs h
  induction entries generalizing d rs with
  | nil => cases h; simp
  | cons entry entries ih =>
    unfold applyCommittedEntries at h
    split_ifs at h with hrem hnext
    · cases h; simp
    -- the entry's own result, from `applyEntry` or `applyConfChange`
    obtain ⟨⟨d₁, result⟩, hbound, ⟨d₂, rs'⟩, hrest, h⟩ : ∃ a : ApplyDelegate × Option ExecResult,
        (∀ gc, a.2 = some (.raftGCResult gc) →
          gc.firstIndex < gc.state.index ∧ gc.state.index ≤ d.applyState.appliedIndex) ∧
        ∃ b, applyCommittedEntries a.1 entries = some b ∧
          pure (b.1, (⟨a.1.shard.id, a.1.appliedIndexTerm, a.1.applyState, a.2⟩ : AsyncApplyResult) :: b.2) =
            some (d', rs) := by
      cases htype : entry.type <;> simp only [htype, Option.bind_eq_bind, Option.bind_eq_some_iff] at h <;>
        obtain ⟨⟨d₁, result⟩, ha, hb⟩ := h
      · exact ⟨(d₁, result), fun gc (hgc : result = _) => applyEntry_raftGCResult (hgc ▸ ha), hb⟩
      · exact ⟨(d₁, result), fun gc (hgc : result = _) => applyConfChange_raftGCResult (hgc ▸ ha), hb⟩
      · exact ⟨(d₁, result), fun gc (hgc : result = _) => applyConfChange_raftGCResult (hgc ▸ ha), hb⟩
    simp only [Option.pure_def, Option.some.injEq, Prod.mk.injEq] at h
    obtain ⟨rfl, rfl⟩ := h
    intro r hr gc hgc
    rcases List.mem_cons.mp hr with rfl | hr
    · obtain ⟨hfirst, happ⟩ := hbound gc hgc
      exact ⟨hfirst, entry, List.mem_cons_self, by omega⟩
    · obtain ⟨hfirst, e, he, hlt⟩ := ih hrest r hr gc hgc
      exact ⟨hfirst, e, List.mem_cons_of_mem _ he, hlt⟩

/-! ## The peer -/

/-- `peerReplica.doApplyCommittedEntries`, with the results the delegate
hands to the peer (`pr.addApplyResult`). Without a delegate it returns an
error and applies nothing. -/
def doApplyCommittedEntries (slot : DelegateSlot) (term : Nat) (entries : List Entry) :
    Option (DelegateSlot × List AsyncApplyResult) :=
  match slot.delegate with
  | none => some (slot, [])
  | some d => do
      let (d, rs) ← applyCommittedEntries { d with term := term } entries
      if d.pendingRemove then
        let d ← destroy d
        pure (slot.put none d.replies, rs)
      else pure (slot.put (some d) d.replies, rs)

/-- A job of the peer's apply worker. -/
inductive ApplyJob where
  /-- `startApplyCommittedEntriesJob` -/
  | applyCommittedEntries (term : Nat) (entries : List Entry)
  /-- `startRegistrationJob` -/
  | registration (delegate : ApplyDelegate)
  /-- `startCompactRaftLogJob`; the deletion is `doCompactRaftLog` of the raft
  log model -/
  | compactRaftLog (startIndex endIndex : Nat)

/-- The part of `peerReplica` and its `peerStorage` that the apply path reads
and writes, with the shard's slot in `store.delegates`, the apply worker's
queue and the queue `applyResults`. -/
structure PeerApply where
  peerID : UInt64
  shard : Shard
  lastReadyIndex : Nat
  raftApplyState : RaftApplyState
  appliedIndexTerm : Nat
  applyingSnapshot : Bool
  raftLogSizeHint : UInt64
  lastCompactIndex : Nat
  slot : DelegateSlot
  jobs : List ApplyJob
  applyResults : List AsyncApplyResult

namespace PeerApply

/-- `peerReplica.startRegistrationJob`: a delegate of the peer's shard and
apply state, in raft term `term`. -/
def startRegistrationJob (pr : PeerApply) (term : Nat) : PeerApply :=
  let delegate : ApplyDelegate :=
    { peerID := pr.peerID, shard := pr.shard, term := term, applyState := pr.raftApplyState,
      appliedIndexTerm := pr.appliedIndexTerm }
  { pr with jobs := pr.jobs ++ [.registration delegate] }

/-- `peerReplica.applyCommittedEntries`, after a snapshot was applied in this
ready (`snapApplied`) or not; `entrySize` is `len(entry.Data)`. With no
delegate registered the entries are left for a later ready. -/
def applyCommittedEntries (pr : PeerApply) (snapApplied : Bool) (term : Nat) (entrySize : Entry → Nat)
    (entries : List Entry) : PeerApply :=
  if snapApplied || pr.applyingSnapshot then
    { pr with lastReadyIndex := pr.raftApplyState.truncatedState.index }
  else if pr.slot.delegate.isNone then pr
  else
    let pr := { pr with raftLogSizeHint := pr.raftLogSizeHint + UInt64.ofNat (entries.map entrySize).sum }
    match entries.getLast? with
    | none => pr
    | some last => { pr with lastReadyIndex := last.index, jobs := pr.jobs ++ [.applyCommittedEntries term entries] }

/-- `peerReplica.handleReady` on the apply path, for a ready in raft term
`term` with the snapshot `snap` (its index, term and shard) and the committed
entries `entries`. Nothing happens while a snapshot is being applied. A
snapshot replaces the apply state, resets the size hint, starts being applied
and registers a new delegate. -/
def handleReady (pr : PeerApply) (snap : Option (Nat × Nat × Shard)) (term : Nat) (entrySize : Entry → Nat)
    (entries : List Entry) : PeerApply :=
  if pr.applyingSnapshot then pr
  else
    match snap with
    | none => pr.applyCommittedEntries false term entrySize entries
    | some (index, snapTerm, shard) =>
      let pr :=
        { pr with
          raftLogSizeHint := 0, shard := shard, applyingSnapshot := true
          raftApplyState := { appliedIndex := index, truncatedState := ⟨index, snapTerm⟩ } }
      (pr.startRegistrationJob term).applyCommittedEntries true term entrySize entries

/-- The apply worker runs its oldest job; `none` is a `Fatalf` of the
delegate. -/
def runJob (pr : PeerApply) : Option PeerApply :=
  match pr.jobs with
  | [] => some pr
  | .applyCommittedEntries term entries :: jobs =>
    (doApplyCommittedEntries pr.slot term entries).map fun (slot, rs) =>
      { pr with slot := slot, jobs := jobs, applyResults := pr.applyResults ++ rs }
  | .registration d :: jobs => (delegateStep pr.slot (.register d)).map fun slot => { pr with slot := slot, jobs := jobs }
  | .compactRaftLog _ _ :: jobs => some { pr with jobs := jobs }

/-- `peerReplica.doApplyCompactRaftLog`, in `uint64` arithmetic: it scales the
size hint by the part of the log the compaction leaves and queues the
physical compaction. `none` is the run-time panic of a division by zero. -/
def doApplyCompactRaftLog (pr : PeerApply) (result : RaftGCResult) : Option PeerApply :=
  let total := UInt64.ofNat pr.lastReadyIndex - UInt64.ofNat result.firstIndex
  let remain := UInt64.ofNat pr.lastReadyIndex - UInt64.ofNat result.state.index - 1
  if total = 0 then none
  else
    let startIndex := pr.lastCompactIndex
    let endIndex := result.state.index + 1
    some
      { pr with
        raftLogSizeHint := pr.raftLogSizeHint * remain / total, lastCompactIndex := endIndex
        jobs := pr.jobs ++ [.compactRaftLog startIndex endIndex] }

/-- `peerReplica.doPollApply` on the oldest apply result: `doPostApply`, then
the post-apply of a compaction. `none` is the `Fatalf` while a snapshot is
being applied. -/
def doPollApply (pr : PeerApply) : Option PeerApply :=
  match pr.applyResults with
  | [] => some pr
  | r :: rs =>
    if pr.applyingSnapshot then none
    else
      let pr := { pr with applyResults := rs, raftApplyState := r.applyState, appliedIndexTerm := r.appliedIndexTerm }
      match r.result with
      | some (.raftGCResult gc) => pr.doApplyCompactRaftLog gc
      | _ => some pr

end PeerApply

/-- The events of the apply path of a peer. -/
inductive PeerEvent where
  /-- `handleReady` -/
  | ready (snap : Option (Nat × Nat × Shard)) (term : Nat) (entries : List Entry)
  /-- the job applying a snapshot completes -/
  | snapshotApplied
  /-- the apply worker runs a job -/
  | runJob
  /-- `handleApplyResult` handles one result -/
  | pollApply

/-- One event; `none` is a crash. -/
def peerStep (entrySize : Entry → Nat) (pr : PeerApply) : PeerEvent → Option PeerApply
  | .ready snap term entries => some (pr.handleReady snap term entrySize entries)
  | .snapshotApplied => some { pr with applyingSnapshot := false }
  | .runJob => pr.runJob
  | .pollApply => pr.doPollApply

/-- What raft guarantees about a ready (`ReadySince(lastReadyIndex)`): its
committed entries follow `lastReadyIndex` one after another, and its snapshot
is past the committed index, which `lastReadyIndex` does not exceed. Indices
are `uint64`. -/
def PeerContract (pr : PeerApply) : PeerEvent → Prop
  | .ready (some (index, _, _)) _ _ => pr.lastReadyIndex ≤ index ∧ index < 2 ^ 64
  | .ready none _ entries =>
    entries.map (·.index) = List.range' (pr.lastReadyIndex + 1) entries.length ∧
      pr.lastReadyIndex + entries.length < 2 ^ 64
  | _ => True

/-- The states of the apply path from a peer with nothing dispatched, under
raft's guarantees. -/
inductive PeerReachable (entrySize : Entry → Nat) : PeerApply → Prop where
  | init {pr : PeerApply} : pr.lastReadyIndex < 2 ^ 64 → pr.applyingSnapshot = false → pr.jobs = [] →
      pr.applyResults = [] → PeerReachable entrySize pr
  | step {pr pr' : PeerApply} {ev : PeerEvent} : PeerReachable entrySize pr → PeerContract pr ev →
      peerStep entrySize pr ev = some pr' → PeerReachable entrySize pr'

/-- The invariant of the apply path: every entry dispatched to the worker and
every compaction result waiting for the peer lies at or below
`lastReadyIndex`, the results truncate past their first index, and while a
snapshot is applied `lastReadyIndex` is its index. -/
structure PeerApplyInv (pr : PeerApply) : Prop where
  lastReadyIndex_lt : pr.lastReadyIndex < 2 ^ 64
  jobs : ∀ term entries, ApplyJob.applyCommittedEntries term entries ∈ pr.jobs →
    ∀ e ∈ entries, e.index ≤ pr.lastReadyIndex
  results : ∀ r ∈ pr.applyResults, ∀ gc, r.result = some (.raftGCResult gc) →
    gc.firstIndex < gc.state.index ∧ gc.state.index < pr.lastReadyIndex
  snapshot : pr.applyingSnapshot = true → pr.raftApplyState.truncatedState.index = pr.lastReadyIndex

section Invariant

variable {entrySize : Entry → Nat} {pr : PeerApply}

/-- The results of `doApplyCommittedEntries` are those of the apply loop. -/
theorem doApplyCommittedEntries_raftGCResult {slot slot' : DelegateSlot} {term : Nat} {entries : List Entry}
    {rs : List AsyncApplyResult} (h : doApplyCommittedEntries slot term entries = some (slot', rs)) :
    ∀ r ∈ rs, ∀ gc, r.result = some (.raftGCResult gc) →
      gc.firstIndex < gc.state.index ∧ ∃ e ∈ entries, gc.state.index < e.index := by
  unfold doApplyCommittedEntries at h
  split at h
  · cases h; simp
  · obtain ⟨⟨d, rs'⟩, happly, h⟩ := Option.bind_eq_some_iff.mp h
    have hrs : rs = rs' := by
      dsimp only at h
      split_ifs at h
      · obtain ⟨_, -, h⟩ := Option.bind_eq_some_iff.mp h
        simp only [Option.pure_def, Option.some.injEq, Prod.mk.injEq] at h
        exact h.2.symm
      · simp only [Option.pure_def, Option.some.injEq, Prod.mk.injEq] at h
        exact h.2.symm
    rw [hrs]
    exact applyCommittedEntries_raftGCResult happly

/-- The entries raft hands out after `lastReadyIndex` end at the last of
them, past it. -/
theorem index_le_getLast {a : Nat} {entries : List Entry} {last : Entry}
    (hidx : entries.map (·.index) = List.range' (a + 1) entries.length) (hlast : entries.getLast? = some last) :
    last.index = a + entries.length ∧ ∀ e ∈ entries, e.index ≤ last.index := by
  have hpos : 0 < entries.length := List.length_pos_of_mem (List.mem_of_getLast? hlast)
  have hl : last.index = a + entries.length := by
    have h := congrArg List.getLast? hidx
    rw [List.getLast?_map, hlast, List.getLast?_eq_getElem?, List.length_range',
      List.getElem?_range' (by omega)] at h
    simp only [Option.map_some, Option.some.injEq] at h
    omega
  refine ⟨hl, fun e he => ?_⟩
  have hmem : e.index ∈ List.range' (a + 1) entries.length := hidx ▸ List.mem_map_of_mem he
  rw [List.mem_range'_1] at hmem
  omega

/-- The invariant after a step that moves `lastReadyIndex` up, keeps the
results, and dispatches no entry past the new `lastReadyIndex`. -/
theorem PeerApplyInv.of_le {pr' : PeerApply} (hinv : PeerApplyInv pr)
    (hle : pr.lastReadyIndex ≤ pr'.lastReadyIndex) (hlt : pr'.lastReadyIndex < 2 ^ 64)
    (hjobs : ∀ term entries, ApplyJob.applyCommittedEntries term entries ∈ pr'.jobs →
      ApplyJob.applyCommittedEntries term entries ∈ pr.jobs ∨ ∀ e ∈ entries, e.index ≤ pr'.lastReadyIndex)
    (hres : pr'.applyResults = pr.applyResults)
    (hsnap : pr'.applyingSnapshot = true → pr'.raftApplyState.truncatedState.index = pr'.lastReadyIndex) :
    PeerApplyInv pr' := by
  refine ⟨hlt, fun term entries hj e he => ?_, fun r hr gc hgc => ?_, hsnap⟩
  · rcases hjobs term entries hj with hj | hj
    · exact Nat.le_trans (hinv.jobs term entries hj e he) hle
    · exact hj e he
  · obtain ⟨hfirst, hlt'⟩ := hinv.results r (hres ▸ hr) gc hgc
    exact ⟨hfirst, by omega⟩

theorem peerApplyInv_handleReady (hinv : PeerApplyInv pr) {snap : Option (Nat × Nat × Shard)} {term : Nat}
    {entries : List Entry} (hc : PeerContract pr (.ready snap term entries)) :
    PeerApplyInv (pr.handleReady snap term entrySize entries) := by
  unfold PeerApply.handleReady
  split_ifs with happlying
  · exact hinv
  cases snap with
  | some snap =>
    -- a snapshot: `lastReadyIndex` moves up to its index
    obtain ⟨index, snapTerm, shard⟩ := snap
    obtain ⟨hle, hlt⟩ := hc
    refine hinv.of_le (by simpa [PeerApply.applyCommittedEntries, PeerApply.startRegistrationJob] using hle)
      (by simpa [PeerApply.applyCommittedEntries, PeerApply.startRegistrationJob] using hlt)
      (fun t es hj => .inl ?_) (by simp [PeerApply.applyCommittedEntries, PeerApply.startRegistrationJob])
      (by simp [PeerApply.applyCommittedEntries, PeerApply.startRegistrationJob])
    simpa [PeerApply.applyCommittedEntries, PeerApply.startRegistrationJob] using hj
  | none =>
    obtain ⟨hidx, hlt⟩ := hc
    unfold PeerApply.applyCommittedEntries
    simp only [happlying, Bool.or_false, Bool.false_eq_true, if_false]
    split_ifs
    · exact hinv
    split
    · exact hinv.of_le (Nat.le_refl _) hinv.lastReadyIndex_lt (fun t es hj => .inl hj) rfl (by simp)
    · -- the entries are dispatched and `lastReadyIndex` moves to the last of them
      rename_i last hlast
      obtain ⟨hl, hle⟩ := index_le_getLast hidx hlast
      refine hinv.of_le (by dsimp only; omega) (by dsimp only; omega) (fun t es hj => ?_) rfl (by simp)
      simp only [List.mem_append, List.mem_singleton, ApplyJob.applyCommittedEntries.injEq] at hj
      rcases hj with hj | ⟨-, rfl⟩
      · exact .inl hj
      · exact .inr hle

theorem peerApplyInv_runJob (hinv : PeerApplyInv pr) {pr' : PeerApply} (h : pr.runJob = some pr') :
    PeerApplyInv pr' := by
  unfold PeerApply.runJob at h
  -- the jobs left are a tail of the queue
  have htail : ∀ job jobs, pr.jobs = job :: jobs → ∀ term entries,
      ApplyJob.applyCommittedEntries term entries ∈ jobs → ∀ e ∈ entries, e.index ≤ pr.lastReadyIndex :=
    fun job jobs hjobs term entries hj => hinv.jobs term entries (hjobs ▸ List.mem_cons_of_mem _ hj)
  split at h
  · cases h; exact hinv
  · -- the worker applies a batch of entries: their results truncate below them
    rename_i term entries jobs hjobs
    obtain ⟨⟨slot, rs⟩, happly, rfl⟩ := Option.map_eq_some_iff.mp h
    refine ⟨hinv.lastReadyIndex_lt, htail _ _ hjobs, fun r hr gc hgc => ?_, hinv.snapshot⟩
    rcases List.mem_append.mp hr with hr | hr
    · exact hinv.results r hr gc hgc
    · obtain ⟨hfirst, e, he, hlt⟩ := doApplyCommittedEntries_raftGCResult happly r hr gc hgc
      exact ⟨hfirst, Nat.lt_of_lt_of_le hlt (hinv.jobs term entries (hjobs ▸ List.mem_cons_self) e he)⟩
  · rename_i d jobs hjobs
    obtain ⟨slot, -, rfl⟩ := Option.map_eq_some_iff.mp h
    exact ⟨hinv.lastReadyIndex_lt, htail _ _ hjobs, hinv.results, hinv.snapshot⟩
  · rename_i startIndex endIndex jobs hjobs
    cases h
    exact ⟨hinv.lastReadyIndex_lt, htail _ _ hjobs, hinv.results, hinv.snapshot⟩

/-- The post-apply of a compaction only queues the physical compaction. -/
theorem PeerApplyInv.doApplyCompactRaftLog (hinv : PeerApplyInv pr) {gc : RaftGCResult} {pr' : PeerApply}
    (h : pr.doApplyCompactRaftLog gc = some pr') : PeerApplyInv pr' := by
  unfold PeerApply.doApplyCompactRaftLog at h
  dsimp only at h
  split_ifs at h
  cases h
  refine ⟨hinv.lastReadyIndex_lt, fun term entries hj => ?_, hinv.results, hinv.snapshot⟩
  simp only [List.mem_append, List.mem_singleton, reduceCtorEq, or_false] at hj
  exact hinv.jobs term entries hj

theorem peerApplyInv_doPollApply (hinv : PeerApplyInv pr) {pr' : PeerApply} (h : pr.doPollApply = some pr') :
    PeerApplyInv pr' := by
  unfold PeerApply.doPollApply at h
  split at h
  · cases h; exact hinv
  rename_i r rs hres
  split_ifs at h with happlying
  -- the oldest result is handled; the others wait as before
  have hrest : PeerApplyInv
      { pr with
        applyResults := rs, raftApplyState := r.applyState, appliedIndexTerm := r.appliedIndexTerm } :=
    ⟨hinv.lastReadyIndex_lt, hinv.jobs, fun r' hr' => hinv.results r' (hres ▸ List.mem_cons_of_mem _ hr'),
      by simp [happlying]⟩
  dsimp only at h
  split at h
  · exact hrest.doApplyCompactRaftLog h
  · cases h; exact hrest

theorem peerApplyInv_step (hinv : PeerApplyInv pr) {ev : PeerEvent} (hc : PeerContract pr ev)
    {pr' : PeerApply} (h : peerStep entrySize pr ev = some pr') : PeerApplyInv pr' := by
  cases ev with
  | ready snap term entries =>
    cases h
    exact peerApplyInv_handleReady hinv hc
  | snapshotApplied =>
    cases h
    exact ⟨hinv.lastReadyIndex_lt, hinv.jobs, hinv.results, by simp⟩
  | runJob => exact peerApplyInv_runJob hinv h
  | pollApply => exact peerApplyInv_doPollApply hinv h

theorem PeerReachable.inv (h : PeerReachable entrySize pr) : PeerApplyInv pr := by
  induction h with
  | init hlt happ hjobs hres => exact ⟨hlt, by simp [hjobs], by simp [hres], by simp [happ]⟩
  | step _ hc hstep ih => exact peerApplyInv_step ih hc hstep

end Invariant

theorem toNat_ofNat_sub_ofNat {a b : Nat} (hb : b ≤ a) (ha : a < 2 ^ 64) :
    (UInt64.ofNat a - UInt64.ofNat b).toNat = a - b := by
  have ha' : (UInt64.ofNat a).toNat = a := UInt64.toNat_ofNat_of_lt' ha
  have hb' : (UInt64.ofNat b).toNat = b := UInt64.toNat_ofNat_of_lt' (Nat.lt_of_le_of_lt hb ha)
  have hle : UInt64.ofNat b ≤ UInt64.ofNat a := UInt64.le_iff_toNat_le.mpr (by rw [ha', hb']; exact hb)
  rw [UInt64.toNat_sub_of_le _ _ hle, ha', hb']

/-- The post-apply of a compaction neither divides by zero nor wraps: from
every reachable state, a compaction result waiting for the peer has its first
index below `lastReadyIndex` and its truncated index below it too, so the
`uint64` differences `total` and `remain` are the exact ones, `total` is
positive and `doApplyCompactRaftLog` goes through. -/
theorem doApplyCompactRaftLog_no_wrap {entrySize : Entry → Nat} {pr : PeerApply}
    (h : PeerReachable entrySize pr) {r : AsyncApplyResult} (hr : r ∈ pr.applyResults) {gc : RaftGCResult}
    (hgc : r.result = some (.raftGCResult gc)) :
    gc.firstIndex < pr.lastReadyIndex ∧ gc.state.index + 1 ≤ pr.lastReadyIndex ∧
      (UInt64.ofNat pr.lastReadyIndex - UInt64.ofNat gc.firstIndex).toNat = pr.lastReadyIndex - gc.firstIndex ∧
      (UInt64.ofNat pr.lastReadyIndex - UInt64.ofNat gc.state.index - 1).toNat =
        pr.lastReadyIndex - gc.state.index - 1 ∧
      ∃ pr', pr.doApplyCompactRaftLog gc = some pr' := by
  have hinv := h.inv
  obtain ⟨hfirst, hindex⟩ := hinv.results r hr gc hgc
  have hlt := hinv.lastReadyIndex_lt
  have htotal := toNat_ofNat_sub_ofNat (Nat.le_of_lt (Nat.lt_trans hfirst hindex)) hlt
  -- `remain` is two subtractions; the first leaves a positive value
  have hdiff := toNat_ofNat_sub_ofNat (Nat.le_of_lt hindex) hlt
  have hone : (1 : UInt64) ≤ UInt64.ofNat pr.lastReadyIndex - UInt64.ofNat gc.state.index :=
    UInt64.le_iff_toNat_le.mpr (by rw [hdiff]; simp only [UInt64.toNat_one]; omega)
  have hremain : (UInt64.ofNat pr.lastReadyIndex - UInt64.ofNat gc.state.index - 1).toNat =
      pr.lastReadyIndex - gc.state.index - 1 := by
    rw [UInt64.toNat_sub_of_le _ _ hone, hdiff, UInt64.toNat_one]
  have hpos : UInt64.ofNat pr.lastReadyIndex - UInt64.ofNat gc.firstIndex ≠ 0 := by
    intro hzero
    have := congrArg UInt64.toNat hzero
    rw [htotal, UInt64.toNat_zero] at this
    omega
  refine ⟨Nat.lt_trans hfirst hindex, hindex, htotal, hremain, ?_⟩
  unfold PeerApply.doApplyCompactRaftLog
  simp only [hpos, if_false, Option.some.injEq, exists_eq']

theorem doApplyCompactRaftLog_no_wrap_compaction :
    ∃ pr r gc, PeerReachable (fun _ => 0) pr ∧ r ∈ pr.applyResults ∧ r.result = some (.raftGCResult gc) ∧
      gc.firstIndex < pr.lastReadyIndex ∧ gc.state.index + 1 ≤ pr.lastReadyIndex ∧
      (UInt64.ofNat pr.lastReadyIndex - UInt64.ofNat gc.firstIndex).toNat = pr.lastReadyIndex - gc.firstIndex ∧
      (UInt64.ofNat pr.lastReadyIndex - UInt64.ofNat gc.state.index - 1).toNat =
        pr.lastReadyIndex - gc.state.index - 1 ∧
      ∃ pr', pr.doApplyCompactRaftLog gc = some pr' := by
  let d : ApplyDelegate := { peerID := 1, shard := { id := 1 }, applyState := ⟨5, ⟨5, 5⟩⟩ }
  let pr₀ : PeerApply := ⟨1, { id := 1 }, 5, ⟨5, ⟨5, 5⟩⟩, 5, false, 0, 0, { delegate := some d }, [], []⟩
  -- two entries, then a request compacting the log up to index 7
  let compact : RaftCMDRequest :=
    { header := some { id := [1] }, adminRequest := some { cmdType := .compactLog, compactLog := ⟨7, 1⟩ } }
  let entries : List Entry :=
    [{ term := 1, index := 6 }, { term := 1, index := 7 }, { term := 1, index := 8, data := some compact }]
  have h₀ : PeerReachable (fun _ => 0) pr₀ := .init (by decide) rfl rfl rfl
  have h₁ : PeerReachable (fun _ => 0) (pr₀.handleReady none 1 (fun _ => 0) entries) :=
    @PeerReachable.step _ _ _ (.ready none 1 entries) h₀ ⟨by decide, by decide⟩ rfl
  obtain ⟨pr₂, hrun, hres⟩ : ∃ pr₂, (pr₀.handleReady none 1 (fun _ => 0) entries).runJob = some pr₂ ∧
      pr₂.applyResults.map (·.result) = [none, none, some (.raftGCResult ⟨⟨7, 1⟩, 6⟩)] :=
    ⟨_, rfl, by decide⟩
  have h₂ : PeerReachable (fun _ => 0) pr₂ := @PeerReachable.step _ _ _ .runJob h₁ trivial hrun
  obtain ⟨r, hr, hgc⟩ : ∃ r ∈ pr₂.applyResults, r.result = some (.raftGCResult ⟨⟨7, 1⟩, 6⟩) := by
    have hmem : some (ExecResult.raftGCResult ⟨⟨7, 1⟩, 6⟩) ∈ pr₂.applyResults.map (·.result) := by
      rw [hres]; simp
    simpa using hmem
  exact ⟨pr₂, r, _, h₂, hr, hgc, doApplyCompactRaftLog_no_wrap h₂ hr hgc⟩

end MatrixCube.Raftstore
