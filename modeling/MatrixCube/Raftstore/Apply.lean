import MatrixCube.Raftstore.Split
import MatrixCube.Raftstore.ConfChange
import MatrixCube.Raftstore.LogStorage

/-! # The apply delegate

`applyDelegate` (`peer_apply.go`, `peer_apply_exec.go`) applies committed raft
entries to a shard. Proposed commands wait in `pendingCMDs` (a FIFO queue) or,
for membership changes, in the single slot `pendingChangePeerCMD`; applying an
entry first finds the command that proposed it (`findCB`), answering every
older command it passes as stale, then checks the request's epoch against the
shard (`checkEpoch`), runs the admin executor or the write handlers, and
answers the found command.

A command's callback is named by a number; invoking it appends the number and
the kind of response to `replies`, the sequence of all answers given. The
write handlers are application code and are not modelled: a write request is
answered with its results (`executed`) and leaves the shard as it is.
-/

namespace MatrixCube.Raftstore

/-- The kinds of response a command's callback receives. -/
inductive Reply where
  /-- `errorStaleCMDResp` -/
  | staleCommand
  /-- `respShardNotFound` -/
  | shardNotFound
  /-- `errorStaleEpochResp` -/
  | staleEpoch
  /-- the response of the executed request -/
  | executed
  deriving DecidableEq, Repr

/-- `cmd`: the request, its callback (nil-able in Go) and the term it was
proposed in. `emptyCMD` has no request. -/
structure Cmd where
  req : Option RaftCMDRequest := none
  cb : Option Nat := none
  term : Nat := 0
  deriving DecidableEq, Repr

/-- `emptyCMD`. -/
def emptyCMD : Cmd := {}

/-- `execResult`, one constructor per admin type that returns one. -/
inductive ExecResult where
  | changePeer (index : Nat) (changes : List ChangePeerRequest) (shard : Shard)
  | splitResult (derived : Shard) (shards : List Shard)
  | raftGCResult (result : RaftGCResult)
  deriving DecidableEq, Repr

/-- The part of `applyDelegate` the apply path reads and writes. -/
structure ApplyDelegate where
  peerID : UInt64
  shard : Shard
  pendingRemove : Bool := false
  applyState : RaftApplyState := {}
  appliedIndexTerm : Nat := 0
  term : Nat := 0
  pendingCMDs : List Cmd := []
  pendingChangePeerCMD : Cmd := emptyCMD
  /-- every callback invocation so far, in order -/
  replies : List (Nat × Reply) := []
  deriving DecidableEq, Repr

/-! ## Answering commands -/

/-- `cmd.resp`: a command with a callback records the answer. -/
def respond (d : ApplyDelegate) (c : Cmd) (r : Reply) : ApplyDelegate :=
  match c.cb with
  | some cb => { d with replies := d.replies ++ [(cb, r)] }
  | none => d

/-- `cmd.getUUID`, `c.req.Header.ID`; a missing request or header is a nil
dereference. -/
def Cmd.uuid (c : Cmd) : Option Bytes :=
  c.req.bind fun req => req.header.map (·.id)

/-- `notifyStaleCMD`, which reads the command's id for the error response. -/
def notifyStaleCMD (d : ApplyDelegate) (c : Cmd) : Option ApplyDelegate :=
  c.uuid.map fun _ => respond d c .staleCommand

/-- `notifyShardRemoved`. -/
def notifyShardRemoved (d : ApplyDelegate) (c : Cmd) : Option ApplyDelegate :=
  c.req.bind fun req => req.header.map fun _ => respond d c .shardNotFound

/-- Answer every command of a list in turn. -/
def notifyAll (notify : ApplyDelegate → Cmd → Option ApplyDelegate) (d : ApplyDelegate) :
    List Cmd → Option ApplyDelegate
  | [] => some d
  | c :: cs => (notify d c).bind fun d => notifyAll notify d cs

/-- `clearAllCommandsAsStale`, run when the delegate is registered again. -/
def clearAllCommandsAsStale (d : ApplyDelegate) : Option ApplyDelegate := do
  let d ← notifyAll notifyStaleCMD d d.pendingCMDs
  let d ← if d.pendingChangePeerCMD.req.isSome then notifyStaleCMD d d.pendingChangePeerCMD
    else some d
  pure { d with pendingCMDs := [], pendingChangePeerCMD := emptyCMD }

/-- `applyDelegate.destroy`. -/
def destroy (d : ApplyDelegate) : Option ApplyDelegate := do
  let d ← notifyAll notifyShardRemoved d d.pendingCMDs
  let d ← if d.pendingChangePeerCMD.req.isSome then notifyShardRemoved d d.pendingChangePeerCMD
    else some d
  pure { d with pendingCMDs := [], pendingChangePeerCMD := emptyCMD }

/-- `peerReplica.doPropose` once the delegate is found: a membership change
replaces the slot, answering the command it held as stale. -/
def doPropose (d : ApplyDelegate) (c : Cmd) (isConfChange : Bool) : Option ApplyDelegate :=
  if isConfChange then
    let changeC := d.pendingChangePeerCMD
    let d' := if (changeC.req.bind (·.header)).isSome then notifyStaleCMD d changeC else some d
    d'.map fun d => { d with pendingChangePeerCMD := c }
  else some { d with pendingCMDs := d.pendingCMDs ++ [c] }

/-! ## Finding the proposing command -/

/-- `isChangePeerCMD`. -/
def isChangePeerCMD (req : RaftCMDRequest) : Bool :=
  match req.adminRequest with
  | some admin => admin.cmdType = .changePeer || admin.cmdType = .changePeerV2
  | none => false

/-- The loop of `findCB` over the pending queue `cmds` (the delegate's own
queue on entry): `popPendingCMD` takes the head unless it was proposed in a
later term; a head with another id is answered as stale. The request's id is
read only when a head is compared with it. -/
def findCBLoop (reqID : Option Bytes) (term : Nat) (d : ApplyDelegate) :
    List Cmd → Option (ApplyDelegate × Option Cmd)
  | [] => some ({ d with pendingCMDs := [] }, none)
  | c :: cs =>
      if c.term > term then some ({ d with pendingCMDs := c :: cs }, none)
      else
        let d := { d with pendingCMDs := cs }
        match c.req with
        | none => some (d, none)
        | some _ => do
            let id ← c.uuid
            let rid ← reqID
            if id = rid then some (d, some c)
            else (notifyStaleCMD d c).bind fun d => findCBLoop reqID term d cs

/-- `applyDelegate.findCB` for a request committed in `term`. The matched
membership command is returned but stays in its slot. -/
def findCB (d : ApplyDelegate) (req : RaftCMDRequest) (term : Nat) :
    Option (ApplyDelegate × Option Cmd) :=
  if isChangePeerCMD req then
    let c := d.pendingChangePeerCMD
    match c.req with
    | none => some (d, none)
    | some _ => do
        let reqID ← req.header.map (·.id)
        let id ← c.uuid
        if reqID = id then some (d, some c)
        else (notifyStaleCMD d c).map fun d => (d, none)
  else findCBLoop (req.header.map (·.id)) term d d.pendingCMDs

/-! ## Epoch check and admin execution -/

/-! ## What answering and finding commands leave alone -/

/-- The delegate's state apart from its command queues and its answers. -/
def ApplyDelegate.core (d : ApplyDelegate) : UInt64 × Shard × Bool × RaftApplyState × Nat × Nat :=
  (d.peerID, d.shard, d.pendingRemove, d.applyState, d.appliedIndexTerm, d.term)

@[simp] theorem respond_core (d : ApplyDelegate) (c : Cmd) (r : Reply) :
    (respond d c r).core = d.core := by
  unfold respond; split <;> rfl

theorem notifyStaleCMD_core {d d' : ApplyDelegate} {c : Cmd} (h : notifyStaleCMD d c = some d') :
    d'.core = d.core := by
  obtain ⟨_, -, rfl⟩ := Option.map_eq_some_iff.mp h
  simp

theorem findCBLoop_core {reqID : Option Bytes} {term : Nat} :
    ∀ {d d' : ApplyDelegate} {cmds : List Cmd} {c : Option Cmd},
      findCBLoop reqID term d cmds = some (d', c) → d'.core = d.core := by
  intro d d' cmds c h
  induction cmds generalizing d with
  | nil => cases h; rfl
  | cons head cs ih =>
    simp only [findCBLoop] at h
    split_ifs at h with hterm
    · cases h; rfl
    · cases hreq : head.req with
      | none => simp only [hreq, Option.some.injEq, Prod.mk.injEq] at h; rw [← h.1]; rfl
      | some r =>
        simp only [hreq, Option.bind_eq_bind, Option.bind_eq_some_iff] at h
        obtain ⟨id, -, rid, -, h⟩ := h
        split_ifs at h
        · cases h; rfl
        · -- a passed command is answered as stale before the loop goes on
          cases hd₁ : notifyStaleCMD { d with pendingCMDs := cs } head with
          | none => simp [hd₁] at h
          | some d₁ =>
            simp only [hd₁, Option.bind_some] at h
            rw [ih h, notifyStaleCMD_core hd₁]; rfl

/-- Finding the proposing command only pops commands and answers them. -/
theorem findCB_core {d d' : ApplyDelegate} {req : RaftCMDRequest} {term : Nat} {c : Option Cmd}
    (h : findCB d req term = some (d', c)) : d'.core = d.core := by
  unfold findCB at h
  split_ifs at h
  · dsimp only at h
    split at h
    · cases h; rfl
    · simp only [Option.bind_eq_bind, Option.bind_eq_some_iff] at h
      obtain ⟨rid, -, id, -, h⟩ := h
      split_ifs at h
      · cases h; rfl
      · obtain ⟨d₁, hd₁, h⟩ := Option.map_eq_some_iff.mp h
        cases h; exact notifyStaleCMD_core hd₁
  · exact findCBLoop_core h

/-- The parts of the epoch `checkEpoch` compares for a request, `(checkVer,
checkConfVer)`: a split must not be behind in the version, a change of peers
in the conf version, a leader transfer in both; a write request in the version.
Every other admin type is not checked. -/
def epochChecks (req : RaftCMDRequest) : Bool × Bool :=
  match req.adminRequest with
  | some admin =>
      match admin.cmdType with
      | .batchSplit => (true, false)
      | .changePeer => (false, true)
      | .transferLeader => (true, true)
      | _ => (false, false)
  | none => (true, false)

/-- `checkEpoch` (`store.go`); `IgnoreEpochCheck` lifts the version check. -/
def checkEpoch (shard : Shard) (req : RaftCMDRequest) : Bool :=
  let (checkVer, checkConfVer) := epochChecks req
  if !checkConfVer && !checkVer then true
  else
    match req.header with
    | none => false
    | some header =>
        let checkVer := checkVer && !header.ignoreEpochCheck
        !((checkConfVer && decide (header.epoch.confVer < shard.epoch.confVer)) ||
          (checkVer && decide (header.epoch.version < shard.epoch.version)))

/-- A request behind the shard in a part of the epoch its type is checked in
fails the check. -/
theorem checkEpoch_eq_false_of_stale {shard : Shard} {req : RaftCMDRequest}
    {header : RaftRequestHeader} (hheader : req.header = some header)
    (hstale : ((epochChecks req).2 = true ∧ header.epoch.confVer < shard.epoch.confVer) ∨
      ((epochChecks req).1 = true ∧ header.ignoreEpochCheck = false ∧
        header.epoch.version < shard.epoch.version)) :
    checkEpoch shard req = false := by
  rcases hc : epochChecks req with ⟨checkVer, checkConfVer⟩
  rw [hc] at hstale
  rcases hstale with ⟨rfl, hlt⟩ | ⟨rfl, hign, hlt⟩
  · simp [checkEpoch, hc, hheader, hlt]
  · simp [checkEpoch, hc, hheader, hign, hlt]

/-- `ChangePeerV2` is missing from the switch of `checkEpoch`: its requests
pass whatever their epoch. -/
theorem checkEpoch_changePeerV2 (shard : Shard) {req : RaftCMDRequest} {admin : AdminRequest}
    (hadmin : req.adminRequest = some admin) (htype : admin.cmdType = .changePeerV2) :
    checkEpoch shard req = true := by
  have hc : epochChecks req = (false, false) := by simp [epochChecks, hadmin, htype]
  simp [checkEpoch, hc]

/-- The errors of the admin executors. -/
inductive AdminError where
  | split (e : SplitError)
  | confChange (e : ConfChangeError)
  | compact (e : CompactError)
  deriving DecidableEq, Repr

/-- What an admin executor returns: `resp, result, nil`, `nil, nil, nil`, or an
error. -/
inductive AdminOutcome where
  | done (result : ExecResult)
  | nothing
  | failed (e : AdminError)
  deriving DecidableEq, Repr

/-- `applyDelegate.execAdminRequest` at log index `index`, on the delegate and the
apply context's state. -/
def execAdminRequest (d : ApplyDelegate) (applyState : RaftApplyState) (index : Nat)
    (admin : AdminRequest) : Option (ApplyDelegate × RaftApplyState × AdminOutcome) :=
  match admin.cmdType with
  | .changePeer =>
      let (shard, pendingRemove, r) :=
        doExecChangePeer d.peerID d.shard d.pendingRemove admin.changePeer
      let d := { d with shard := shard, pendingRemove := pendingRemove }
      match r with
      | .ok s => some (d, applyState, .done (.changePeer index [admin.changePeer] s))
      | .error e => some (d, applyState, .failed (.confChange e))
  | .changePeerV2 =>
      (doExecChangePeerV2 d.peerID d.shard d.pendingRemove admin.changePeerV2).map
        fun (shard, pendingRemove, r) =>
          let d := { d with shard := shard, pendingRemove := pendingRemove }
          match r with
          | .ok s => (d, applyState, .done (.changePeer index admin.changePeerV2 s))
          | .error e => (d, applyState, .failed (.confChange e))
  | .batchSplit =>
      (doExecSplit d.shard admin.splits).map fun (shard, out) =>
        let d := { d with shard := shard }
        match out with
        | .split derived shards => (d, applyState, .done (.splitResult derived shards))
        | .skipped => (d, applyState, .nothing)
        | .failed e => (d, applyState, .failed (.split e))
  | .compactLog =>
      match doExecCompactRaftLog applyState admin.compactLog with
      | (state, .ok (some gc)) => some (d, state, .done (.raftGCResult gc))
      | (state, .ok none) => some (d, state, .nothing)
      | (state, .error e) => some (d, state, .failed (.compact e))
  | _ => some (d, applyState, .nothing)

/-! ## Applying one command -/

/-- The middle of `applyDelegate.doApplyRaftCMD`: the epoch check, then the
admin executor or the write handlers. It returns the delegate, the apply state
to store, the response (none for an executor's nil response) and the exec
result. Building a stale-epoch response reads the request's header. The write
handlers are not modelled: a write request is answered with its results and
leaves the delegate's shard as it is. -/
def execRaftCMD (d : ApplyDelegate) (index : Nat) (req : RaftCMDRequest) :
    Option (ApplyDelegate × RaftApplyState × Option Reply × Option ExecResult) :=
  let staleEpoch := fun (d : ApplyDelegate) (applyState : RaftApplyState) =>
    req.header.map fun _ => (d, applyState, some Reply.staleEpoch, none)
  if !checkEpoch d.shard req then staleEpoch d d.applyState
  else
    match req.adminRequest with
    | some admin =>
        (execAdminRequest d d.applyState index admin).bind fun (d, applyState, out) =>
          match out with
          | .done result => some (d, applyState, some .executed, some result)
          | .nothing => some (d, applyState, none, none)
          -- an executor error is answered as a stale epoch
          | .failed _ => staleEpoch d applyState
    | none => some (d, d.applyState, some .executed, none)

/-- The end of `applyDelegate.doApplyRaftCMD`: store the applied index and the
term, and answer the found command if there is a response. -/
def finishApply (d : ApplyDelegate) (index term : Nat) (applyState : RaftApplyState)
    (c : Option Cmd) (resp : Option Reply) : ApplyDelegate :=
  let d := { d with applyState := { applyState with appliedIndex := index }, term := term }
  match c, resp with
  | some c, some r => respond d c r
  | _, _ => d

/-- `applyDelegate.doApplyRaftCMD` for the request `req` of the entry at
`index`, committed in `term`. -/
def doApplyRaftCMD (d : ApplyDelegate) (index term : Nat) (req : RaftCMDRequest) :
    Option (ApplyDelegate × Option ExecResult) :=
  if index = 0 then none
  else
    (findCB d req term).bind fun (d, c) =>
      if d.pendingRemove then none
      else (execRaftCMD d index req).map fun (d, applyState, resp, result) =>
        (finishApply d index term applyState c resp, result)

@[simp] theorem finishApply_core (d : ApplyDelegate) (index term : Nat) (st : RaftApplyState)
    (c : Option Cmd) (resp : Option Reply) :
    (finishApply d index term st c resp).core =
      (d.peerID, d.shard, d.pendingRemove, { st with appliedIndex := index }, d.appliedIndexTerm, term) := by
  unfold finishApply
  split
  · rw [respond_core]; rfl
  · rfl

/-- Inversion of `doApplyRaftCMD`: the command was found, the delegate is not
pending removal, and the request was executed and answered. -/
theorem doApplyRaftCMD_eq_some {d d' : ApplyDelegate} {index term : Nat}
    {req : RaftCMDRequest} {res : Option ExecResult}
    (h : doApplyRaftCMD d index term req = some (d', res)) :
    ∃ d₁ c d₂ st resp, index ≠ 0 ∧ findCB d req term = some (d₁, c) ∧ d₁.pendingRemove = false ∧
      execRaftCMD d₁ index req = some (d₂, st, resp, res) ∧ d' = finishApply d₂ index term st c resp := by
  unfold doApplyRaftCMD at h
  split_ifs at h with hindex
  obtain ⟨⟨d₁, c⟩, hfind, h⟩ := Option.bind_eq_some_iff.mp h
  dsimp only at h
  split_ifs at h with hrem
  obtain ⟨⟨d₂, st, resp, res'⟩, hexec, h⟩ := Option.map_eq_some_iff.mp h
  cases h
  exact ⟨d₁, c, d₂, st, resp, hindex, hfind, by simpa using hrem, hexec, rfl⟩

theorem execRaftCMD_of_checkEpoch_false {d d' : ApplyDelegate} {index : Nat} {req : RaftCMDRequest}
    {st : RaftApplyState} {resp : Option Reply} {res : Option ExecResult}
    (hstale : checkEpoch d.shard req = false) (h : execRaftCMD d index req = some (d', st, resp, res)) :
    d' = d ∧ resp = some .staleEpoch ∧ res = none := by
  unfold execRaftCMD at h
  simp only [hstale, Bool.not_false, if_true] at h
  obtain ⟨_, -, h⟩ := Option.map_eq_some_iff.mp h
  cases h
  exact ⟨rfl, rfl, rfl⟩

/-- A request that fails the epoch check leaves the shard as it is and returns
no exec result. -/
theorem doApplyRaftCMD_shard_of_checkEpoch_false {d d' : ApplyDelegate} {index term : Nat}
    {req : RaftCMDRequest} {res : Option ExecResult}
    (hstale : checkEpoch d.shard req = false) (h : doApplyRaftCMD d index term req = some (d', res)) :
    d'.shard = d.shard ∧ res = none := by
  obtain ⟨d₁, c, d₂, st, resp, -, hfind, -, hexec, rfl⟩ := doApplyRaftCMD_eq_some h
  -- the epoch check sees the shard `findCB` left, which is the delegate's
  have hshard : d₁.shard = d.shard := congrArg (·.2.1) (findCB_core hfind)
  rw [← hshard] at hstale
  obtain ⟨hd, -, rfl⟩ := execRaftCMD_of_checkEpoch_false hstale hexec
  rw [hd]
  exact ⟨congrArg (·.2.1) (finishApply_core d₁ index term st c resp) |>.trans hshard, rfl⟩

/-- The epoch guard of `doApplyRaftCMD`: a request behind the shard in a part
of the epoch its type is checked in changes nothing of the shard. -/
theorem doApplyRaftCMD_keeps_shard_of_stale {d d' : ApplyDelegate} {index term : Nat}
    {req : RaftCMDRequest} {res : Option ExecResult} {header : RaftRequestHeader}
    (hheader : req.header = some header)
    (hstale : ((epochChecks req).2 = true ∧ header.epoch.confVer < d.shard.epoch.confVer) ∨
      ((epochChecks req).1 = true ∧ header.ignoreEpochCheck = false ∧
        header.epoch.version < d.shard.epoch.version))
    (h : doApplyRaftCMD d index term req = some (d', res)) :
    d'.shard = d.shard ∧ res = none :=
  doApplyRaftCMD_shard_of_checkEpoch_false (checkEpoch_eq_false_of_stale hheader hstale) h

/-- A `ChangePeerV2` whose second change fails: the first one's promotion was
written into `d.shard`, and the command is answered with a stale-epoch error
while the shard keeps it. -/
theorem doApplyRaftCMD_failed_changePeerV2_changes_shard :
    let d : ApplyDelegate :=
      { peerID := 1
        shard := { id := 1, peers := [{ id := 1, containerID := 1 },
                                      { id := 2, containerID := 2, role := .learner }] } }
    let admin : AdminRequest :=
      { cmdType := .changePeerV2
        changePeerV2 := [{ changeType := .addNode, peer := { id := 2, containerID := 2 } },
                         { changeType := .removeNode, peer := { id := 3, containerID := 3 } }] }
    let req : RaftCMDRequest := { header := some { id := [1] }, adminRequest := some admin }
    let c : Cmd := { req := some req, cb := some 7 }
    doApplyRaftCMD { d with pendingChangePeerCMD := c } 5 1 req =
      some ({ d with
              shard.peers := [{ id := 1, containerID := 1 },
                              { id := 2, containerID := 2, role := .incomingVoter }]
              pendingChangePeerCMD := c
              applyState.appliedIndex := 5
              term := 1
              replies := [(7, .staleEpoch)] }, none) := by
  decide

/-- A `ChangePeerV2` proposed at conf version 1 applies to a shard at conf
version 2 and adds its peer. -/
theorem doApplyRaftCMD_applies_stale_changePeerV2 :
    let shard : Shard := { id := 1, epoch := { confVer := 2 }, peers := [{ id := 1, containerID := 1 }] }
    let change : ChangePeerRequest := { changeType := .addNode, peer := { id := 2, containerID := 2 } }
    let req : RaftCMDRequest :=
      { header := some { id := [1], epoch := { confVer := 1 } }
        adminRequest := some { cmdType := .changePeerV2, changePeerV2 := [change] } }
    let shard' : Shard :=
      { shard with epoch.confVer := 3, peers := [{ id := 1, containerID := 1 }, { id := 2, containerID := 2 }] }
    doApplyRaftCMD { peerID := 1, shard := shard } 5 1 req =
      some ({ peerID := 1, shard := shard', applyState.appliedIndex := 5, term := 1 },
        some (.changePeer 5 [change] shard')) := by
  decide

/-- `applyDelegate.applyEntry` for an entry without data, which a new leader
proposes: older terms' commands can no longer be committed and are answered
as stale. `popPendingCMD(entry.Term - 1)` stops at a head of the entry's
term. -/
def popStaleCMDs (term : Nat) (d : ApplyDelegate) : List Cmd → Option ApplyDelegate
  | [] => some { d with pendingCMDs := [] }
  | c :: cs =>
      if c.term > term - 1 then some { d with pendingCMDs := c :: cs }
      else (notifyStaleCMD { d with pendingCMDs := cs } c).bind fun d => popStaleCMDs term d cs

/-- `applyDelegate.applyEntry`. -/
def applyEntry (d : ApplyDelegate) (entry : Entry) : Option (ApplyDelegate × Option ExecResult) :=
  match entry.data with
  | some req => doApplyRaftCMD d entry.index entry.term req
  | none =>
      let d := { d with applyState.appliedIndex := entry.index, appliedIndexTerm := entry.term }
      if entry.term = 0 then none
      else (popStaleCMDs entry.term d d.pendingCMDs).map fun d => (d, none)

/-- `applyDelegate.applyConfChange`; the entry's data is the request its
conf change carries as context. -/
def applyConfChange (d : ApplyDelegate) (entry : Entry) :
    Option (ApplyDelegate × Option ExecResult) := do
  let req ← entry.data
  let (d, result) ← doApplyRaftCMD d entry.index entry.term req
  match result with
  | none => pure (d, some (.changePeer 0 [] {}))
  | some r => pure (d, some r)

/-- `asyncApplyResult`, what each applied entry hands to the raft loop. -/
structure AsyncApplyResult where
  shardID : UInt64
  appliedIndexTerm : Nat
  applyState : RaftApplyState
  result : Option ExecResult
  deriving DecidableEq, Repr

/-- `applyDelegate.applyCommittedEntries`: entries apply in order until the
delegate is pending removal; an entry whose index is not the next one is
fatal. -/
def applyCommittedEntries (d : ApplyDelegate) :
    List Entry → Option (ApplyDelegate × List AsyncApplyResult)
  | [] => some (d, [])
  | entry :: entries =>
      if d.pendingRemove then some (d, [])
      else if d.applyState.appliedIndex + 1 ≠ entry.index then none
      else do
        let (d, result) ← match entry.type with
          | .entryNormal => applyEntry d entry
          | .entryConfChange | .entryConfChangeV2 => applyConfChange d entry
        let r : AsyncApplyResult := ⟨d.shard.id, d.appliedIndexTerm, d.applyState, result⟩
        let (d, rs) ← applyCommittedEntries d entries
        pure (d, r :: rs)

/-! ## The delegate in its store

`store.delegates` holds at most one delegate per shard. The events below are
the store's operations on the delegate of one shard; `none` is a crash
(`Fatalf` or a nil dereference). -/

/-- The delegate of one shard in `store.delegates` and everything its callbacks
were answered with, including answers given after it was removed. -/
structure DelegateSlot where
  delegate : Option ApplyDelegate := none
  replies : List (Nat × Reply) := []
  deriving DecidableEq, Repr

/-- The operations of the store on the delegate of a shard. -/
inductive DelegateEvent where
  /-- `peerReplica.doPropose` -/
  | propose (c : Cmd) (isConfChange : Bool)
  /-- `peerReplica.doApplyCommittedEntries` -/
  | applyEntries (term : Nat) (entries : List Entry)
  /-- `peerReplica.doRegistrationJob` with a new delegate -/
  | register (delegate : ApplyDelegate)
  /-- `store.doDestroy` -/
  | destroy

/-- Move the answers a delegate gave into the slot's record. -/
def DelegateSlot.put (slot : DelegateSlot) (d : Option ApplyDelegate) (replies : List (Nat × Reply)) :
    DelegateSlot :=
  { delegate := d.map fun d => { d with replies := [] }, replies := slot.replies ++ replies }

/-- `peerReplica.doRegistrationJob`: a delegate already registered takes the
new one's state and answers its pending commands as stale. -/
def doRegistrationJob (old : Option ApplyDelegate) (delegate : ApplyDelegate) :
    Option ApplyDelegate :=
  match old with
  | none => some delegate
  | some old =>
      if old.peerID ≠ delegate.peerID then none
      else
        clearAllCommandsAsStale
          { old with
            peerID := delegate.peerID
            shard := delegate.shard
            term := delegate.term
            applyState := delegate.applyState
            appliedIndexTerm := delegate.appliedIndexTerm }

/-- One operation of the store on the delegate slot. -/
def delegateStep (slot : DelegateSlot) : DelegateEvent → Option DelegateSlot
  | .propose c isConfChange =>
      match slot.delegate with
      | none =>
          -- `respShardNotFound` reads the command's header
          (c.req.bind (·.header)).map fun _ =>
            { slot with replies := slot.replies ++ (c.cb.map (fun cb => (cb, Reply.shardNotFound))).toList }
      | some d => (doPropose d c isConfChange).map fun d => slot.put (some d) d.replies
  | .applyEntries term entries =>
      match slot.delegate with
      | none => some slot
      | some d => do
          let (d, _) ← applyCommittedEntries { d with term := term } entries
          if d.pendingRemove then
            let d ← destroy d
            pure (slot.put none d.replies)
          else pure (slot.put (some d) d.replies)
  | .register delegate =>
      (doRegistrationJob slot.delegate delegate).map fun d => slot.put (some d) d.replies
  | .destroy =>
      match slot.delegate with
      | none => some slot
      | some d => (destroy d).map fun d => slot.put none d.replies

/-- A run of store operations. -/
def delegateRun (slot : DelegateSlot) : List DelegateEvent → Option DelegateSlot
  | [] => some slot
  | e :: es => (delegateStep slot e).bind fun slot => delegateRun slot es

/-- A membership command is answered when its entry applies, stays in
`pendingChangePeerCMD`, and is answered again when the delegate is
destroyed. -/
theorem delegateRun_answers_changePeer_twice :
    let shard : Shard := { id := 1, peers := [{ id := 1, containerID := 1 }] }
    let req : RaftCMDRequest :=
      { header := some { id := [1] }
        adminRequest := some { cmdType := .changePeer,
                               changePeer := { changeType := .addNode, peer := { id := 2, containerID := 2 } } } }
    (delegateRun {} [.register { peerID := 1, shard := shard },
        .propose { req := some req, cb := some 7 } true,
        .applyEntries 1 [{ term := 1, index := 1, type := .entryConfChange, data := some req }],
        .destroy]).map (·.replies) = some [(7, .executed), (7, .shardNotFound)] := by
  decide

end MatrixCube.Raftstore
