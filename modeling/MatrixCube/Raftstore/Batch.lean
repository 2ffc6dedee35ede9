import MatrixCube.Raftstore.Keys
import MatrixCube.Raftstore.Proposal
import MatrixCube.Lib.ListWindow

/-! # Proposal batches and the read-index queue

`proposeBatch` (`batch.go`) gathers the requests of a peer into commands
before they are proposed. `push` puts a read or a write into the first open
command of its type that has room for it and the same `IgnoreEpochCheck`, and
opens a new command otherwise; an admin request always gets a command of its
own. `pop` hands out the oldest command.

Reads proposed with `ReadIndex` then wait in the `readIndexQueue`: `ready`
records the read index raft answers for the next one, and
`doReadLEAppliedIndex` executes those whose read index the applied index has
reached.

Callbacks are left out, and so is the `term` of a command, which neither
structure reads. The protobuf size of a request is a parameter.
-/

namespace MatrixCube.Raftstore.Batch

/-! ## The proposal batch -/

/-- The `tp` of a command: `read`, `write` or `admin`. -/
inductive CmdKind where
  | read
  | write
  | admin
  deriving DecidableEq, Repr

/-- `reqCtx` without its callback: the admin request of `onAdmin`, or the
read or write of `onReq`. -/
inductive ReqCtx where
  | admin (req : AdminRequest)
  | req (req : Request)
  deriving DecidableEq, Repr

/-- `cmd` without its callback and term. -/
structure Cmd where
  req : RaftCMDRequest
  readIndexCommittedIndex : Nat := 0
  tp : CmdKind
  size : Nat
  deriving DecidableEq, Repr

/-- `cmd.getUUID`. -/
def Cmd.getUUID (c : Cmd) : Bytes := (c.req.header.getD {}).id

/-- `cmd.isFull`: `max` is `int(cfg.Raft.MaxEntryBytes)`. -/
def Cmd.isFull (c : Cmd) (n : Nat) (max : Int) (testMaxProposalRequestCount : Nat) : Bool :=
  decide (max ≤ ((c.size + n : Nat) : Int)) ||
    (decide (testMaxProposalRequestCount > 0) &&
      decide (c.req.requests.length ≥ testMaxProposalRequestCount))

/-- `cmd.canAppend`; the commands of a batch all have a header. -/
def Cmd.canAppend (c : Cmd) (req : Request) : Bool :=
  (c.req.header.getD {}).ignoreEpochCheck == req.ignoreEpochCheck

/-- `newCMD`. -/
def newCMD (req : RaftCMDRequest) (tp : CmdKind) (size : Nat) : Cmd := { req, tp, size }

/-- `proposeBatch.getType`. -/
def getType : ReqCtx → CmdKind
  | .admin _ => .admin
  | .req r => if r.type = .write then .write else .read

/-- What `push` reads of the store: `int(cfg.Raft.MaxEntryBytes)`, the test
knob `testMaxProposalRequestCount` (0 outside tests) and `Request.Size`. -/
structure BatchConfig where
  maxEntryBytes : Int
  testMaxProposalRequestCount : Nat
  size : Request → Nat

/-- The request `push` stores: its key rewritten by `getDataKey0`. -/
def dataRequest (group : UInt64) (req : Request) : Request :=
  { req with key := encodeDataKey group req.key }

/-- A command with one more request. -/
def Cmd.append (c : Cmd) (req : Request) (n : Nat) : Cmd :=
  { c with req.requests := c.req.requests ++ [req], size := c.size + n }

/-- The header `push` gives a new command. -/
def requestHeader (shard : Shard) (peer : Peer) (uuid : Bytes) : RaftRequestHeader :=
  { id := uuid, shardID := shard.id, peer := peer, epoch := shard.epoch }

/-- `proposeBatch.push` on the peer's `shard` (`b.pr.ps.shard`) and `peer`
(`b.pr.peer`); `uuid` is what `uuid.NewV4` returns. An admin request has no
`Request`, whose `Size` is then 0. -/
def push (cfg : BatchConfig) (shard : Shard) (peer : Peer) (uuid : Bytes) (cmds : List Cmd)
    (group : UInt64) (c : ReqCtx) : List Cmd :=
  let tp := getType c
  let header := requestHeader shard peer uuid
  match c with
  | .admin adminReq => cmds ++ [newCMD { header := some header, adminRequest := some adminReq } tp 0]
  | .req req =>
    let req := dataRequest group req
    let n := cfg.size req
    let fits (c : Cmd) : Bool :=
      c.tp == tp && !c.isFull n cfg.maxEntryBytes cfg.testMaxProposalRequestCount && c.canAppend req
    match cmds.updateFirst fits (·.append req n) with
    | some cmds => cmds
    | none =>
      let header := { header with ignoreEpochCheck := req.ignoreEpochCheck }
      cmds ++ [newCMD { header := some header, requests := [req] } tp n]

/-- `proposeBatch.pop`: the oldest command and the ones left. -/
def pop : List Cmd → Option (Cmd × List Cmd)
  | [] => none
  | c :: cmds => some (c, cmds)

/-- The calls on a proposal batch, `push` with the peer's shard and peer and
the id it draws. -/
inductive BatchOp where
  | push (shard : Shard) (peer : Peer) (uuid : Bytes) (group : UInt64) (c : ReqCtx)
  | pop

/-- A proposal batch with the commands popped from it so far, oldest first. -/
structure BatchRun where
  cmds : List Cmd
  popped : List Cmd

/-- One call on the batch. -/
def batchStep (cfg : BatchConfig) (r : BatchRun) : BatchOp → BatchRun
  | .push shard peer uuid group c => { r with cmds := push cfg shard peer uuid r.cmds group c }
  | .pop =>
    match pop r.cmds with
    | none => r
    | some (c, cmds) => ⟨cmds, r.popped ++ [c]⟩

/-- A run of calls from `newBatch`. -/
def runBatch (cfg : BatchConfig) (ops : List BatchOp) : BatchRun :=
  ops.foldl (batchStep cfg) ⟨[], []⟩

/-- What a push hands to the batch, its key rewritten. -/
def ReqCtx.prepare (group : UInt64) : ReqCtx → ReqCtx
  | .admin a => .admin a
  | .req r => .req (dataRequest group r)

/-- The requests pushed by a run, in order. -/
def pushedReqs : List BatchOp → List ReqCtx
  | [] => []
  | .push _ _ _ group c :: ops => c.prepare group :: pushedReqs ops
  | .pop :: ops => pushedReqs ops

/-- The requests a command holds: its admin request and its reads or writes. -/
def Cmd.reqs (c : Cmd) : List ReqCtx :=
  c.req.adminRequest.toList.map .admin ++ c.req.requests.map .req

/-- The shape of a command of the batch: a header whose `IgnoreEpochCheck` all
its requests share, requests of its own type, the sum of their sizes as its
size, below `MaxEntryBytes` once it holds two, and no read index yet. -/
structure CmdShape (cfg : BatchConfig) (c : Cmd) : Prop where
  header : ∃ h, c.req.header = some h ∧ ∀ r ∈ c.req.requests, r.ignoreEpochCheck = h.ignoreEpochCheck
  tp : ∀ r ∈ c.req.requests, getType (.req r) = c.tp
  size : c.size = (c.req.requests.map cfg.size).sum
  bound : 2 ≤ c.req.requests.length → (c.size : Int) < cfg.maxEntryBytes
  readIndexCommittedIndex : c.readIndexCommittedIndex = 0

/-- The batch invariant on the commands held and popped, after the requests
`pushed`: they hold exactly the requests pushed, each has its shape, and the
requests of each come in push order. -/
structure BatchInv (cfg : BatchConfig) (pushed : List ReqCtx) (cmds : List Cmd) : Prop where
  perm : List.Perm (cmds.flatMap Cmd.reqs) pushed
  shape : ∀ c ∈ cmds, CmdShape cfg c
  order : ∀ c ∈ cmds, List.Sublist (c.req.requests.map .req) pushed

section Batch

variable {cfg : BatchConfig}

@[simp] theorem Cmd.reqs_append (c : Cmd) (req : Request) (n : Nat) :
    (c.append req n).reqs = c.reqs ++ [.req req] := by
  simp [Cmd.reqs, Cmd.append]

/-- A command that fits a request keeps its shape with the request appended. -/
theorem CmdShape.append {c : Cmd} {req : Request} (hc : CmdShape cfg c)
    (htp : c.tp = getType (.req req))
    (hfull : c.isFull (cfg.size req) cfg.maxEntryBytes cfg.testMaxProposalRequestCount = false)
    (hcan : c.canAppend req = true) : CmdShape cfg (c.append req (cfg.size req)) := by
  obtain ⟨h, hh, hiec⟩ := hc.header
  have hsum : ((c.size + cfg.size req : Nat) : Int) < cfg.maxEntryBytes := by
    simp only [Cmd.isFull, Bool.or_eq_false_iff, decide_eq_false_iff_not] at hfull
    exact Int.lt_of_not_ge hfull.1
  have hreq : req.ignoreEpochCheck = h.ignoreEpochCheck := by
    simp only [Cmd.canAppend, hh, Option.getD_some, beq_iff_eq] at hcan
    exact hcan.symm
  refine ⟨⟨h, hh, ?_⟩, ?_, ?_, fun _ => hsum, hc.readIndexCommittedIndex⟩
  · intro r hr
    simp only [Cmd.append, List.mem_append, List.mem_singleton] at hr
    rcases hr with hr | rfl
    exacts [hiec r hr, hreq]
  · intro r hr
    simp only [Cmd.append, List.mem_append, List.mem_singleton] at hr
    rcases hr with hr | rfl
    exacts [hc.tp r hr, htp.symm]
  · simp [Cmd.append, hc.size]

/-- The new command of one request has its shape. -/
theorem cmdShape_newCMD (header : RaftRequestHeader) (req : Request) :
    CmdShape cfg (newCMD
      { header := some { header with ignoreEpochCheck := req.ignoreEpochCheck }
        requests := [req] } (getType (.req req)) (cfg.size req)) :=
  ⟨⟨_, rfl, by simp [newCMD]⟩, by simp [newCMD], by simp [newCMD], by simp [newCMD], rfl⟩

/-- `push` of a read or write: the request appended to the first command that
fits it, or a new command of it at the end. -/
theorem push_req (shard : Shard) (peer : Peer) (uuid : Bytes) (cmds : List Cmd) (group : UInt64)
    (r : Request) :
    let req := dataRequest group r
    (∃ A c B, cmds = A ++ c :: B ∧ c.tp = getType (.req req) ∧
      c.isFull (cfg.size req) cfg.maxEntryBytes cfg.testMaxProposalRequestCount = false ∧
      c.canAppend req = true ∧ push cfg shard peer uuid cmds group (.req r) = A ++ c.append req (cfg.size req) :: B) ∨
    push cfg shard peer uuid cmds group (.req r) =
      cmds ++ [newCMD { header := some { requestHeader shard peer uuid with
        ignoreEpochCheck := req.ignoreEpochCheck }, requests := [req] } (getType (.req req)) (cfg.size req)] := by
  intro req
  have htype : getType (.req req) = getType (.req r) := by simp [getType, req, dataRequest]
  unfold push
  dsimp only
  cases hup : cmds.updateFirst _ _ with
  | none => exact .inr (by rw [htype])
  | some cmds' =>
    obtain ⟨A, c, B, rfl, -, hc, rfl⟩ := List.updateFirst_eq_some hup
    simp only [Bool.and_eq_true, beq_iff_eq, Bool.not_eq_true'] at hc
    exact .inl ⟨A, c, B, rfl, hc.1.1.trans htype.symm, hc.1.2, hc.2, rfl⟩

/-- The invariant after a push that puts `c'` where the commands `old` were,
holding what they held and the request `x`. -/
theorem BatchInv.replace {pushed : List ReqCtx} {A old B : List Cmd} {c' : Cmd} {x : ReqCtx}
    (hinv : BatchInv cfg pushed (A ++ old ++ B)) (hreqs : c'.reqs = old.flatMap Cmd.reqs ++ [x])
    (hshape : CmdShape cfg c') (horder : List.Sublist (c'.req.requests.map .req) (pushed ++ [x])) :
    BatchInv cfg (pushed ++ [x]) (A ++ c' :: B) := by
  have hmem : ∀ d ∈ A ++ c' :: B, d = c' ∨ d ∈ A ++ old ++ B := by
    intro d hd
    simp only [List.mem_append, List.mem_cons] at hd ⊢
    tauto
  refine ⟨?_, fun d hd => ?_, fun d hd => ?_⟩
  · -- the new request moves from the middle to the end
    have hmid : List.Perm ((A ++ c' :: B).flatMap Cmd.reqs) ((A ++ old ++ B).flatMap Cmd.reqs ++ [x]) := by
      simp only [List.flatMap_append, List.flatMap_cons, hreqs, List.append_assoc, List.singleton_append]
      exact .append_left _ (.append_left _ (List.perm_append_singleton x _).symm)
    exact hmid.trans (hinv.perm.append_right [x])
  · rcases hmem d hd with rfl | hd
    exacts [hshape, hinv.shape d hd]
  · rcases hmem d hd with rfl | hd
    exacts [horder, (hinv.order d hd).trans (List.sublist_append_left _ _)]

theorem batchInv_push {pushed : List ReqCtx} {cmds popped : List Cmd}
    (hinv : BatchInv cfg pushed (cmds ++ popped)) (shard : Shard) (peer : Peer) (uuid : Bytes)
    (group : UInt64) (c : ReqCtx) :
    BatchInv cfg (pushed ++ [c.prepare group]) (push cfg shard peer uuid cmds group c ++ popped) := by
  cases c with
  | admin a =>
    -- a command of its own at the end
    show BatchInv cfg (pushed ++ [.admin a])
      ((cmds ++ [newCMD { header := some (requestHeader shard peer uuid), adminRequest := some a } .admin 0])
        ++ popped)
    rw [List.append_assoc, List.singleton_append]
    exact @BatchInv.replace _ _ _ [] _ _ _ (by simpa using hinv) (by simp [Cmd.reqs, newCMD])
      ⟨⟨_, rfl, by simp [newCMD]⟩, by simp [newCMD], by simp [newCMD], by simp [newCMD], rfl⟩
      (by simp [newCMD])
  | req r =>
    rcases @push_req cfg shard peer uuid cmds group r with
      ⟨A, c, B, rfl, htp, hfull, hcan, hpush⟩ | hpush
    · -- appended to the command `c`
      have hc : c ∈ A ++ c :: B ++ popped := by simp
      rw [hpush, List.append_assoc, List.cons_append]
      exact @BatchInv.replace _ _ _ [c] _ _ (.req (dataRequest group r)) (by simpa using hinv) (by simp)
        ((hinv.shape c hc).append htp hfull hcan)
        (by simpa [Cmd.append] using (hinv.order c hc).append (List.Sublist.refl [ReqCtx.req (dataRequest group r)]))
    · -- a new command at the end
      rw [hpush, List.append_assoc, List.singleton_append]
      exact @BatchInv.replace _ _ _ [] _ _ (.req (dataRequest group r)) (by simpa using hinv)
        (by simp [Cmd.reqs, newCMD]) (cmdShape_newCMD _ _) (by simp [newCMD])

/-- The invariant only asks what the commands hold, in any order. -/
theorem BatchInv.of_perm {pushed : List ReqCtx} {cmds cmds' : List Cmd} (hinv : BatchInv cfg pushed cmds)
    (hp : List.Perm cmds cmds') : BatchInv cfg pushed cmds' :=
  ⟨(hp.flatMap_right Cmd.reqs).symm.trans hinv.perm, fun c hc => hinv.shape c (hp.mem_iff.mpr hc),
    fun c hc => hinv.order c (hp.mem_iff.mpr hc)⟩

/-- `pop` moves the oldest command from the batch to the popped ones. -/
theorem batchInv_pop {pushed : List ReqCtx} {cmds popped rest : List Cmd} {c : Cmd}
    (hinv : BatchInv cfg pushed (cmds ++ popped)) (h : pop cmds = some (c, rest)) :
    BatchInv cfg pushed (rest ++ (popped ++ [c])) := by
  obtain rfl : cmds = c :: rest := by
    cases cmds with
    | nil => cases h
    | cons c' rest' =>
      simp only [pop, Option.some.injEq, Prod.mk.injEq] at h
      rw [h.1, h.2]
  refine hinv.of_perm ?_
  rw [List.cons_append, ← List.append_assoc]
  exact (List.perm_append_singleton c _).symm

theorem pushedReqs_cons (op : BatchOp) (ops : List BatchOp) :
    pushedReqs (op :: ops) = pushedReqs [op] ++ pushedReqs ops := by
  cases op <;> rfl

/-- One call keeps the invariant, with what it pushed added. -/
theorem batchInv_step {pushed : List ReqCtx} {r : BatchRun} (hinv : BatchInv cfg pushed (r.cmds ++ r.popped))
    (op : BatchOp) :
    BatchInv cfg (pushed ++ pushedReqs [op]) ((batchStep cfg r op).cmds ++ (batchStep cfg r op).popped) := by
  cases op with
  | push shard peer uuid group c => exact batchInv_push hinv shard peer uuid group c
  | pop =>
    simp only [pushedReqs, List.append_nil, batchStep]
    cases h : pop r.cmds with
    | none => exact hinv
    | some p => exact batchInv_pop hinv h

/-- The run lemma: calls from a batch with the invariant keep it. -/
theorem batchInv_foldl (ops : List BatchOp) :
    ∀ (r : BatchRun) (pushed : List ReqCtx), BatchInv cfg pushed (r.cmds ++ r.popped) →
      BatchInv cfg (pushed ++ pushedReqs ops)
        ((ops.foldl (batchStep cfg) r).cmds ++ (ops.foldl (batchStep cfg) r).popped) := by
  induction ops with
  | nil => intro r pushed hinv; simpa [pushedReqs] using hinv
  | cons op ops ih =>
    intro r pushed hinv
    rw [List.foldl_cons, pushedReqs_cons, ← List.append_assoc]
    exact ih _ _ (batchInv_step hinv op)

theorem batchInv_runBatch (ops : List BatchOp) :
    BatchInv cfg (pushedReqs ops) ((runBatch cfg ops).cmds ++ (runBatch cfg ops).popped) := by
  have h := @batchInv_foldl cfg ops ⟨[], []⟩ [] ⟨by simp, by simp, by simp⟩
  rwa [List.nil_append] at h

theorem getType_req (q : Request) : getType (.req q) = .read ∨ getType (.req q) = .write := by
  simp only [getType]
  split <;> simp

theorem getType_eq_write_iff (q : Request) : getType (.req q) = .write ↔ q.type = .write := by
  simp only [getType]
  split <;> simp_all

/-- A command of the batch that holds a write holds only writes. -/
theorem BatchInv.all_write {pushed : List ReqCtx} {cmds : List Cmd} (hinv : BatchInv cfg pushed cmds)
    {c : Cmd} (hc : c ∈ cmds) (hw : c.req.requests.any (·.type == .write) = true) :
    c.req.requests.all (·.type == .write) = true := by
  have htp := (hinv.shape c hc).tp
  obtain ⟨q, hq, hqw⟩ := List.any_eq_true.mp hw
  -- the write fixes the type of the command
  have hwrite : c.tp = .write := by
    rw [← htp q hq, getType_eq_write_iff]
    simpa using hqw
  refine List.all_eq_true.mpr fun r hr => ?_
  have hr' := (getType_eq_write_iff r).mp ((htp r hr).trans hwrite)
  simp [hr']

end Batch


/-- Proposal batching loses and duplicates nothing: after any calls of `push`
and `pop` on a new batch, the commands held and those popped hold exactly the
requests pushed, their keys rewritten. A command's requests share its type,
read or write, and its header's `IgnoreEpochCheck`, and come in push order;
its size is the sum of theirs, below `MaxEntryBytes` once it holds two. -/
theorem proposeBatch_loses_nothing (cfg : BatchConfig) (ops : List BatchOp) :
    let r := runBatch cfg ops
    List.Perm ((r.cmds ++ r.popped).flatMap Cmd.reqs) (pushedReqs ops) ∧
    ∀ c ∈ r.cmds ++ r.popped,
      (c.req.requests ≠ [] → c.tp = .read ∨ c.tp = .write) ∧
      (∃ h, c.req.header = some h ∧
        ∀ q ∈ c.req.requests, getType (.req q) = c.tp ∧ q.ignoreEpochCheck = h.ignoreEpochCheck) ∧
      List.Sublist (c.req.requests.map .req) (pushedReqs ops) ∧
      c.size = (c.req.requests.map cfg.size).sum ∧
      (2 ≤ c.req.requests.length → (c.size : Int) < cfg.maxEntryBytes) := by
  intro r
  have hinv := @batchInv_runBatch cfg ops
  refine ⟨hinv.perm, fun c hc => ?_⟩
  have hshape := hinv.shape c hc
  obtain ⟨h, hh, hiec⟩ := hshape.header
  refine ⟨fun hne => ?_, ⟨h, hh, fun q hq => ⟨hshape.tp q hq, hiec q hq⟩⟩, hinv.order c hc, hshape.size,
    hshape.bound⟩
  obtain ⟨q, hq⟩ := List.exists_mem_of_ne_nil _ hne
  rw [← hshape.tp q hq]
  exact getType_req q

/-! ## What `propose` makes of the commands -/

/-- `propose` never meets a mixed batch: a command `proposeBatch` builds, of
reads and writes, holds only writes when it holds one, so `getHandlePolicy`
proposes it exactly when it holds a write, reads it otherwise, and never
returns the mixed-batch error. -/
theorem getHandlePolicy_of_proposeBatch (cfg : BatchConfig) (ops : List BatchOp)
    (canReadLocal : Option (Shard → Bool)) (shard : Shard) :
    let r := runBatch cfg ops
    ∀ c ∈ r.cmds ++ r.popped, c.req.adminRequest = none →
      (c.req.requests.any (·.type == .write) = true → c.req.requests.all (·.type == .write) = true) ∧
      getHandlePolicy canReadLocal shard c.req =
        .ok (if c.req.requests.any (·.type == .write) then .proposeNormal
          else if canReadLocal.any (fun f => f shard) then .readLocal else .readIndex) := by
  intro r c hc hadmin
  have hall := (batchInv_runBatch ops).all_write hc
  refine ⟨hall, ?_⟩
  rw [getHandlePolicy_of_not_admin canReadLocal shard hadmin]
  simp only [getLast_type_eq_write_iff hall]

/-- Writes and reads pushed in turn make one command of writes, proposed, and
one of reads, read by `ReadIndex`. -/
theorem getHandlePolicy_of_proposeBatch_writes_reads :
    let cfg : BatchConfig := ⟨1000, 0, fun _ => 1⟩
    let ops : List BatchOp := [.push {} {} [1] 0 (.req { type := .write }),
      .push {} {} [2] 0 (.req { type := .read }), .push {} {} [3] 0 (.req { type := .write }),
      .push {} {} [4] 0 (.req { type := .read }), .pop]
    let r := runBatch cfg ops
    (r.cmds ++ r.popped).map (fun c => (c.req.requests.map (·.type), getHandlePolicy none {} c.req)) =
        [([.read, .read], .ok .readIndex), ([.write, .write], .ok .proposeNormal)] ∧
      ∀ c ∈ r.cmds ++ r.popped, c.req.adminRequest = none →
        (c.req.requests.any (·.type == .write) = true → c.req.requests.all (·.type == .write) = true) ∧
        getHandlePolicy none {} c.req =
          .ok (if c.req.requests.any (·.type == .write) then .proposeNormal
            else if (none : Option (Shard → Bool)).any (fun f => f {}) then .readLocal else .readIndex) := by
  intro cfg ops r
  exact ⟨by decide, getHandlePolicy_of_proposeBatch cfg ops none {}⟩

/-- A command holds requests that are neither reads nor writes: `getType`
classes every type but `Write` as a read, so a `Read` and a request of the
default type `Invalid` pushed after it share a command, which `getHandlePolicy`
reads by `ReadIndex`. -/
theorem getHandlePolicy_of_proposeBatch_invalid :
    let r := runBatch ⟨1000, 0, fun _ => 1⟩
      [.push {} {} [1] 0 (.req { type := .read }), .push {} {} [2] 0 (.req {}), .pop]
    r.popped.map (fun c => (c.req.requests.map (·.type), getHandlePolicy none {} c.req)) =
      [([.read, .invalid], .ok .readIndex)] := by
  decide

/-! ## The read-index queue -/

/-- `raft.ReadState`: the read index raft answers for the request of context
`requestCtx`. -/
structure ReadState where
  index : Nat
  requestCtx : Bytes
  deriving DecidableEq, Repr

/-- `readIndexQueue` without its shard id, which only its log message
prints. -/
structure ReadIndexQueue where
  reads : List Cmd
  readyToRead : Int
  deriving DecidableEq, Repr

/-- `readIndexQueue.reset`. -/
def ReadIndexQueue.reset (q : ReadIndexQueue) : ReadIndexQueue := { q with reads := [], readyToRead := 0 }

/-- `readIndexQueue.push`. -/
def ReadIndexQueue.push (q : ReadIndexQueue) (c : Cmd) : ReadIndexQueue := { q with reads := q.reads ++ [c] }

/-- `readIndexQueue.ready`. `none` is the `Fatalf` on a context that is not
that of `q.reads[q.readyToRead]`, and the panic when that index is out of
range. The search for the read then starts again from the first one. -/
def ReadIndexQueue.ready (q : ReadIndexQueue) (state : ReadState) : Option ReadIndexQueue :=
  if q.readyToRead < 0 then none
  else
    match q.reads[q.readyToRead.toNat]? with
    | none => none
    | some next =>
      if state.requestCtx ≠ next.getUUID then none
      else
        match q.reads.updateFirst (·.getUUID == state.requestCtx)
            (fun c => { c with readIndexCommittedIndex := state.index }) with
        | some reads => some ⟨reads, q.readyToRead + 1⟩
        | none => some q

/-- The condition on which `doReadLEAppliedIndex` executes a read. -/
def Cmd.readable (c : Cmd) (appliedIndex : Nat) : Bool :=
  decide (c.readIndexCommittedIndex > 0) && decide (c.readIndexCommittedIndex ≤ appliedIndex)

/-- The loop of `doReadLEAppliedIndex` on one read: executed, with the counter
decremented, or kept. -/
def doReadStep (appliedIndex : Nat) (acc : List Cmd × List Cmd × Int) (c : Cmd) :
    List Cmd × List Cmd × Int :=
  if c.readable appliedIndex then (acc.1 ++ [c], acc.2.1, acc.2.2 - 1)
  else (acc.1, acc.2.1 ++ [c], acc.2.2)

/-- `readIndexQueue.doReadLEAppliedIndex`: the reads `doExecReadCmd` executes,
in order, and the queue left. -/
def ReadIndexQueue.doReadLEAppliedIndex (q : ReadIndexQueue) (appliedIndex : Nat) :
    List Cmd × ReadIndexQueue :=
  if q.reads.length = 0 ∨ q.readyToRead ≤ 0 then ([], q)
  else
    let (executed, newCmds, readyToRead) := q.reads.foldl (doReadStep appliedIndex) ([], [], q.readyToRead)
    (executed, ⟨newCmds, readyToRead⟩)

/-- The calls on the read-index queue. -/
inductive ReadOp where
  | push (c : Cmd)
  | ready (state : ReadState)
  | doReadLEAppliedIndex (appliedIndex : Nat)
  | reset

/-- A read-index queue with the ids of the reads pushed to it so far, and the
reads executed, each with the applied index of the call that executed it. -/
structure ReadRun where
  q : ReadIndexQueue
  pushed : List Bytes
  executed : List (Cmd × Nat)

/-- One call on the queue; `none` when it faults. -/
def readStep (r : ReadRun) : ReadOp → Option ReadRun
  | .push c => some ⟨r.q.push c, r.pushed ++ [c.getUUID], r.executed⟩
  | .ready state => (r.q.ready state).map fun q => { r with q }
  | .doReadLEAppliedIndex appliedIndex =>
    let (executed, q) := r.q.doReadLEAppliedIndex appliedIndex
    some ⟨q, r.pushed, r.executed ++ executed.map (·, appliedIndex)⟩
  | .reset => some { r with q := r.q.reset }

/-- What the callers of the queue guarantee. A read pushed comes from the
proposal batch, with no read index yet, and has an id of its own
(`uuid.NewV4`). `ready` is called with the context of `reads[readyToRead]`
and the index raft answers, which is positive: raft answers a read index only
once an entry of the leader's term is committed. -/
def ReadContract (r : ReadRun) : ReadOp → Prop
  | .push c => c.readIndexCommittedIndex = 0 ∧ c.getUUID ∉ r.pushed
  | .ready state => 0 ≤ r.q.readyToRead ∧ ∃ next, r.q.reads[r.q.readyToRead.toNat]? = some next ∧
      state.requestCtx = next.getUUID ∧ 0 < state.index
  | .doReadLEAppliedIndex _ => True
  | .reset => True

/-- The runs of the queue from an empty one under the callers' guarantees. -/
inductive ReadReachable : ReadRun → Prop where
  | init : ReadReachable ⟨⟨[], 0⟩, [], []⟩
  | step {r r' : ReadRun} {op : ReadOp} :
      ReadReachable r → ReadContract r op → readStep r op = some r' → ReadReachable r'

/-- The ids of the reads queued and executed. -/
def ReadRun.ids (r : ReadRun) : List Bytes :=
  r.q.reads.map Cmd.getUUID ++ r.executed.map (·.1.getUUID)

/-- The invariant of the queue: the reads with a read index are the first
`readyToRead`, no read is queued or executed twice, every read queued or
executed was pushed, and a read was executed only once the applied index
reached its read index. -/
structure ReadInv (r : ReadRun) : Prop where
  ready : ∃ A B, r.q.reads = A ++ B ∧ (∀ c ∈ A, 0 < c.readIndexCommittedIndex) ∧
    (∀ c ∈ B, c.readIndexCommittedIndex = 0) ∧ r.q.readyToRead = A.length
  nodup : r.ids.Nodup
  pushed : ∀ u ∈ r.ids, u ∈ r.pushed
  executed : ∀ e ∈ r.executed, 0 < e.1.readIndexCommittedIndex ∧ e.1.readIndexCommittedIndex ≤ e.2

section ReadQueue

/-- The loop of `doReadLEAppliedIndex`: it executes the readable reads and
keeps the others, both in order, and lowers the counter once per read
executed. -/
theorem foldl_doReadStep (appliedIndex : Nat) :
    ∀ (l E K : List Cmd) (n : Int), l.foldl (doReadStep appliedIndex) (E, K, n) =
      (E ++ l.filter (·.readable appliedIndex), K ++ l.filter (fun c => !c.readable appliedIndex),
        n - (l.filter (·.readable appliedIndex)).length)
  | [], E, K, n => by simp
  | c :: l, E, K, n => by
    rw [List.foldl_cons]
    by_cases hc : c.readable appliedIndex
    · rw [show doReadStep appliedIndex (E, K, n) c = (E ++ [c], K, n - 1) by simp [doReadStep, hc],
        foldl_doReadStep appliedIndex l]
      simp [hc]
      omega
    · rw [show doReadStep appliedIndex (E, K, n) c = (E, K ++ [c], n) by simp [doReadStep, hc],
        foldl_doReadStep appliedIndex l]
      simp [hc]

theorem doReadLEAppliedIndex_eq (q : ReadIndexQueue) (appliedIndex : Nat) :
    q.doReadLEAppliedIndex appliedIndex =
      if q.reads.length = 0 ∨ q.readyToRead ≤ 0 then ([], q)
      else (q.reads.filter (·.readable appliedIndex),
        ⟨q.reads.filter (fun c => !c.readable appliedIndex),
          q.readyToRead - (q.reads.filter (·.readable appliedIndex)).length⟩) := by
  unfold ReadIndexQueue.doReadLEAppliedIndex
  split_ifs
  · rfl
  · rw [foldl_doReadStep]
    simp

variable {r : ReadRun}

theorem readInv_push (hinv : ReadInv r) {c : Cmd} (hc : c.readIndexCommittedIndex = 0)
    (hfresh : c.getUUID ∉ r.pushed) : ReadInv ⟨r.q.push c, r.pushed ++ [c.getUUID], r.executed⟩ := by
  obtain ⟨A, B, hAB, hA, hB, hr⟩ := hinv.ready
  have hids : ReadRun.ids ⟨r.q.push c, r.pushed ++ [c.getUUID], r.executed⟩ =
      r.q.reads.map Cmd.getUUID ++ c.getUUID :: r.executed.map (·.1.getUUID) := by
    simp [ReadRun.ids, ReadIndexQueue.push]
  refine ⟨⟨A, B ++ [c], by simp [ReadIndexQueue.push, hAB], hA, ?_, hr⟩, ?_, ?_, hinv.executed⟩
  · intro d hd
    rcases List.mem_append.mp hd with hd | hd
    · exact hB d hd
    · rw [List.mem_singleton.mp hd, hc]
  · -- the new id is fresh: every id queued or executed was pushed before
    rw [hids, List.nodup_middle, List.nodup_cons]
    exact ⟨fun h => hfresh (hinv.pushed _ h), hinv.nodup⟩
  · intro u hu
    rw [hids, List.mem_append, List.mem_cons, or_left_comm, ← List.mem_append] at hu
    rcases hu with rfl | hu
    · simp
    · exact List.mem_append_left _ (hinv.pushed u hu)

/-- `ready` for the next read, with a positive index, finds that read: the
ids are distinct, so the search from the first read stops there. -/
theorem readInv_ready (hinv : ReadInv r) {state : ReadState} (hc : ReadContract r (.ready state)) :
    ∃ q, r.q.ready state = some q ∧ ReadInv { r with q } := by
  obtain ⟨A, B, hAB, hA, hB, hr⟩ := hinv.ready
  obtain ⟨hnn, next, hnext, hctx, hidx⟩ := hc
  have htoNat : r.q.readyToRead.toNat = A.length := by omega
  rw [htoNat, hAB, List.getElem?_append_right (Nat.le_refl _), Nat.sub_self] at hnext
  obtain ⟨B', rfl⟩ : ∃ B', B = next :: B' := by
    cases B with
    | nil => cases hnext
    | cons b B' => exact ⟨B', by simpa using hnext⟩
  -- the reads before `next` have other ids
  have hA' : ∀ a ∈ A, (a.getUUID == next.getUUID) = false := by
    have hnd := (List.nodup_append.mp hinv.nodup).1
    rw [hAB, List.map_append, List.nodup_append] at hnd
    intro a ha
    simpa using hnd.2.2 _ (List.mem_map_of_mem ha) _ (List.mem_map_of_mem List.mem_cons_self)
  let next' := { next with readIndexCommittedIndex := state.index }
  have hids : ReadRun.ids ⟨⟨A ++ next' :: B', A.length + 1⟩, r.pushed, r.executed⟩ = r.ids := by
    simp [ReadRun.ids, hAB, next', Cmd.getUUID]
  refine ⟨⟨A ++ next' :: B', A.length + 1⟩, ?_, ?_⟩
  · unfold ReadIndexQueue.ready
    rw [if_neg (by omega), htoNat, hAB, List.getElem?_append_right (Nat.le_refl _), Nat.sub_self]
    simp only [List.getElem?_cons_zero, hctx, ne_eq, not_true_eq_false, if_false]
    rw [List.updateFirst_append_cons B' hA' (by simp), hr]
  · refine ⟨⟨A ++ [next'], B', by simp, ?_, fun c hc => hB c (List.mem_cons_of_mem _ hc), by simp⟩,
      hids ▸ hinv.nodup, hids ▸ hinv.pushed, hinv.executed⟩
    intro c hc
    rcases List.mem_append.mp hc with hc | hc
    · exact hA c hc
    · rw [List.mem_singleton.mp hc]
      exact hidx

/-- `doReadLEAppliedIndex` executes readable reads of the ready prefix only,
and only moves ids from the queue to the executed reads. -/
theorem readInv_doReadLEAppliedIndex (hinv : ReadInv r) (appliedIndex : Nat) :
    ReadInv ⟨(r.q.doReadLEAppliedIndex appliedIndex).2, r.pushed,
      r.executed ++ (r.q.doReadLEAppliedIndex appliedIndex).1.map (·, appliedIndex)⟩ := by
  rw [doReadLEAppliedIndex_eq]
  split_ifs with hskip
  · simpa using hinv
  obtain ⟨A, B, hAB, hA, hB, hr⟩ := hinv.ready
  -- the reads without a read index are kept
  have hBr : B.filter (·.readable appliedIndex) = [] :=
    List.filter_eq_nil_iff.mpr fun c hc => by simp [Cmd.readable, hB c hc]
  have hBk : B.filter (fun c => !c.readable appliedIndex) = B :=
    List.filter_eq_self.mpr fun c hc => by simp [Cmd.readable, hB c hc]
  set E := A.filter (·.readable appliedIndex)
  set K := A.filter (fun c => !c.readable appliedIndex)
  have hsplit : A.length = E.length + K.length := List.length_eq_length_filter_add _
  -- the ids are those of before, with the executed ones moved to the end
  have hperm : List.Perm (ReadRun.ids ⟨⟨K ++ B, r.q.readyToRead - E.length⟩, r.pushed,
      r.executed ++ E.map (·, appliedIndex)⟩) r.ids := by
    have hA : List.Perm (E.map Cmd.getUUID ++ K.map Cmd.getUUID) (A.map Cmd.getUUID) := by
      rw [← List.map_append]
      exact (List.filter_append_perm _ A).map _
    have hids' : ReadRun.ids ⟨⟨K ++ B, r.q.readyToRead - E.length⟩, r.pushed,
        r.executed ++ E.map (·, appliedIndex)⟩ =
        (K.map Cmd.getUUID ++ B.map Cmd.getUUID ++ r.executed.map (·.1.getUUID)) ++ E.map Cmd.getUUID := by
      simp [ReadRun.ids, Function.comp_def]
    have hids : r.ids = A.map Cmd.getUUID ++ (B.map Cmd.getUUID ++ r.executed.map (·.1.getUUID)) := by
      simp [ReadRun.ids, hAB]
    rw [hids', hids]
    refine List.perm_append_comm.trans ?_
    simpa only [List.append_assoc] using hA.append_right (B.map Cmd.getUUID ++ r.executed.map (·.1.getUUID))
  simp only [hAB, List.filter_append, hBr, hBk, List.append_nil]
  refine ⟨⟨K, B, rfl, fun c hc => hA c (List.mem_of_mem_filter hc), hB, ?_⟩,
    hperm.nodup_iff.mpr hinv.nodup, fun u hu => hinv.pushed u (hperm.mem_iff.mp hu), fun e he => ?_⟩
  · -- the counter drops by the number of reads executed
    show r.q.readyToRead - (E.length : Int) = K.length
    omega
  rcases List.mem_append.mp he with he | he
  · exact hinv.executed e he
  · obtain ⟨c, hc, rfl⟩ := List.mem_map.mp he
    simpa [Cmd.readable] using (List.mem_filter.mp hc).2

theorem readInv_reset (hinv : ReadInv r) : ReadInv { r with q := r.q.reset } := by
  have hsub : List.Sublist (ReadRun.ids { r with q := r.q.reset }) r.ids := by
    simp [ReadRun.ids, ReadIndexQueue.reset]
  exact ⟨⟨[], [], rfl, by simp, by simp, rfl⟩, hinv.nodup.sublist hsub,
    fun u hu => hinv.pushed u (hsub.subset hu), hinv.executed⟩

/-- Under the callers' guarantees no call faults, and each keeps the
invariant. -/
theorem readInv_step (hinv : ReadInv r) {op : ReadOp} (hc : ReadContract r op) :
    ∃ r', readStep r op = some r' ∧ ReadInv r' := by
  cases op with
  | push c => exact ⟨_, rfl, readInv_push hinv hc.1 hc.2⟩
  | ready state =>
    obtain ⟨q, hq, hinv'⟩ := readInv_ready hinv hc
    exact ⟨_, by simp [readStep, hq], hinv'⟩
  | doReadLEAppliedIndex appliedIndex => exact ⟨_, rfl, readInv_doReadLEAppliedIndex hinv appliedIndex⟩
  | reset => exact ⟨_, rfl, readInv_reset hinv⟩

theorem ReadReachable.inv (h : ReadReachable r) : ReadInv r := by
  induction h with
  | init => exact ⟨⟨[], [], rfl, by simp, by simp, rfl⟩, by simp [ReadRun.ids], by simp [ReadRun.ids], by simp⟩
  | step _ hc hstep ih =>
    obtain ⟨r', hr', hinv'⟩ := readInv_step ih hc
    rw [hstep, Option.some.injEq] at hr'
    exact hr' ▸ hinv'

end ReadQueue

/-- The reads pushed to the queue are commands the proposal batch popped, and
these have no read index yet, as the queue's callers guarantee. -/
theorem readIndexCommittedIndex_of_popped (cfg : BatchConfig) (ops : List BatchOp) {c : Cmd}
    (hc : c ∈ (runBatch cfg ops).popped) : c.readIndexCommittedIndex = 0 :=
  ((batchInv_runBatch ops).shape c (List.mem_append_right _ hc)).readIndexCommittedIndex

/-- The read-index queue under its callers' guarantees: `readyToRead` counts
the queued reads that have a read index, and these come first. No read is
executed twice, or while still queued; a read executed was pushed, and the
applied index of the call that executed it had reached its read index. No
call faults. -/
theorem readIndexQueue_executes_once {r : ReadRun} (h : ReadReachable r) :
    r.q.readyToRead = (r.q.reads.countP (fun c => 0 < c.readIndexCommittedIndex) : Int) ∧
    (∃ A B, r.q.reads = A ++ B ∧ (∀ c ∈ A, 0 < c.readIndexCommittedIndex) ∧
      ∀ c ∈ B, c.readIndexCommittedIndex = 0) ∧
    (r.q.reads.map Cmd.getUUID ++ r.executed.map (·.1.getUUID)).Nodup ∧
    (∀ e ∈ r.executed, e.1.getUUID ∈ r.pushed ∧ 0 < e.1.readIndexCommittedIndex ∧
      e.1.readIndexCommittedIndex ≤ e.2) ∧
    ∀ op, ReadContract r op → ∃ r', readStep r op = some r' := by
  have hinv := h.inv
  obtain ⟨A, B, hAB, hA, hB, hr⟩ := hinv.ready
  have hcount : r.q.reads.countP (fun c => 0 < c.readIndexCommittedIndex) = A.length := by
    rw [hAB, List.countP_append, List.countP_eq_length.mpr (by simpa using hA),
      List.countP_eq_zero.mpr (by simpa using hB), Nat.add_zero]
  refine ⟨by rw [hcount, hr], ⟨A, B, hAB, hA, hB⟩, hinv.nodup, fun e he => ⟨?_, hinv.executed e he⟩,
    fun op hc => (readInv_step hinv hc).imp fun _ h => h.1⟩
  exact hinv.pushed _ (List.mem_append_right _ (List.mem_map_of_mem he))

/-- Three reads pushed, the first two given read indexes 5 and 7, and a call
at applied index 6: the first is executed, the second waits with its read
index and the third without one. -/
theorem readIndexQueue_executes_once_three_reads :
    let c₁ : Cmd := { req := { header := some { id := [1] } }, tp := .read, size := 0 }
    let c₂ : Cmd := { req := { header := some { id := [2] } }, tp := .read, size := 0 }
    let c₃ : Cmd := { req := { header := some { id := [3] } }, tp := .read, size := 0 }
    let r : ReadRun := ⟨⟨[{ c₂ with readIndexCommittedIndex := 7 }, c₃], 1⟩, [[1], [2], [3]],
      [({ c₁ with readIndexCommittedIndex := 5 }, 6)]⟩
    ReadReachable r ∧
      (r.q.readyToRead = (r.q.reads.countP (fun c => 0 < c.readIndexCommittedIndex) : Int) ∧
      (∃ A B, r.q.reads = A ++ B ∧ (∀ c ∈ A, 0 < c.readIndexCommittedIndex) ∧
        ∀ c ∈ B, c.readIndexCommittedIndex = 0) ∧
      (r.q.reads.map Cmd.getUUID ++ r.executed.map (·.1.getUUID)).Nodup ∧
      (∀ e ∈ r.executed, e.1.getUUID ∈ r.pushed ∧ 0 < e.1.readIndexCommittedIndex ∧
        e.1.readIndexCommittedIndex ≤ e.2) ∧
      ∀ op, ReadContract r op → ∃ r', readStep r op = some r') := by
  intro c₁ c₂ c₃ r
  have h₁ : ReadReachable ⟨⟨[c₁], 0⟩, [[1]], []⟩ :=
    @ReadReachable.step _ _ (.push c₁) .init ⟨rfl, by simp⟩ rfl
  have h₂ : ReadReachable ⟨⟨[c₁, c₂], 0⟩, [[1], [2]], []⟩ :=
    @ReadReachable.step _ _ (.push c₂) h₁ ⟨rfl, by decide⟩ rfl
  have h₃ : ReadReachable ⟨⟨[c₁, c₂, c₃], 0⟩, [[1], [2], [3]], []⟩ :=
    @ReadReachable.step _ _ (.push c₃) h₂ ⟨rfl, by decide⟩ rfl
  have h₄ : ReadReachable ⟨⟨[{ c₁ with readIndexCommittedIndex := 5 }, c₂, c₃], 1⟩, [[1], [2], [3]], []⟩ :=
    @ReadReachable.step _ _ (.ready ⟨5, [1]⟩) h₃ ⟨by decide, c₁, rfl, rfl, by decide⟩ rfl
  have h₅ : ReadReachable ⟨⟨[{ c₁ with readIndexCommittedIndex := 5 }, { c₂ with readIndexCommittedIndex := 7 },
      c₃], 2⟩, [[1], [2], [3]], []⟩ :=
    @ReadReachable.step _ _ (.ready ⟨7, [2]⟩) h₄ ⟨by decide, c₂, rfl, rfl, by decide⟩ rfl
  have h : ReadReachable r := @ReadReachable.step _ _ (.doReadLEAppliedIndex 6) h₅ trivial rfl
  exact ⟨h, readIndexQueue_executes_once h⟩

end MatrixCube.Raftstore.Batch
