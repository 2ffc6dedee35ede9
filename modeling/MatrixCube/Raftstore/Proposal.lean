import MatrixCube.Pb

/-! # Request policies

`peerReplica.getHandlePolicy` (`peer_event_proposal.go`) decides how
`propose` handles a command: an admin request by its command type, a batch of
reads and writes by a loop over its requests. The loop assigns `isRead` and
`isWrite` from each request in turn instead of accumulating them, so the last
request of the batch alone decides, and the error for a batch mixing reads and
writes is never raised. No batch `proposeBatch` builds mixes them: a command
that holds a write holds only writes, and on such commands the last request
decides as any request would.
-/

namespace MatrixCube.Raftstore

/-- `requestPolicy`. -/
inductive RequestPolicy where
  | readLocal
  | readIndex
  | proposeNormal
  | proposeTransferLeader
  | proposeChange
  deriving DecidableEq, Repr

/-- The error of `getHandlePolicy`. -/
inductive HandlePolicyError where
  /-- `read and write can't be mixed in one batch` -/
  | readWriteMixed
  deriving DecidableEq, Repr

/-- The loop of `getHandlePolicy` over the requests: each request sets both
flags. -/
def policyFlags (requests : List Request) : Bool × Bool :=
  requests.foldl (fun _ r => (r.type == .read, r.type == .write)) (false, false)

/-- `peerReplica.getHandlePolicy`. `canReadLocal` is the store's
`Customize.CustomCanReadLocalFunc` (`none` for nil) and `shard` is
`pr.ps.shard`. Go returns `proposeNormal` beside the error, which `propose`
ignores. -/
def getHandlePolicy (canReadLocal : Option (Shard → Bool)) (shard : Shard) (req : RaftCMDRequest) :
    Except HandlePolicyError RequestPolicy :=
  match req.adminRequest with
  | some admin =>
    match admin.cmdType with
    | .changePeer => .ok .proposeChange
    | .changePeerV2 => .ok .proposeChange
    | .transferLeader => .ok .proposeTransferLeader
    | _ => .ok .proposeNormal
  | none =>
    let (isRead, isWrite) := policyFlags req.requests
    if isRead && isWrite then .error .readWriteMixed
    else if isWrite then .ok .proposeNormal
    else if canReadLocal.any fun f => f shard then .ok .readLocal
    else .ok .readIndex

/-- The flags the loop leaves are those of the last request. -/
theorem foldl_flags (init : Bool × Bool) :
    ∀ requests : List Request,
      requests.foldl (fun _ r => (r.type == .read, r.type == .write)) init =
        match requests.getLast? with
        | none => init
        | some r => (r.type == .read, r.type == .write)
  | [] => rfl
  | [_] => rfl
  | r :: r' :: rs => by
    rw [List.foldl_cons, foldl_flags _ (r' :: rs), List.getLast?_cons_cons]
    cases h : (r' :: rs).getLast? with
    | none => simp at h
    | some _ => rfl

/-- A request cannot be a read and a write at once, so the two flags are never
both set. -/
theorem policyFlags_not_both (requests : List Request) :
    ((policyFlags requests).1 && (policyFlags requests).2) = false := by
  rw [policyFlags, foldl_flags]
  split
  · rfl
  · rename_i r _
    cases r.type <;> rfl

/-- Without an admin request, `getHandlePolicy` never fails: the batch is
proposed when its last request is a write and read otherwise. -/
theorem getHandlePolicy_of_not_admin (canReadLocal : Option (Shard → Bool)) (shard : Shard)
    {req : RaftCMDRequest} (hadmin : req.adminRequest = none) :
    getHandlePolicy canReadLocal shard req =
      .ok (if (req.requests.getLast?.map (·.type)) = some .write then .proposeNormal
        else if canReadLocal.any (fun f => f shard) then .readLocal else .readIndex) := by
  have hboth := policyFlags_not_both req.requests
  have hwrite : (policyFlags req.requests).2 = true ↔ req.requests.getLast?.map (·.type) = some .write := by
    rw [policyFlags, foldl_flags]
    split <;> simp_all
  unfold getHandlePolicy
  rw [hadmin]
  rcases hf : policyFlags req.requests with ⟨isRead, isWrite⟩
  rw [hf] at hboth hwrite
  dsimp only at hboth hwrite ⊢
  simp only [hboth, Bool.false_eq_true, if_false]
  by_cases hw : isWrite = true
  · rw [if_pos hw, if_pos (hwrite.mp hw)]
  · rw [if_neg hw, if_neg (mt hwrite.mpr hw)]
    split <;> rfl

/-- On requests that are all writes when one is, the last one is a write
exactly when one is. -/
theorem getLast_type_eq_write_iff {requests : List Request}
    (hall : requests.any (·.type == .write) = true → requests.all (·.type == .write) = true) :
    requests.getLast?.map (·.type) = some .write ↔ requests.any (·.type == .write) = true := by
  constructor
  · intro h
    obtain ⟨r, hr, hrt⟩ := Option.map_eq_some_iff.mp h
    exact List.any_eq_true.mpr ⟨r, List.mem_of_getLast? hr, by simp [hrt]⟩
  · intro h
    cases hl : requests.getLast? with
    | none =>
      rw [List.getLast?_eq_none_iff.mp hl] at h
      cases h
    | some r =>
      have hr := List.all_eq_true.mp (hall h) r (List.mem_of_getLast? hl)
      simpa using hr

end MatrixCube.Raftstore
