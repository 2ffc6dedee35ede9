import MatrixCube.Pb

/-! # Membership changes

`doExecChangePeer` and `doExecChangePeerV2` (`peer_apply_exec.go`). Both start
from a deep copy `res` of `d.shard` and install it as `d.shard` on success.
In `applyConfChangeByKind` the peer a change acts on, `exist_peer`, is looked
up with `findPeer(&d.shard, …)`: a pointer into `d.shard.Peers`, not into
`res`. Role promotions and demotions are written through that pointer, so they
land in `d.shard`, are overwritten when `res` is installed, and survive when a
later change of the same batch fails. The model threads both shards through
the loop to keep that aliasing visible.
-/

namespace MatrixCube.Raftstore

/-- `confChangeKind`. -/
inductive ConfChangeKind where
  | simpleKind
  | enterJointKind
  | leaveJointKind
  deriving DecidableEq, Repr

/-- `getConfChangeKind`. -/
def getConfChangeKind (changeNum : Nat) : ConfChangeKind :=
  if changeNum = 0 then .leaveJointKind
  else if changeNum = 1 then .simpleKind
  else .enterJointKind

/-- `findPeer`: the first peer of the shard on the container. -/
def findPeer (shard : Shard) (storeID : UInt64) : Option Peer :=
  shard.peers.find? (fun p => p.containerID = storeID)

/-- A write of `Role` through the pointer `findPeer` returns. -/
def setPeerRole (shard : Shard) (storeID : UInt64) (role : PeerRole) : Shard :=
  match shard.peers.findIdx? (fun p => p.containerID = storeID) with
  | none => shard
  | some i => { shard with peers := shard.peers.modify i (fun p => { p with role := role }) }

/-- `removePeer`: keeps the peers on other containers and returns a copy of the
last peer it dropped. -/
def removePeer (shard : Shard) (storeID : UInt64) : Shard × Option Peer :=
  ({ shard with peers := shard.peers.filter (fun p => p.containerID ≠ storeID) },
   (shard.peers.filter (fun p => p.containerID = storeID)).getLast?)

/-- The errors of the membership executors, with the values their messages
print. -/
inductive ConfChangeError where
  /-- `can't add duplicated peer %+v` (v1) -/
  | duplicatedPeer (peer : Peer)
  /-- `ignore remove unmatched peer %+v` -/
  | removeUnmatchedPeer (peer : Peer)
  /-- `remove missing peer %+v` -/
  | removeMissingPeer (peer : Peer)
  /-- `can't add duplicated learner %+v` (v1) -/
  | duplicatedLearner (peer : Peer)
  /-- `can't add duplicated peer %+v, duplicated with exist peer %+v` (v2) -/
  | duplicatedWithExistPeer (peer existPeer : Peer)
  /-- `can't remove voter peer %+v directly` -/
  | removeVoterDirectly (peer : Peer)
  deriving DecidableEq, Repr

/-- The state `applyConfChangeByKind` changes: `d.shard`, which `exist_peer`
points into, the copy `res` it returns, and `d.pendingRemove`. -/
structure ConfChangeState where
  shard : Shard
  res : Shard
  pendingRemove : Bool
  deriving DecidableEq, Repr

/-- One iteration of the loop of `applyConfChangeByKind`; `none` is the
`Fatalf` on a peer still in a joint state. -/
def confChangeStep (peerID : UInt64) (kind : ConfChangeKind) (cp : ChangePeerRequest)
    (st : ConfChangeState) : Option (Except ConfChangeError ConfChangeState) :=
  let peer := cp.peer
  let storeID := peer.containerID
  match findPeer st.shard peer.containerID with
  | none =>
      match cp.changeType with
      | .addNode =>
          let role := match kind with
            | .simpleKind => PeerRole.voter
            | .enterJointKind => .incomingVoter
            | .leaveJointKind => peer.role
          some (.ok { st with res.peers := st.res.peers ++ [{ peer with role := role }] })
      | .addLearnerNode =>
          some (.ok { st with res.peers := st.res.peers ++ [{ peer with role := .learner }] })
      | .removeNode => some (.error (.removeMissingPeer peer))
      | _ => some (.ok st)
  | some existPeer =>
      if existPeer.role = .incomingVoter ∨ existPeer.role = .demotingVoter then none
      else
        match cp.changeType with
        | .addNode | .addLearnerNode =>
            let role := existPeer.role
            if existPeer.id ≠ peer.id ∨ (role = PeerRole.voter ∧ cp.changeType = .addNode) ∨
                (role = PeerRole.learner ∧ cp.changeType = .addLearnerNode) then
              some (.error (.duplicatedWithExistPeer peer existPeer))
            else
              -- the writes go through `exist_peer`, into `d.shard`
              let setRole := fun r => { st with shard := setPeerRole st.shard storeID r }
              if role = .voter ∧ cp.changeType = .addLearnerNode then
                match kind with
                | .simpleKind => some (.ok (setRole .learner))
                | .enterJointKind => some (.ok (setRole .demotingVoter))
                | .leaveJointKind => some (.ok st)
              else if role = .learner ∧ cp.changeType = .addNode then
                match kind with
                | .simpleKind => some (.ok (setRole .voter))
                | .enterJointKind => some (.ok (setRole .incomingVoter))
                | .leaveJointKind => some (.ok st)
              else some (.ok st)
        | .removeNode =>
            if kind = .enterJointKind ∧ existPeer.role = .voter then
              some (.error (.removeVoterDirectly peer))
            else
              match removePeer st.res storeID with
              | (res, none) => some (.ok { st with res := res })
              | (res, some p) =>
                  if p.id ≠ peer.id ∨ p.containerID ≠ peer.containerID then
                    some (.error (.removeUnmatchedPeer peer))
                  else
                    some (.ok { st with res := res,
                                        pendingRemove := st.pendingRemove || peerID == peer.id })
        | _ => some (.ok st)

/-- The loop of `applyConfChangeByKind`: the state it stops in, with the error
that stopped it. -/
def confChangeLoop (peerID : UInt64) (kind : ConfChangeKind) :
    List ChangePeerRequest → ConfChangeState → Option (ConfChangeState × Option ConfChangeError)
  | [], st => some (st, none)
  | cp :: cps, st =>
      match confChangeStep peerID kind cp st with
      | none => none
      | some (.error e) => some (st, some e)
      | some (.ok st') => confChangeLoop peerID kind cps st'

/-- `applyDelegate.applyConfChangeByKind` on a delegate with `d.shard = shard`:
the `d.shard` and `d.pendingRemove` it leaves, and the shard or error it
returns. -/
def applyConfChangeByKind (peerID : UInt64) (shard : Shard) (pendingRemove : Bool)
    (kind : ConfChangeKind) (changes : List ChangePeerRequest) :
    Option (Shard × Bool × Except ConfChangeError Shard) :=
  match confChangeLoop peerID kind changes ⟨shard, shard, pendingRemove⟩ with
  | none => none
  | some (st, some e) => some (st.shard, st.pendingRemove, .error e)
  | some (st, none) =>
      some (st.shard, st.pendingRemove,
        .ok { st.res with epoch.confVer := st.res.epoch.confVer + changes.length })

/-- One iteration of `applyLeaveJoint`: a joint role leaves its joint state;
every other peer adds one to `change_num`. -/
def leaveJointPeer (p : Peer) : Peer × Nat :=
  if p.role = .incomingVoter then ({ p with role := .voter }, 0)
  else if p.role = .demotingVoter then ({ p with role := .learner }, 0)
  else (p, 1)

/-- `applyDelegate.applyLeaveJoint`; `none` is the `Fatalf` when `change_num`
stays zero. -/
def applyLeaveJoint (shard : Shard) : Option Shard :=
  let changeNum := (shard.peers.map (fun p => (leaveJointPeer p).2)).sum
  if changeNum = 0 then none
  else some { shard with peers := shard.peers.map (fun p => (leaveJointPeer p).1),
                         epoch.confVer := shard.epoch.confVer + changeNum }

/-- A peer in one of the two joint roles. -/
def isJoint (p : Peer) : Bool := p.role == .incomingVoter || p.role == .demotingVoter

theorem leaveJointPeer_snd (p : Peer) : (leaveJointPeer p).2 = if isJoint p then 0 else 1 := by
  unfold leaveJointPeer isJoint
  split_ifs <;> simp_all

/-- `change_num` counts the peers the loop falls through on: those not in a
joint role, since both joint branches `continue` past the increment. -/
theorem changeNum_eq_countP (peers : List Peer) :
    (peers.map fun p => (leaveJointPeer p).2).sum = peers.countP fun p => !isJoint p := by
  induction peers with
  | nil => rfl
  | cons p ps ih =>
    rw [List.map_cons, List.sum_cons, ih, List.countP_cons, leaveJointPeer_snd]
    cases isJoint p <;> simp [Nat.add_comm]

/-- `applyLeaveJoint` stops at its `Fatalf` exactly when every peer is in a
joint role. -/
theorem applyLeaveJoint_eq_none_iff (shard : Shard) :
    applyLeaveJoint shard = none ↔ ∀ p ∈ shard.peers, isJoint p = true := by
  simp [applyLeaveJoint, changeNum_eq_countP, List.countP_eq_zero]

/-- What a successful `applyLeaveJoint` returns: the joint roles leave their
joint state, and `ConfVer` grows by the number of peers outside them. -/
theorem applyLeaveJoint_eq_some {shard res : Shard} (h : applyLeaveJoint shard = some res) :
    res.peers = shard.peers.map (fun p => (leaveJointPeer p).1) ∧
      res.epoch.confVer = shard.epoch.confVer + shard.peers.countP fun p => !isJoint p := by
  unfold applyLeaveJoint at h
  dsimp only at h
  split_ifs at h
  cases h
  exact ⟨rfl, by rw [changeNum_eq_countP]⟩

/-- A shard whose one peer is an incoming voter cannot leave its joint state,
while a shard of one voter leaves a joint state it is not in, with `ConfVer`
raised by one. -/
theorem applyLeaveJoint_counts_non_joint_peers :
    applyLeaveJoint { id := 1, peers := [{ id := 1, containerID := 1, role := .incomingVoter }] } = none ∧
      applyLeaveJoint { id := 1, peers := [{ id := 1, containerID := 1 }] } =
        some { id := 1, peers := [{ id := 1, containerID := 1 }], epoch := { confVer := 1 } } := by
  decide

/-- `applyDelegate.doExecChangePeerV2`: the `d.shard` and `d.pendingRemove` it
leaves, and the new shard or the error. -/
def doExecChangePeerV2 (peerID : UInt64) (shard : Shard) (pendingRemove : Bool)
    (changes : List ChangePeerRequest) : Option (Shard × Bool × Except ConfChangeError Shard) :=
  let kind := getConfChangeKind changes.length
  if kind = .leaveJointKind then
    (fun res => (res, pendingRemove, .ok res)) <$> applyLeaveJoint shard
  else
    match applyConfChangeByKind peerID shard pendingRemove kind changes with
    | none => none
    | some (shard', pendingRemove', .error e) => some (shard', pendingRemove', .error e)
    | some (_, pendingRemove', .ok res) => some (res, pendingRemove', .ok res)

/-- `applyDelegate.doExecChangePeer`, the single-change path, which works on
the copy `res` throughout. -/
def doExecChangePeer (peerID : UInt64) (shard : Shard) (pendingRemove : Bool)
    (req : ChangePeerRequest) : Shard × Bool × Except ConfChangeError Shard :=
  let peer := req.peer
  let res := { shard with epoch.confVer := shard.epoch.confVer + 1 }
  let fail := fun e => (shard, pendingRemove, Except.error e)
  let done := fun (res : Shard) (pendingRemove : Bool) => (res, pendingRemove, Except.ok res)
  match req.changeType, findPeer res peer.containerID with
  | .addNode, some p =>
      if p.role ≠ .learner ∨ p.id ≠ peer.id then fail (.duplicatedPeer peer)
      else done (setPeerRole res peer.containerID .voter) pendingRemove
  | .addNode, none => done { res with peers := res.peers ++ [peer] } pendingRemove
  | .removeNode, some p =>
      if p.id ≠ peer.id ∨ p.containerID ≠ peer.containerID then fail (.removeUnmatchedPeer peer)
      else done res (pendingRemove || peerID == peer.id)
  | .removeNode, none => fail (.removeMissingPeer peer)
  | .addLearnerNode, some _ => fail (.duplicatedLearner peer)
  | .addLearnerNode, none => done { res with peers := res.peers ++ [peer] } pendingRemove
  | _, _ => done res pendingRemove

/-- A simple change promoting a learner: the promotion is written into
`d.shard`, while the shard `applyConfChangeByKind` returns keeps the learner. -/
theorem applyConfChangeByKind_promotion_lost :
    let shard : Shard :=
      { id := 1, peers := [{ id := 1, containerID := 1 }, { id := 2, containerID := 2, role := .learner }] }
    applyConfChangeByKind 1 shard false .simpleKind
        [{ changeType := .addNode, peer := { id := 2, containerID := 2 } }] =
      some ({ shard with peers := [{ id := 1, containerID := 1 }, { id := 2, containerID := 2 }] },
        false, .ok { shard with epoch.confVer := 1 }) := by
  decide

end MatrixCube.Raftstore
