import MatrixCube.Prophet.Schedule.Builder

/-! # What the steps of an operator do to a resource

A resource's configuration is its peers, one per container, and the container
of its leader. `OpStep.apply` is what each step asks for: `AddLearner` and
`AddLightLearner` add a learner, `PromoteLearner` makes it a voter,
`DemoteFollower` makes it a learner, `RemovePeer` removes it, `TransferLeader`
moves the leader, and `ChangePeerV2Enter` and `ChangePeerV2Leave` enter and
leave the joint state of their promotions and demotions. `OpStep.checkSafety`
is each step's `CheckSafety` (`schedule/operator/step.go`) on the
configuration it is applied to.
-/

namespace MatrixCube.Prophet.Schedule

/-- The peers of a resource, one per container, and the container of its
leader. -/
structure Config where
  peers : PeersMap
  leader : UInt64

namespace Config

/-- `res.GetLeader().GetID()`. -/
def leaderID (c : Config) : UInt64 := ((c.peers.lookup c.leader).map (·.id)).getD 0

/-- `metadata.CountInJointState` of the peers. -/
def countInJointState (c : Config) : Nat :=
  c.peers.items.countP fun p => p.role == .incomingVoter || p.role == .demotingVoter

/-- Every change of a list gives its peer the role `role`. -/
def setRoles (c : Config) (changes : List PeerChange) (role : PeerRole) : Config :=
  { c with
    peers := changes.foldl (fun pm ch => pm.set { id := ch.peerID, containerID := ch.toContainer, role := role })
      c.peers }

end Config

namespace OpStep

/-- What a step asks for. -/
def apply : OpStep → Config → Config
  | .transferLeader _ toContainer, c => { c with leader := toContainer }
  | .addLearner toContainer peerID, c | .addLightLearner toContainer peerID, c =>
    { c with peers := c.peers.set { id := peerID, containerID := toContainer, role := .learner } }
  | .promoteLearner toContainer peerID, c =>
    { c with peers := c.peers.set { id := peerID, containerID := toContainer, role := .voter } }
  | .demoteFollower toContainer peerID, c =>
    { c with peers := c.peers.set { id := peerID, containerID := toContainer, role := .learner } }
  | .removePeer fromContainer _, c => { c with peers := c.peers.deleteID fromContainer }
  | .changePeerV2Enter promoteLearners demoteVoters, c =>
    (c.setRoles promoteLearners .incomingVoter).setRoles demoteVoters .demotingVoter
  | .changePeerV2Leave promoteLearners demoteVoters, c =>
    (c.setRoles promoteLearners .voter).setRoles demoteVoters .learner

/-- The role of a promoted peer when the joint state is entered: whether it is
in the joint state already, or the error. -/
def enterPromoteRole : PeerRole → Except String Bool
  | .learner => .ok false
  | .incomingVoter => .ok true
  | .voter => .error "peer already is a voter"
  | .demotingVoter => .error "cannot promote a demoting voter"

/-- The role of a demoted peer when the joint state is entered. -/
def enterDemoteRole : PeerRole → Except String Bool
  | .voter => .ok false
  | .demotingVoter => .ok true
  | .learner => .error "peer already is a learner"
  | .incomingVoter => .error "cannot demote a incoming voter"

/-- The role of a promoted peer when the joint state is left. -/
def leavePromoteRole : PeerRole → Except String Bool
  | .voter => .ok false
  | .incomingVoter => .ok true
  | .learner => .error "peer is still a learner"
  | .demotingVoter => .error "cannot promote a demoting voter"

/-- The role of a demoted peer when the joint state is left. -/
def leaveDemoteRole : PeerRole → Except String Bool
  | .learner => .ok false
  | .demotingVoter => .ok true
  | .voter => .error "peer is still a voter"
  | .incomingVoter => .error "cannot demote a incoming voter"

/-- The role of the peer a change names, read by `roleOf`, or `peer does not
exist` when the container holds no peer of that ID. -/
def changeRole (c : Config) (roleOf : PeerRole → Except String Bool) (ch : PeerChange) : Except String Bool :=
  match c.peers.lookup ch.toContainer with
  | some peer => if peer.id ≠ ch.peerID then .error "peer does not exist" else roleOf peer.role
  | none => .error "peer does not exist"

/-- The common end of the two joint checks: the changes are all in the joint
state or all out of it, and no other peer is in it. -/
def jointCount (c : Config) (n : Nat) (js : List Bool) : Option String :=
  let inJointState := js.any id
  let notInJointState := js.any (!·)
  if notInJointState ∧ inJointState then some "non-atomic joint consensus"
  else if notInJointState ∧ c.countInJointState ≠ 0 then
    some "some other peers are in joint state, when the resource is in joint state"
  else if inJointState ∧ c.countInJointState ≠ n then
    some "some other peers are in joint state, when the resource is not in joint state"
  else none

/-- `CheckSafety`: the error, or none. -/
def checkSafety : OpStep → Config → Option String
  | .transferLeader _ toContainer, c =>
    match c.peers.lookup toContainer with
    | none => some "peer does not existed"
    | some peer => if isLearner peer then some "peer already is a learner" else none
  | .addLearner toContainer peerID, c | .addLightLearner toContainer peerID, c =>
    match c.peers.lookup toContainer with
    | none => none
    | some peer =>
      let existing := peer.id
      if existing ≠ peerID then
        some s!"peer {existing} has already existed in container {toContainer}, the operator is trying to add peer {peerID} on the same container"
      else if !isLearner peer then some "peer already is a voter"
      else none
  | .promoteLearner toContainer peerID, c =>
    if ((c.peers.lookup toContainer).getD {}).id ≠ peerID then some "peer does not exist" else none
  | .demoteFollower toContainer peerID, c =>
    let peer := (c.peers.lookup toContainer).getD {}
    if peer.id ≠ peerID then some "peer does not exist"
    else if peer.id = c.leaderID then some "cannot demote leader peer"
    else none
  | .removePeer fromContainer _, c =>
    if fromContainer = c.leader then some "cannot remove leader peer" else none
  | .changePeerV2Enter promoteLearners demoteVoters, c =>
    match promoteLearners.mapM (changeRole c enterPromoteRole), demoteVoters.mapM (changeRole c enterDemoteRole) with
    | .error e, _ => some e
    | .ok _, .error e => some e
    | .ok ps, .ok ds => jointCount c (promoteLearners.length + demoteVoters.length) (ps ++ ds)
  | .changePeerV2Leave promoteLearners demoteVoters, c =>
    match promoteLearners.mapM (changeRole c leavePromoteRole), demoteVoters.mapM (changeRole c leaveDemoteRole) with
    | .error e, _ => some e
    | .ok _, .error e => some e
    | .ok ps, .ok ds =>
      -- a demoted peer still in the joint state must not be the leader
      let demoteLeader := demoteVoters.any fun dv =>
        ((c.peers.lookup dv.toContainer).map (·.role)) == some .demotingVoter && dv.toContainer == c.leader
      match jointCount c (promoteLearners.length + demoteVoters.length) (ps ++ ds) with
      | some e => some e
      | none => if demoteLeader then some "cannot demote leader peer" else none

end OpStep

/-- The configuration after the steps, one after another. -/
def applySteps (steps : List OpStep) (c : Config) : Config := steps.foldl (fun c s => s.apply c) c

/-- The first step that fails `CheckSafety` on the configuration it is applied
to, with the error. -/
def firstUnsafe : List OpStep → Config → Option (OpStep × String)
  | [], _ => none
  | s :: rest, c =>
    match s.checkSafety c with
    | some e => some (s, e)
    | none => firstUnsafe rest (s.apply c)

/-- Without demotion, a voter made a learner is removed and added back as a
learner. Beside the removal of another learner, the planner pairs the re-added
learner with that removal, adds it first, over the voter still on its container,
and then removes the container: the first step fails `CheckSafety`, and the
container the target keeps as a learner ends with no peer. -/
theorem build_readds_demoted_voter_before_removing_it :
    ∃ b : Builder, b = ((newBuilder ⟨fun _ => some {}, [], fun _ => .error "", false, false, false, []⟩
        ⟨[{ id := 1, containerID := 1 }, { id := 2, containerID := 2 }, { id := 3, containerID := 3, role := .learner }],
          some { id := 1, containerID := 1 }, [], []⟩ false).demoteVoter 2).removePeer 3 ∧
      b.targetPeers.lookup 2 = some { id := 2, containerID := 2, role := .learner } ∧
      b.build 0 = some (.ok (opResource, [.addLearner 2 2, .removePeer 3 3, .removePeer 2 2])) ∧
      firstUnsafe [.addLearner 2 2, .removePeer 3 3, .removePeer 2 2] ⟨b.originPeers, b.originLeaderContainerID⟩ =
        some (.addLearner 2 2, "peer already is a voter") ∧
      (applySteps [.addLearner 2 2, .removePeer 3 3, .removePeer 2 2]
        ⟨b.originPeers, b.originLeaderContainerID⟩).peers.lookup 2 = none :=
  ⟨_, rfl, by decide, rfl, by decide, by decide⟩

end MatrixCube.Prophet.Schedule
