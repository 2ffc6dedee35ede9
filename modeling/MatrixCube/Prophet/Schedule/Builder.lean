import MatrixCube.Lib.BestOf
import MatrixCube.Lib.OrderedSet
import MatrixCube.Prophet.Placement.Rule
import MatrixCube.Prophet.Schedule.Operator

/-! # Building the steps of an operator

`Builder` (`schedule/operator/builder.go`) turns the peers of a resource
before and after a change into steps. `prepareBuild` diffs the origin peers
against the target peers into four pending maps, `toAdd`, `toRemove`,
`toPromote` and `toDemote`. Without joint consensus,
`buildStepsWithoutJointConsensus` then asks `peerPlan` for a plan, executes it
and asks again until nothing is pending; every plan names at most one peer of
each pending map, with the leaders to move to before the addition and before
the removal.

A `peersMap` is indexed by container ID and its entries are set by
`peersMap.Set`, under their own peer's container ID; it is an ordered set keyed
by the container ID, whose items stand in `IDs()` order. The cluster is what
the builder asks of it: a container's labels, `IsUp()`, whether the state
filter of a leader transfer accepts it, the location labels, and the next
allocated ID.
-/

namespace MatrixCube.Prophet.Schedule

open Placement

/-- `metadata.IsLearner`. -/
def isLearner (p : Peer) : Bool := p.role == .learner

/-- `metadata.IsInJointState`. -/
def isInJointState (peers : List Peer) : Bool :=
  peers.any fun p => p.role == .incomingVoter || p.role == .demotingVoter

/-- `typeutil.BoolToInt`. -/
def boolToInt (b : Bool) : Int := if b then 1 else 0

/-- `peersMap`: peers indexed by container ID, in `IDs()` order. -/
abbrev PeersMap := OrderedSet (fun p : Peer => p.containerID.toNat)

/-- `newPeersMap`. -/
def newPeersMap : PeersMap := OrderedSet.empty _

namespace PeersMap

/-- `pm[id]`, with `ok`. -/
def lookup (pm : PeersMap) (id : UInt64) : Option Peer := pm.get id.toNat

/-- `peersMap.Set`: the peer under its own container ID. -/
def set (pm : PeersMap) (peer : Peer) : PeersMap := pm.replaceOrInsert peer

/-- `delete(pm, id)`. -/
def deleteID (pm : PeersMap) (id : UInt64) : PeersMap := pm.delete id.toNat

end PeersMap

/-- `PromoteLearner` and `DemoteVoter` as parts of a joint change: the
container and the peer ID. -/
structure PeerChange where
  toContainer : UInt64
  peerID : UInt64
  deriving DecidableEq, Repr

/-- The steps the builder emits. -/
inductive OpStep where
  | transferLeader (fromContainer toContainer : UInt64)
  | addLearner (toContainer peerID : UInt64)
  | addLightLearner (toContainer peerID : UInt64)
  | promoteLearner (toContainer peerID : UInt64)
  | demoteFollower (toContainer peerID : UInt64)
  | removePeer (fromContainer peerID : UInt64)
  | changePeerV2Enter (promoteLearners demoteVoters : List PeerChange)
  | changePeerV2Leave (promoteLearners demoteVoters : List PeerChange)
  deriving DecidableEq, Repr

/-- What the builder reads of a container: its labels, `IsUp()`, and whether
`ContainerStateFilter{TransferLeader: true}` accepts it as a target. -/
structure Container where
  labels : ContainerLabels := []
  isUp : Bool := true
  leaderTarget : Bool := true
  deriving DecidableEq, Repr

/-- The cluster as the builder sees it: `GetContainer`, the location labels of
the options, the answer of the `n`-th `AllocID` call of this build, the joint
consensus switches, whether placement rules are enabled, and the rules that
`FitResource` fits to the builder's resource. -/
structure Cluster where
  getContainer : UInt64 → Option Container
  locationLabels : List String
  allocID : Nat → Except String UInt64
  jointConsensusEnabled : Bool
  isUseJointConsensus : Bool
  isPlacementRulesEnabled : Bool
  fitResource : List Rule

/-- `Builder`, with the fields the build reads. -/
structure Builder where
  cluster : Cluster
  rules : List Rule
  expectedRoles : UInt64 → Option PeerRoleType
  originPeers : PeersMap
  unhealthyPeers : PeersMap
  originLeaderContainerID : UInt64
  targetPeers : PeersMap
  targetLeaderContainerID : UInt64
  allowDemote : Bool
  useJointConsensus : Bool
  lightWeight : Bool
  forceTargetLeader : Bool
  currentPeers : PeersMap
  currentLeaderContainerID : UInt64
  toAdd : PeersMap
  toRemove : PeersMap
  toPromote : PeersMap
  toDemote : PeersMap
  steps : List OpStep
  peerAddStep : UInt64 → Int
  err : Option String

/-- `stepPlan`: the leader to move to before the addition and before the
removal (0 for none), and the peers to add, remove, promote and demote. -/
structure StepPlan where
  leaderBeforeAdd : UInt64 := 0
  leaderBeforeRemove : UInt64 := 0
  add : Option Peer := none
  remove : Option Peer := none
  promote : Option Peer := none
  demote : Option Peer := none
  deriving DecidableEq, Repr

namespace StepPlan

/-- `stepPlan.IsEmpty`. -/
def isEmpty (p : StepPlan) : Bool :=
  p.promote.isNone && p.demote.isNone && p.add.isNone && p.remove.isNone

end StepPlan

/-- `Peer.GetContainerID` on a pointer that may be nil. -/
def getContainerID : Option Peer → UInt64
  | some p => p.containerID
  | none => 0

namespace Builder

variable (b : Builder)

/-! ## Leaders and preferences -/

/-- `allowLeader`: whether `peer` may become the leader. -/
def allowLeader (peer : Peer) (ignoreClusterLimit : Bool) : Bool :=
  match peer.role with
  | .learner | .demotingVoter => false
  | _ =>
    if peer.containerID = b.currentLeaderContainerID then true
    else
      match b.cluster.getContainer peer.containerID with
      | none => false
      | some container =>
        if ignoreClusterLimit then true
        else if !container.leaderTarget then false
        else if b.rules.isEmpty then true
        else b.rules.any fun r =>
          (r.role == Placement.leader || r.role == Placement.voter) &&
            matchLabelConstraints container.labels r.labelConstraints

/-- `labelMatch`: the number of leading location labels on which two
containers agree, 0 when one of them is unknown. -/
def labelMatch (x y : UInt64) : Nat :=
  match b.cluster.getContainer x, b.cluster.getContainer y with
  | some sx, some sy =>
    b.cluster.locationLabels.findIdx fun l => getLabelValue sx.labels l != getLabelValue sy.labels l
  | _, _ => 0

/-- `planPreferReplaceByNearest`. -/
def planPreferReplaceByNearest (p : StepPlan) : Int :=
  match p.add, p.remove with
  | some add, some remove =>
    let m := b.labelMatch add.containerID remove.containerID
    match p.promote, p.demote with
    | some promote, _ =>
      let m2 := b.labelMatch promote.containerID add.containerID
      if m2 < m then m2 else m
    | none, some demote =>
      let m2 := b.labelMatch demote.containerID remove.containerID
      if m2 < m then m2 else m
    | none, none => m
  | _, _ => 0

/-- `planPreferUPContainerAsLeader`. -/
def planPreferUPContainerAsLeader (p : StepPlan) : Int :=
  if p.add.isSome then
    boolToInt ((b.cluster.getContainer p.leaderBeforeAdd).any (·.isUp))
  else 1

/-- `planPreferOldPeerAsLeader`. -/
def planPreferOldPeerAsLeader (p : StepPlan) : Int :=
  let ret := -b.peerAddStep p.leaderBeforeAdd
  if p.add.any (·.containerID == p.leaderBeforeRemove) then ret - (b.steps.length + 1)
  else ret - b.peerAddStep p.leaderBeforeRemove

/-- `planPreferLessLeaderTransfer`. -/
def planPreferLessLeaderTransfer (p : StepPlan) : Int :=
  if p.leaderBeforeAdd = 0 ∨ p.leaderBeforeAdd = b.currentLeaderContainerID then
    2 + boolToInt (p.leaderBeforeRemove = 0 ∨ p.leaderBeforeRemove = b.currentLeaderContainerID)
  else boolToInt (p.leaderBeforeRemove = 0 ∨ p.leaderBeforeRemove = p.leaderBeforeAdd)

/-- `planPreferTargetLeader`. -/
def planPreferTargetLeader (p : StepPlan) : Int :=
  boolToInt (b.targetLeaderContainerID = 0 ∨
    (p.leaderBeforeRemove ≠ 0 ∧ p.leaderBeforeRemove = b.targetLeaderContainerID) ∨
    (p.leaderBeforeRemove = 0 ∧ p.leaderBeforeAdd = b.targetLeaderContainerID))

/-- `planPreferAddOrPromoteTargetLeader`. -/
def planPreferAddOrPromoteTargetLeader (p : StepPlan) : Int :=
  if b.targetLeaderContainerID = 0 then 0
  else
    let addTarget := p.add.any fun a => !isLearner a && a.containerID == b.targetLeaderContainerID
    let promoteTarget := p.promote.any fun a => a.containerID == b.targetLeaderContainerID
    boolToInt (addTarget || promoteTarget)

/-- `initStepPlanPreferFuncs`, most important first. -/
def stepPlanPreferFuncs : List (StepPlan → Int) :=
  [b.planPreferReplaceByNearest, b.planPreferUPContainerAsLeader, b.planPreferOldPeerAsLeader,
    b.planPreferAddOrPromoteTargetLeader, b.planPreferTargetLeader, b.planPreferLessLeaderTransfer]

/-- `comparePlan`: the better of two candidate plans. -/
def comparePlan (best next : StepPlan) : StepPlan :=
  if best.isEmpty then next else BestOf.prefer b.stepPlanPreferFuncs best next

/-! ## Plans -/

/-- `next.leaderBeforeRemove = leader; best = b.comparePlan(best, next)`, when
the leader is neither demoted nor removed by `next` and may lead. -/
def tryLeaderBeforeRemove (next best : StepPlan) (leader : Peer) : StepPlan :=
  if leader.containerID ≠ getContainerID next.demote ∧ leader.containerID ≠ getContainerID next.remove ∧
      b.allowLeader leader false = true then
    b.comparePlan best { next with leaderBeforeRemove := leader.containerID }
  else best

/-- One pass of the outer loop of `planReplaceLeaders`, with the leader before
the addition fixed in `next`. Its three statements differ only in the
candidate leader before the removal: each current peer, then the promoted
peer, then the added peer. -/
def replaceLeadersFrom (best next : StepPlan) : StepPlan :=
  (b.currentPeers.items ++ next.promote.toList ++ next.add.toList).foldl (b.tryLeaderBeforeRemove next) best

/-- `planReplaceLeaders`: the best of `best` and `next` under every allowed
pair of leaders. -/
def planReplaceLeaders (best next : StepPlan) : StepPlan :=
  b.currentPeers.items.foldl (fun best a =>
    if b.allowLeader a false then b.replaceLeadersFrom best { next with leaderBeforeAdd := a.containerID }
    else best) best

/-- `planReplace`: the plans that keep the voter and learner counts. -/
def planReplace : StepPlan :=
  -- promote learner + demote voter
  let best := b.toDemote.items.foldl (fun best demote =>
    b.toPromote.items.foldl (fun best promote =>
      b.planReplaceLeaders best { promote := some promote, demote := some demote }) best) {}
  -- add voter + remove voter, or add learner + remove learner
  let best := b.toAdd.items.foldl (fun best add =>
    b.toRemove.items.foldl (fun best remove =>
      if isLearner remove = isLearner add then
        b.planReplaceLeaders best { add := some add, remove := some remove }
      else best) best) best
  -- add learner + promote learner + remove voter
  let best := b.toPromote.items.foldl (fun best promote =>
    b.toAdd.items.foldl (fun best add =>
      if isLearner add then
        b.toRemove.items.foldl (fun best remove =>
          if !isLearner remove ∧ add.containerID ≠ remove.containerID then
            b.planReplaceLeaders best { promote := some promote, add := some add, remove := some remove }
          else best) best
      else best) best) best
  -- add voter + demote voter + remove learner
  b.toDemote.items.foldl (fun best demote =>
    b.toRemove.items.foldl (fun best remove =>
      if isLearner remove then
        b.toAdd.items.foldl (fun best add =>
          if !isLearner add ∧ remove.containerID ≠ add.containerID then
            b.planReplaceLeaders best { demote := some demote, add := some add, remove := some remove }
          else best) best
      else best) best) best

/-- `planPromotePeer`: the first learner to promote. -/
def planPromotePeer : StepPlan :=
  match b.toPromote.items with
  | peer :: _ => { promote := some peer }
  | [] => {}

/-- `planDemotePeer`. -/
def planDemotePeer : StepPlan :=
  b.toDemote.items.foldl (fun best d =>
    b.currentPeers.items.foldl (fun best leader =>
      if b.allowLeader leader false ∧ leader.containerID ≠ d.containerID then
        b.comparePlan best { demote := some d, leaderBeforeRemove := leader.containerID }
      else best) best) {}

/-- `planRemovePeer`. -/
def planRemovePeer : StepPlan :=
  b.toRemove.items.foldl (fun best r =>
    b.currentPeers.items.foldl (fun best leader =>
      if b.allowLeader leader false ∧ leader.containerID ≠ r.containerID then
        b.comparePlan best { remove := some r, leaderBeforeRemove := leader.containerID }
      else best) best) {}

/-- `planAddPeer`. -/
def planAddPeer : StepPlan :=
  b.toAdd.items.foldl (fun best a =>
    b.currentPeers.items.foldl (fun best leader =>
      if b.allowLeader leader false then
        b.comparePlan best { add := some a, leaderBeforeAdd := leader.containerID }
      else best) best) {}

/-- `peerPlan`: the first non-empty plan of the replacing, promoting, demoting,
removing and adding plans, in that order. -/
def peerPlan : StepPlan :=
  if !b.planReplace.isEmpty then b.planReplace
  else if !b.planPromotePeer.isEmpty then b.planPromotePeer
  else if !b.planDemotePeer.isEmpty then b.planDemotePeer
  else if !b.planRemovePeer.isEmpty then b.planRemovePeer
  else if !b.planAddPeer.isEmpty then b.planAddPeer
  else {}

/-! ## Executing steps -/

/-- `execTransferLeader`. -/
def execTransferLeader (id : UInt64) : Builder :=
  { b with
    steps := b.steps ++ [.transferLeader b.currentLeaderContainerID id]
    currentLeaderContainerID := id }

/-- `execPromoteLearner`. -/
def execPromoteLearner (peer : Peer) : Builder :=
  { b with
    steps := b.steps ++ [.promoteLearner peer.containerID peer.id]
    currentPeers := b.currentPeers.set peer
    toPromote := b.toPromote.deleteID peer.containerID }

/-- `execDemoteFollower`. -/
def execDemoteFollower (peer : Peer) : Builder :=
  { b with
    steps := b.steps ++ [.demoteFollower peer.containerID peer.id]
    currentPeers := b.currentPeers.set peer
    toDemote := b.toDemote.deleteID peer.containerID }

/-- `execAddPeer`: a learner is added, and a voter is then promoted. -/
def execAddPeer (peer : Peer) : Builder :=
  let steps := b.steps ++
    [if b.lightWeight then .addLightLearner peer.containerID peer.id else .addLearner peer.containerID peer.id]
  let steps := if !isLearner peer then steps ++ [.promoteLearner peer.containerID peer.id] else steps
  { b with
    steps := steps
    currentPeers := b.currentPeers.set peer
    peerAddStep := Function.update b.peerAddStep peer.containerID steps.length
    toAdd := b.toAdd.deleteID peer.containerID }

/-- `execRemovePeer`. -/
def execRemovePeer (peer : Peer) : Builder :=
  { b with
    steps := b.steps ++ [.removePeer peer.containerID peer.id]
    currentPeers := b.currentPeers.deleteID peer.containerID
    toRemove := b.toRemove.deleteID peer.containerID }

/-- The loop condition of `buildStepsWithoutJointConsensus`. -/
def hasPending : Bool :=
  b.toAdd.len > 0 || b.toRemove.len > 0 || b.toPromote.len > 0 || b.toDemote.len > 0

/-- `len(b.toAdd)+len(b.toRemove)+len(b.toPromote)+len(b.toDemote)`. -/
def pendingLen : Nat := b.toAdd.len + b.toRemove.len + b.toPromote.len + b.toDemote.len

end Builder

/-- A leader transfer of the loop body, if the plan names a leader other than
the current one. -/
def transferIfNeeded (leader : UInt64) (s : OpKind × Builder) : OpKind × Builder :=
  if leader ≠ 0 ∧ leader ≠ s.2.currentLeaderContainerID then (s.1 ||| opLeader, s.2.execTransferLeader leader)
  else s

/-- One iteration of the loop of `buildStepsWithoutJointConsensus` after the
plan is found non-empty: the transfer before the addition, the addition, the
promotion, the transfer before the removal, the demotion and the removal. -/
def execPlan (plan : StepPlan) (s : OpKind × Builder) : OpKind × Builder :=
  let s := transferIfNeeded plan.leaderBeforeAdd s
  let s := match plan.add with
    | some add => (s.1 ||| opResource, s.2.execAddPeer add)
    | none => s
  let s := match plan.promote with
    | some promote => (s.1, s.2.execPromoteLearner promote)
    | none => s
  let s := transferIfNeeded plan.leaderBeforeRemove s
  let s := match plan.demote with
    | some demote => (s.1, s.2.execDemoteFollower demote)
    | none => s
  match plan.remove with
  | some remove => (s.1 ||| opResource, s.2.execRemovePeer remove)
  | none => s

/-- The loop of `buildStepsWithoutJointConsensus`, one unit of fuel for each
iteration: `none` when the fuel runs out with work still pending. -/
def buildStepsLoop (kind : OpKind) (b : Builder) : Nat → Option (Except String (OpKind × Builder))
  | 0 => if b.hasPending then none else some (.ok (kind, b))
  | fuel + 1 =>
    if b.hasPending then
      if b.peerPlan.isEmpty then some (.error "fail to build operator: plan is empty, maybe no valid leader")
      else
        let s := execPlan b.peerPlan (kind, b)
        buildStepsLoop s.1 s.2 fuel
    else some (.ok (kind, b))

namespace Builder

variable (b : Builder)

/-! ## The target leader -/

/-- `preferLeaderRoleAsLeader`. -/
def preferLeaderRoleAsLeader (id : UInt64) : Int := boolToInt (b.expectedRoles id == some Placement.leader)

/-- `preferUPContainerAsLeader`. -/
def preferUPContainerAsLeader (id : UInt64) : Int := boolToInt ((b.cluster.getContainer id).any (·.isUp))

/-- `preferCurrentLeader`. -/
def preferCurrentLeader (id : UInt64) : Int := boolToInt (id == b.currentLeaderContainerID)

/-- `preferKeepVoterAsLeader`. -/
def preferKeepVoterAsLeader (id : UInt64) : Int := boolToInt (b.toPromote.lookup id).isNone

/-- `preferOldPeerAsLeader`. -/
def preferOldPeerAsLeader (id : UInt64) : Int := -b.peerAddStep id

/-- The `leaderPreferFuncs` of `setTargetLeaderIfNotExist`, most important first. -/
def leaderPreferFuncs : List (UInt64 → Int) :=
  [b.preferLeaderRoleAsLeader, b.preferUPContainerAsLeader, b.preferCurrentLeader,
    b.preferKeepVoterAsLeader, b.preferOldPeerAsLeader]

/-- `setTargetLeaderIfNotExist`: without a target leader, the best allowed
target peer whose expected role is not follower. -/
def setTargetLeaderIfNotExist : Builder :=
  if b.targetLeaderContainerID ≠ 0 then b
  else
    { b with
      targetLeaderContainerID := b.targetPeers.items.foldl (fun best peer =>
        if !b.allowLeader peer b.forceTargetLeader then best
        else if b.expectedRoles peer.containerID = some Placement.follower then best
        else if best = 0 then peer.containerID
        else BestOf.prefer b.leaderPreferFuncs best peer.containerID) 0 }

end Builder

/-- What `buildStepsWithoutJointConsensus` does after its loop: the transfer to
the target leader, if it is a current peer other than the leader, and the
check that some step was built. -/
def finishSteps (kind : OpKind) (b : Builder) : Except String (OpKind × Builder) :=
  let b := b.setTargetLeaderIfNotExist
  let s := if (b.currentPeers.lookup b.targetLeaderContainerID).isSome ∧ b.targetLeaderContainerID ≠ 0 ∧
      b.currentLeaderContainerID ≠ b.targetLeaderContainerID then
    (kind ||| opLeader, b.execTransferLeader b.targetLeaderContainerID)
  else (kind, b)
  if s.2.steps.isEmpty then .error "no operator step is built" else .ok s

/-- `buildStepsWithoutJointConsensus`, with the fuel of its loop. -/
def buildStepsWithoutJointConsensus (b : Builder) (kind : OpKind) (fuel : Nat) :
    Option (Except String (OpKind × Builder)) :=
  (buildStepsLoop kind b fuel).map fun r => r.bind fun s => finishSteps s.1 s.2

namespace Builder

variable (b : Builder)

/-! ## The diff -/

/-- The first loop of `prepareBuild`, at one origin peer. -/
def diffOrigin (o : Peer) : Builder :=
  match b.targetPeers.lookup o.containerID with
  | none => { b with toRemove := b.toRemove.set o }
  | some n =>
    -- the peer keeps its origin ID
    let n : Peer := if o.id ≠ n.id then { id := o.id, containerID := o.containerID, role := n.role } else n
    if isLearner o then
      if !isLearner n then { b with toPromote := b.toPromote.set n } else b
    else if isLearner n then
      if b.allowDemote then { b with toDemote := b.toDemote.set n } else { b with toRemove := b.toRemove.set o }
    else b

/-- Whether a target peer is added: it has no origin peer, or it turns a voter
into a learner and demotion is not allowed. -/
def needAdd (n : Peer) : Bool :=
  match b.originPeers.lookup n.containerID with
  | none => true
  | some o => !b.allowDemote && !isLearner o && isLearner n

/-- The second loop of `prepareBuild`, at one target peer, with the number of
IDs allocated so far: a peer of ID 0 gets the next allocated ID. -/
def diffTarget (s : Builder × Nat) (n : Peer) : Except String (Builder × Nat) :=
  if s.1.needAdd n then
    if n.id = 0 then do
      let id ← s.1.cluster.allocID s.2
      pure ({ s.1 with toAdd := s.1.toAdd.set { id := id, containerID := n.containerID, role := n.role } }, s.2 + 1)
    else pure ({ s.1 with toAdd := s.1.toAdd.set n }, s.2)
  else pure s

/-- `prepareBuild`, without the brief. Go ranges over the peer maps in random
order; here they are ranged in `IDs()` order, which decides only which new
peer gets which allocated ID. -/
def prepareBuild : Except String Builder := do
  let b := { b with toAdd := newPeersMap, toRemove := newPeersMap, toPromote := newPeersMap, toDemote := newPeersMap }
  if (b.targetPeers.items.filter fun p => !isLearner p).length = 0 then
    throw "cannot create operator: target peers have no voter"
  let b := b.originPeers.items.foldl diffOrigin b
  let (b, _) ← b.targetPeers.items.foldlM diffTarget (b, 0)
  -- a missing or learner target leader is cancelled
  let b := if (b.targetPeers.lookup b.targetLeaderContainerID).all isLearner then
    { b with targetLeaderContainerID := 0 } else b
  let b := { b with currentPeers := b.originPeers, currentLeaderContainerID := b.originLeaderContainerID }
  if b.targetLeaderContainerID ≠ 0 ∧
      !b.allowLeader ((b.targetPeers.lookup b.targetLeaderContainerID).getD {}) b.forceTargetLeader then
    throw "cannot create operator: target leader is not allowed"
  -- with at most one change, joint consensus is not used
  let b := if b.pendingLen ≤ 1 then { b with useJointConsensus := false } else b
  pure { b with peerAddStep := fun _ => 0 }

end Builder

/-! ## Making a builder -/

/-- The resource a builder is made for: its peers, its leader (nil when it has
none), and its pending and down peers. -/
structure Resource where
  peers : List Peer
  leader : Option Peer
  pendingPeers : List Peer
  downPeers : List Peer

/-- `NewBuilder`, with the option `SkipOriginJointStateCheck` as a flag. The
origin peers are those before the first peer of container 0. -/
def newBuilder (cluster : Cluster) (res : Resource) (skipOriginJointStateCheck : Bool) : Builder :=
  let originPeers := (res.peers.takeWhile (·.containerID ≠ 0)).foldl PeersMap.set newPeersMap
  let err : Option String :=
    if res.peers.any (·.containerID = 0) then some "cannot build operator for resource with nil peer" else none
  let unhealthyPeers := (res.pendingPeers ++ res.downPeers).foldl PeersMap.set newPeersMap
  let originLeaderContainerID := (res.leader.map (·.containerID)).getD 0
  let err := match res.leader with
    | none => some "cannot build operator for resource with no leader"
    | some leader =>
      if err.isNone ∧ (originPeers.lookup leader.containerID).isNone then
        some "cannot build operator for resource with no leader"
      else err
  let rules := if err.isNone ∧ cluster.isPlacementRulesEnabled then cluster.fitResource else []
  let err := if err.isNone ∧ cluster.isPlacementRulesEnabled ∧ rules.isEmpty then
      some "cannot build operator for resource match no placement rule"
    else err
  let err := if err.isNone ∧ !skipOriginJointStateCheck ∧ isInJointState res.peers then
      some "cannot build operator for resource which is in joint state"
    else err
  { cluster := cluster
    rules := rules
    expectedRoles := fun _ => none
    originPeers := originPeers
    unhealthyPeers := unhealthyPeers
    originLeaderContainerID := originLeaderContainerID
    targetPeers := originPeers
    targetLeaderContainerID := 0
    allowDemote := cluster.jointConsensusEnabled
    useJointConsensus := cluster.jointConsensusEnabled && cluster.isUseJointConsensus
    lightWeight := false
    forceTargetLeader := false
    currentPeers := newPeersMap
    currentLeaderContainerID := 0
    toAdd := newPeersMap
    toRemove := newPeersMap
    toPromote := newPeersMap
    toDemote := newPeersMap
    steps := []
    peerAddStep := fun _ => 0
    err := err }

namespace Builder

variable (b : Builder)

/-! ## Recording the target

Every call is ignored once an error is recorded. The messages of `AddPeer` and
`SetPeers` leave out the peers Go prints into them with `%+v` and `%v`. -/

/-- `AddPeer`. -/
def addPeer (peer : Peer) : Builder :=
  if b.err.isSome then b
  else if peer.containerID = 0 then { b with err := some "cannot add nil peer" }
  else if isInJointState [peer] then { b with err := some "cannot add peer: is in joint state" }
  else if (b.targetPeers.lookup peer.containerID).isSome then
    { b with err := some "cannot add peer: already have peer" }
  else { b with targetPeers := b.targetPeers.set peer }

/-- `RemovePeer`. -/
def removePeer (containerID : UInt64) : Builder :=
  if b.err.isSome then b
  else if (b.targetPeers.lookup containerID).isNone then
    { b with err := some s!"cannot remove peer from {containerID}: not found" }
  else if b.targetLeaderContainerID = containerID then
    { b with err := some s!"cannot remove peer from {containerID}: is target leader" }
  else { b with targetPeers := b.targetPeers.deleteID containerID }

/-- `PromoteLearner`. -/
def promoteLearner (containerID : UInt64) : Builder :=
  if b.err.isSome then b
  else
    match b.targetPeers.lookup containerID with
    | none => { b with err := some s!"cannot promote peer {containerID}: not found" }
    | some peer =>
      if !isLearner peer then { b with err := some s!"cannot promote peer {containerID}: is not learner" }
      else if (b.unhealthyPeers.lookup containerID).isSome then
        { b with err := some s!"cannot promote peer {containerID}: unhealthy" }
      else { b with targetPeers := b.targetPeers.set { id := peer.id, containerID := peer.containerID, role := .voter } }

/-- `DemoteVoter`. -/
def demoteVoter (containerID : UInt64) : Builder :=
  if b.err.isSome then b
  else
    match b.targetPeers.lookup containerID with
    | none => { b with err := some s!"cannot demote voter {containerID}: not found" }
    | some peer =>
      if isLearner peer then { b with err := some s!"cannot demote voter {containerID}: is already learner" }
      else { b with targetPeers := b.targetPeers.set { id := peer.id, containerID := peer.containerID, role := .learner } }

/-- `SetLeader`. -/
def setLeader (containerID : UInt64) : Builder :=
  if b.err.isSome then b
  else
    match b.targetPeers.lookup containerID with
    | none => { b with err := some s!"cannot transfer leader to {containerID}: not found" }
    | some peer =>
      if isLearner peer then { b with err := some s!"cannot transfer leader to {containerID}: not voter" }
      else if (b.unhealthyPeers.lookup containerID).isSome then
        { b with err := some s!"cannot transfer leader to {containerID}: unhealthy" }
      else { b with targetLeaderContainerID := containerID }

/-- `SetPeers`, with the entries of the Go map (distinct keys) as a list. -/
def setPeers (peers : List (UInt64 × Peer)) : Builder :=
  if b.err.isSome then b
  else if peers.any (fun e => e.1 = 0 ∨ e.2.containerID ≠ e.1 ∨ isInJointState [e.2]) then
    { b with err := some "setPeers with mismatch peers" }
  else
    let b := if peers.any (·.1 = b.targetLeaderContainerID) then b else { b with targetLeaderContainerID := 0 }
    { b with targetPeers := peers.foldl (fun pm e => pm.set e.2) newPeersMap }

/-- The loop of `SetExpectedRoles`, with the leaders and voters counted so
far; `none` when it returned early on a second leader. -/
def setExpectedRolesLoop (leaderCount voterCount : Nat) :
    Builder → List (UInt64 × PeerRoleType) → Builder × Option (Nat × Nat)
  | b, [] => (b, some (leaderCount, voterCount))
  | b, (id, role) :: rest =>
    if role = Placement.leader then
      if 0 < leaderCount then ({ b with err := some "resource cannot have multiple leaders" }, none)
      else setExpectedRolesLoop (leaderCount + 1) voterCount { b with targetLeaderContainerID := id } rest
    else if role = Placement.voter then setExpectedRolesLoop leaderCount (voterCount + 1) b rest
    else if role = Placement.follower ∨ role = Placement.learner then
      setExpectedRolesLoop leaderCount voterCount
        (if b.targetLeaderContainerID = id then { b with targetLeaderContainerID := 0 } else b) rest
    else setExpectedRolesLoop leaderCount voterCount b rest

/-- `SetExpectedRoles`, with the entries of the Go map (distinct keys) as a
list. -/
def setExpectedRoles (roles : List (UInt64 × PeerRoleType)) : Builder :=
  if b.err.isSome then b
  else
    match setExpectedRolesLoop 0 0 b roles with
    | (b, none) => b
    | (b, some (leaderCount, voterCount)) =>
      if leaderCount + voterCount = 0 then { b with err := some "resource need at least 1 voter or leader" }
      else { b with expectedRoles := fun id => (roles.find? (·.1 = id)).map (·.2) }

/-- `EnableLightWeight`. -/
def enableLightWeight : Builder := { b with lightWeight := true }

/-- `EnableForceTargetLeader`. -/
def enableForceTargetLeader : Builder := { b with forceTargetLeader := true }

/-! ## Joint consensus -/

/-- `execChangePeerV2`: all promotions and demotions in one joint change,
entered, with a leader transfer inside the joint state if asked for, and left. -/
def execChangePeerV2 (needEnter needTransferLeader : Bool) : Builder :=
  let promoteLearners := b.toPromote.items.map fun peer => PeerChange.mk peer.containerID peer.id
  let demoteVoters := b.toDemote.items.map fun peer => PeerChange.mk peer.containerID peer.id
  let currentPeers := b.toDemote.items.foldl PeersMap.set (b.toPromote.items.foldl PeersMap.set b.currentPeers)
  let b := { b with currentPeers := currentPeers, toPromote := newPeersMap, toDemote := newPeersMap }
  let b := if needEnter then { b with steps := b.steps ++ [.changePeerV2Enter promoteLearners demoteVoters] } else b
  let b := if needTransferLeader && b.originLeaderContainerID != b.targetLeaderContainerID then
      b.execTransferLeader b.targetLeaderContainerID
    else b
  { b with steps := b.steps ++ [.changePeerV2Leave promoteLearners demoteVoters] }

end Builder

/-- The first loop of `buildStepsWithJointConsensus`, at one peer to add: a
voter is added as a learner and promoted later. -/
def jointAddPeer (s : OpKind × Builder) (peer : Peer) : OpKind × Builder :=
  if !isLearner peer then
    let b := s.2.execAddPeer { id := peer.id, containerID := peer.containerID, role := .learner }
    (s.1 ||| opResource, { b with toPromote := b.toPromote.set peer })
  else (s.1 ||| opResource, s.2.execAddPeer peer)

/-- The leader transfer and the joint change of `buildStepsWithJointConsensus`:
the transfer comes first when the target leader is an origin voter, last when
the origin leader stays a voter (or there is none), and inside the joint state
otherwise. -/
def jointChange (kind : OpKind) (b : Builder) : OpKind × Builder :=
  if (b.originPeers.lookup b.targetLeaderContainerID).any (!isLearner ·) then
    let s := if b.originLeaderContainerID ≠ b.targetLeaderContainerID then
        (kind ||| opLeader, b.execTransferLeader b.targetLeaderContainerID)
      else (kind, b)
    (s.1, s.2.execChangePeerV2 true false)
  else if b.originLeaderContainerID = 0 ∨ (b.targetPeers.lookup b.originLeaderContainerID).any (!isLearner ·) then
    let b := b.execChangePeerV2 true false
    if b.originLeaderContainerID ≠ b.targetLeaderContainerID then
      (kind ||| opLeader, b.execTransferLeader b.targetLeaderContainerID)
    else (kind, b)
  else (kind ||| opLeader, b.execChangePeerV2 true true)

/-- `buildStepsWithJointConsensus`. -/
def buildStepsWithJointConsensus (b : Builder) (kind : OpKind) : Except String (OpKind × Builder) :=
  let s := b.toAdd.items.foldl jointAddPeer (kind, b)
  let b := s.2.setTargetLeaderIfNotExist
  if b.targetLeaderContainerID = 0 then .error "no valid leader"
  else
    -- a voter to remove is demoted first
    let b := { b with
      toDemote := b.toRemove.items.foldl (fun pm peer =>
        if !isLearner peer then pm.set { id := peer.id, containerID := peer.containerID, role := .learner } else pm)
        b.toDemote }
    let s := jointChange s.1 b
    .ok (s.2.toRemove.items.foldl (fun s peer => (s.1 ||| opResource, s.2.execRemovePeer peer)) s)

/-- `Build`: the kind and the steps of the operator. Without joint consensus
the loop gets one unit of fuel for each pending entry. -/
def Builder.build (b : Builder) (kind : OpKind) : Option (Except String (OpKind × List OpStep)) :=
  match b.err with
  | some e => some (.error e)
  | none =>
    match b.prepareBuild with
    | .error e => some (.error e)
    | .ok b =>
      if b.useJointConsensus then some ((buildStepsWithJointConsensus b kind).map fun s => (s.1, s.2.steps))
      else (buildStepsWithoutJointConsensus b kind b.pendingLen).map fun r => r.map fun s => (s.1, s.2.steps)

end MatrixCube.Prophet.Schedule
