import MatrixCube.Lib.ByteOrder

/-! # Protocol messages

The protobuf messages of `metapb`, `bhmetapb`, `bhraftpb` and `raftcmdpb` that
the modelled code reads and writes, with the fields it touches. Every field
defaults to its protobuf zero value, so `{}` is the Go zero message.

Identifiers (`ID`, `ContainerID`, `NewShardID`, …) stay `UInt64`; epochs, log
indices and terms are counters that only grow by small steps and are `Nat`.
Message-typed fields that Go holds by pointer are plain values here; a nil
dereference is a panic in Go and is not modelled.
-/

namespace MatrixCube

/-! ## metapb -/

/-- `metapb.PeerRole`. -/
inductive PeerRole where
  | voter
  | learner
  | incomingVoter
  | demotingVoter
  deriving DecidableEq, Repr, Inhabited

/-- `metapb.ChangePeerType`. -/
inductive ChangePeerType where
  | addNode
  | removeNode
  | updateNode
  | addLearnerNode
  | scalePeer
  deriving DecidableEq, Repr, Inhabited

/-- `metapb.Peer`. -/
structure Peer where
  id : UInt64 := 0
  containerID : UInt64 := 0
  role : PeerRole := .voter
  deriving DecidableEq, Repr, Inhabited

/-- `metapb.PeerStats`: a down peer and how long it has been down. -/
structure PeerStats where
  peer : Peer := {}
  downSeconds : Nat := 0
  deriving DecidableEq, Repr, Inhabited

/-- `metapb.ResourceEpoch`: `confVer` counts membership changes, `version`
splits and merges. -/
structure ResourceEpoch where
  confVer : Nat := 0
  version : Nat := 0
  deriving DecidableEq, Repr, Inhabited

/-! ## bhmetapb -/

/-- `bhmetapb.Shard`, the key range `[start, end_)` of one raft group; an empty
`end_` is +∞. `State` and `Data` are read by no modelled function. -/
structure Shard where
  id : UInt64 := 0
  start : Bytes := []
  end_ : Bytes := []
  epoch : ResourceEpoch := {}
  peers : List Peer := []
  disableSplit : Bool := false
  group : UInt64 := 0
  unique : String := ""
  ruleGroups : List String := []
  deriving DecidableEq, Repr, Inhabited

/-- The key range `[start, end_)` of a shard. -/
def Shard.range (s : Shard) : Bytes × Bytes := (s.start, s.end_)

/-! ## bhraftpb -/

/-- `bhraftpb.RaftTruncatedState`. -/
structure RaftTruncatedState where
  index : Nat := 0
  term : Nat := 0
  deriving DecidableEq, Repr, Inhabited

/-- `bhraftpb.RaftApplyState`. -/
structure RaftApplyState where
  appliedIndex : Nat := 0
  truncatedState : RaftTruncatedState := {}
  deriving DecidableEq, Repr, Inhabited

/-! ## raftpb -/

/-- `raftpb.EntryType`. -/
inductive EntryType where
  | entryNormal
  | entryConfChange
  | entryConfChangeV2
  deriving DecidableEq, Repr, Inhabited

/-! ## raftcmdpb -/

/-- `raftcmdpb.AdminCmdType`. -/
inductive AdminCmdType where
  | invalidAdmin
  | changePeer
  | compactLog
  | transferLeader
  | computeHash
  | verifyHash
  | batchSplit
  | changePeerV2
  deriving DecidableEq, Repr, Inhabited

/-- `raftcmdpb.CMDType`. -/
inductive CMDType where
  | invalid
  | raftError
  | snap
  | write
  | read
  deriving DecidableEq, Repr, Inhabited

/-- `raftcmdpb.ChangePeerRequest`. -/
structure ChangePeerRequest where
  changeType : ChangePeerType := .addNode
  peer : Peer := {}
  deriving DecidableEq, Repr, Inhabited

/-- `raftcmdpb.SplitRequest`: the encoded split key, the id of the new shard and
one new peer id per peer of the shard being split. -/
structure SplitRequest where
  splitKey : Bytes := []
  newShardID : UInt64 := 0
  newPeerIDs : List UInt64 := []
  deriving DecidableEq, Repr, Inhabited

/-- `raftcmdpb.CompactLogRequest`. -/
structure CompactLogRequest where
  compactIndex : Nat := 0
  compactTerm : Nat := 0
  deriving DecidableEq, Repr, Inhabited

/-- `raftcmdpb.AdminRequest`, with `BatchSplitRequest.Requests` and
`ChangePeerV2Request.Changes` flattened into lists. -/
structure AdminRequest where
  cmdType : AdminCmdType := .invalidAdmin
  changePeer : ChangePeerRequest := {}
  compactLog : CompactLogRequest := {}
  splits : List SplitRequest := []
  changePeerV2 : List ChangePeerRequest := []
  deriving DecidableEq, Repr, Inhabited

/-- `raftcmdpb.Request`, one read or write of a batch. -/
structure Request where
  id : Bytes := []
  group : UInt64 := 0
  type : CMDType := .invalid
  custemType : UInt64 := 0
  key : Bytes := []
  ignoreEpochCheck : Bool := false
  deriving DecidableEq, Repr, Inhabited

/-- `raftcmdpb.RaftRequestHeader`. -/
structure RaftRequestHeader where
  id : Bytes := []
  shardID : UInt64 := 0
  peer : Peer := {}
  epoch : ResourceEpoch := {}
  term : Nat := 0
  ignoreEpochCheck : Bool := false
  deriving DecidableEq, Repr, Inhabited

/-- `raftcmdpb.RaftCMDRequest`; `header` and `adminRequest` are nil-able
pointers in Go. -/
structure RaftCMDRequest where
  header : Option RaftRequestHeader := none
  requests : List Request := []
  adminRequest : Option AdminRequest := none
  deriving DecidableEq, Repr, Inhabited

/-- `raftpb.Entry`. `data` is the command the entry carries, already decoded
(for a conf change, the request in its context); `none` stands for empty
data, the entry a new leader appends. -/
structure Entry where
  term : Nat := 0
  index : Nat := 0
  type : EntryType := .entryNormal
  data : Option RaftCMDRequest := none
  deriving DecidableEq, Repr, Inhabited

end MatrixCube
