import MatrixCube.Pb

/-! # Scheduling operators and their status

An `Operator` (`schedule/operator/operator.go`) is a plan of steps for one
resource. Its `OpStatusTracker` (`status_tracker.go`) moves along
`validTrans` of `status.go`: a created operator starts, expires or is
canceled; a started one succeeds, times out, is canceled or is replaced; the
other statuses are end statuses, which it never leaves.

The operator controller compares operators by pointer, and their status is
shared by every holder of the pointer, so an operator here is its identity
`id` with the fields the controller reads, and its status lives in the
controller's heap of operators. The steps are not modelled: whether a check
finds them all finished, and whether an operator has lived past its expiry
or wait time, are answers of the world.
-/

namespace MatrixCube.Prophet.Schedule

/-- `OpStatus`. -/
inductive OpStatus where
  | created
  | started
  | success
  | canceled
  | replaced
  | expired
  | timeout
  deriving DecidableEq, Repr

namespace OpStatus

/-- `IsEndStatus`. -/
def isEnd : OpStatus → Bool
  | .created | .started => false
  | _ => true

/-- `validTrans`. -/
def validTrans : OpStatus → OpStatus → Bool
  | .created, .started | .created, .canceled | .created, .expired => true
  | .started, .success | .started, .canceled | .started, .replaced | .started, .timeout => true
  | _, _ => false

/-- `OpStatusTracker.To` (`to` is a keyword here): the status after the
move, and whether it moved. -/
def toStatus (current dst : OpStatus) : OpStatus × Bool :=
  if validTrans current dst then (dst, true) else (current, false)

/-- `OpStatusTracker.CheckExpired`, where `elapsed` says that the operator
lived past the expiry time. -/
def checkExpired (current : OpStatus) (elapsed : Bool) : OpStatus × Bool :=
  match current with
  | .created => if elapsed then ((current.toStatus .expired).1, true) else (current, false)
  | _ => (current, current == .expired)

/-- `OpStatusTracker.CheckTimeout`, where `elapsed` says that the operator ran
past its wait time. -/
def checkTimeout (current : OpStatus) (elapsed : Bool) : OpStatus × Bool :=
  match current with
  | .started => if elapsed then ((current.toStatus .timeout).1, true) else (current, false)
  | _ => (current, current == .timeout)

/-- An end status is never left. -/
theorem toStatus_of_isEnd {s : OpStatus} (h : s.isEnd = true) (dst : OpStatus) : (s.toStatus dst).1 = s := by
  cases s <;> cases dst <;> simp_all [isEnd, toStatus, validTrans]

end OpStatus

/-- `OpKind`, a bit field. -/
abbrev OpKind := UInt32

/-- `OpLeader`, the first flag: the operator transfers the leader. -/
def opLeader : OpKind := (1 : UInt32) <<< 0

/-- `OpResource`, the second flag: the operator adds or removes peers. -/
def opResource : OpKind := (1 : UInt32) <<< 1

/-- `OpMerge`, the seventh flag: initiated by the merge checker or scheduler. -/
def opMerge : OpKind := (1 : UInt32) <<< 6

/-- The fields of an operator that the controller reads, under the identity
of the operator object. `level` is one of the three built-in priority levels
`LowPriority`, `NormalPriority` and `HighPriority`. -/
structure Operator where
  id : Nat
  desc : String
  resourceID : UInt64
  resourceEpoch : ResourceEpoch
  kind : OpKind
  level : Fin 3
  deriving DecidableEq, Repr

namespace Operator

/-- `Kind() & OpMerge != 0`. -/
def isMerge (op : Operator) : Bool := op.kind &&& opMerge != 0

end Operator

/-- What the world answers when an operator is checked against its resource:
whether every step is finished after this check, and whether the operator
has run past its wait time. -/
structure CheckOutcome where
  finished : Bool
  timedOut : Bool
  deriving DecidableEq, Repr

/-- `Operator.Check` on the status, and whether it returns a step. At an end
status it returns nil. Otherwise the deferred `CheckTimeout` calls
`CheckSuccess` first: finished steps move the operator to `SUCCESS` and no
step is returned; unfinished ones return the current step, and the operator
may time out. -/
def check (s : OpStatus) (o : CheckOutcome) : OpStatus × Bool :=
  if s.isEnd then (s, false)
  else if o.finished then ((s.toStatus .success).1, false)
  else ((s.checkTimeout o.timedOut).1, true)

/-- A started operator stays started or ends in success or timeout. -/
theorem check_started (o : CheckOutcome) :
    (check .started o).1 = .started ∨ (check .started o).1 = .success ∨ (check .started o).1 = .timeout := by
  cases hf : o.finished <;> cases ht : o.timedOut <;> simp [check, hf, ht, OpStatus.checkTimeout, OpStatus.toStatus,
    OpStatus.validTrans, OpStatus.isEnd]

/-- Checking an operator that is still started returns a step. -/
theorem check_snd_of_started {s : OpStatus} {o : CheckOutcome} (h : (check s o).1 = .started) :
    (check s o).2 = true := by
  cases s <;> cases hf : o.finished <;> cases ht : o.timedOut <;>
    simp_all [check, OpStatus.checkTimeout, OpStatus.toStatus, OpStatus.validTrans, OpStatus.isEnd]

end MatrixCube.Prophet.Schedule
