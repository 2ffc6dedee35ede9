import MatrixCube.Prophet.Schedule.WaitingOperator

/-! # The operator controller

`OperatorController` (`schedule/operator_controller.go`) runs at most one
operator per resource (`operators`), keeps the operators waiting to be
promoted (`wop`) with the number of waiting units of each description
(`wopStatus`), and a queue of operators to push again (`opNotifierQueue`).
Each exported call takes the controller's lock, so a call is one step here.

What a call asks of the cluster, the clock and the random source is an
answer of the world (`World`): the epochs of the cluster's resources,
whether an operator expired or timed out, whether a check finds its steps
finished, container limits, the draws of `rand.Float64()`, and the safety
checks of a stale operator. The metrics, the history, the operator records
and the commands sent to the stores are not modelled; the error logs are,
and the theorems below say which of them a run can reach.
-/

namespace MatrixCube.Prophet.Schedule

/-- `operatorWithTime`, an item of the notifier queue. -/
structure OperatorWithTime where
  op : Operator
  time : Nat
  deriving DecidableEq, Repr

/-- The errors the controller logs on the paths modelled here. -/
inductive ControllerError where
  /-- `Dispatch`: dispatching an operator with an unexpected status -/
  | dispatchUnexpectedStatus (op : Operator) (status : OpStatus)
  /-- `buryOperator`: burying an operator with a non-end status -/
  | buryNonEndStatus (op : Operator) (status : OpStatus)
  /-- `addOperatorLocked`: adding an operator with an unexpected status -/
  | addUnexpectedStatus (op : Operator) (status : OpStatus)
  /-- `checkAddOperator`: trying to add an operator with an unexpected status -/
  | checkAddUnexpectedStatus (op : Operator) (status : OpStatus)
  /-- `AddWaitingOperator`: an orphan merge operator -/
  | orphanMerge (op : Operator)
  /-- `AddWaitingOperator`: a merge operator that is not paired -/
  | unpairedMerge (op : Operator)
  deriving DecidableEq, Repr

/-- What the world answers during one call: the epoch of each resource of the
cluster (nil for a missing one), whether an operator lived past its expiry
time, what checking an operator against its resource finds, whether
operators would exceed a container limit, the limit on waiting operators of
one description, the draws of `rand.Float64()`, which lie in [0, 1), whether
the step of a stale operator fails its safety check or the resource's conf
version moved past what the operator expects, the clock, and the next time to
push. -/
structure World where
  getResource : UInt64 → Option ResourceEpoch
  expired : Operator → Bool
  check : Operator → CheckOutcome
  exceedContainerLimit : List Operator → Bool
  maxWaitingOperator : Nat
  rand : Nat → ℚ
  rand_mem : ∀ k, 0 ≤ rand k ∧ rand k < 1
  stepFails : Bool
  confVerStale : Bool
  now : Nat
  nextPushTime : Nat

/-- `OperatorController`: the running operator of each resource, the status of
every operator (operators are compared by pointer, and distinct operators
differ in `id`), the waiting operators and their counts, the notifier queue,
and the log of errors. -/
structure OperatorController where
  operators : UInt64 → Option Operator
  status : Operator → OpStatus
  wop : RandBuckets
  wopStatus : String → Int
  opNotifierQueue : List OperatorWithTime
  errors : List ControllerError

/-- `NewOperatorController`; every operator is as it was created. -/
def newOperatorController : OperatorController :=
  ⟨fun _ => none, fun _ => .created, newRandBuckets, fun _ => 0, [], []⟩

namespace OperatorController

variable (w : World)

/-- Log an error. -/
def logError (oc : OperatorController) (e : ControllerError) : OperatorController :=
  { oc with errors := oc.errors ++ [e] }

/-- Set the status of an operator. -/
def setStatus (oc : OperatorController) (op : Operator) (s : OpStatus) : OperatorController :=
  { oc with status := Function.update oc.status op s }

/-- A move of the status tracker of `op` (`Start`, `Cancel`, `Replace`), and
whether it moved. -/
def moveTo (oc : OperatorController) (op : Operator) (dst : OpStatus) : OperatorController × Bool :=
  (oc.setStatus op ((oc.status op).toStatus dst).1, ((oc.status op).toStatus dst).2)

/-- `buryOperator`: an operator not at an end status is logged and canceled. -/
def buryOperator (oc : OperatorController) (op : Operator) : OperatorController :=
  if (oc.status op).isEnd then oc
  else ((oc.logError (.buryNonEndStatus op (oc.status op))).moveTo op .canceled).1

/-- `op.Cancel()` and `buryOperator(op)`, for each operator in turn. -/
def cancelAndBury (oc : OperatorController) (ops : List Operator) : OperatorController :=
  ops.foldl (fun oc op => (oc.moveTo op .canceled).1.buryOperator op) oc

/-- `removeOperatorLocked`: drop `op` when it is the running operator of its
resource. -/
def removeOperatorLocked (oc : OperatorController) (op : Operator) : OperatorController × Bool :=
  if oc.operators op.resourceID = some op then
    ({ oc with operators := Function.update oc.operators op.resourceID none }, true)
  else (oc, false)

/-- `RemoveOperator`. -/
def removeOperator (oc : OperatorController) (op : Operator) : OperatorController × Bool :=
  let (oc, removed) := oc.removeOperatorLocked op
  if removed then (oc.cancelAndBury [op], true) else (oc, false)

/-- The test of one operator in the first loop of `checkAddOperator`: its
resource exists with its epoch, no running operator of the resource has a
priority level at least its own, it is as created, and its description has
room among the waiting operators. -/
def checkAddOne (oc : OperatorController) (op : Operator) : OperatorController × Bool :=
  match w.getResource op.resourceID with
  | none => (oc, false)
  | some epoch =>
    if epoch.version ≠ op.resourceEpoch.version ∨ epoch.confVer ≠ op.resourceEpoch.confVer then (oc, false)
    else if (oc.operators op.resourceID).any fun old => !decide (old.level < op.level) then (oc, false)
    else if oc.status op ≠ .created then (oc.logError (.checkAddUnexpectedStatus op (oc.status op)), false)
    else if (w.maxWaitingOperator : Int) ≤ oc.wopStatus op.desc then (oc, false)
    else (oc, true)

/-- The first loop of `checkAddOperator`, up to the first operator refused. -/
def checkAddFirst : OperatorController → List Operator → OperatorController × Bool
  | oc, [] => (oc, true)
  | oc, op :: ops =>
    let (oc, ok) := oc.checkAddOne w op
    if ok then checkAddFirst oc ops else (oc, false)

/-- The second loop of `checkAddOperator`: `CheckExpired` of every operator,
and whether one expired. -/
def checkExpiredAll : OperatorController → List Operator → OperatorController × Bool
  | oc, [] => (oc, false)
  | oc, op :: ops =>
    let (s, expired) := (oc.status op).checkExpired (w.expired op)
    let (oc, rest) := checkExpiredAll (oc.setStatus op s) ops
    (oc, expired || rest)

/-- `checkAddOperator`. -/
def checkAddOperator (oc : OperatorController) (ops : List Operator) : OperatorController × Bool :=
  let (oc, ok) := checkAddFirst w oc ops
  if ok then
    let (oc, expired) := checkExpiredAll w oc ops
    (oc, !expired)
  else (oc, false)

/-- The first part of `addOperatorLocked`: the running operator of the
resource, if any, is removed, replaced and buried. -/
def replaceOld (oc : OperatorController) (resID : UInt64) : OperatorController :=
  match oc.operators resID with
  | some old => ((oc.removeOperatorLocked old).1.moveTo old .replaced).1.buryOperator old
  | none => oc

/-- `addOperatorLocked`: the running operator of the resource is replaced,
`op` starts, is checked against the resource, and is queued to be pushed. -/
def addOperatorLocked (oc : OperatorController) (op : Operator) : OperatorController × Bool :=
  let (oc, started) := (oc.replaceOld op.resourceID).moveTo op .started
  if !started then (oc.logError (.addUnexpectedStatus op (oc.status op)), false)
  else
    let oc := { oc with operators := Function.update oc.operators op.resourceID (some op) }
    let oc :=
      match w.getResource op.resourceID with
      | some _ => oc.setStatus op (check (oc.status op) (w.check op)).1
      | none => oc
    ({ oc with opNotifierQueue := oc.opNotifierQueue ++ [⟨op, w.nextPushTime⟩] }, true)

/-- `addOperatorLocked` of each operator, up to the first that fails. -/
def addAll : OperatorController → List Operator → OperatorController × Bool
  | oc, [] => (oc, true)
  | oc, op :: ops =>
    let (oc, ok) := oc.addOperatorLocked w op
    if ok then addAll oc ops else (oc, false)

/-- `AddOperator`. -/
def addOperator (oc : OperatorController) (ops : List Operator) : OperatorController × Bool :=
  if w.exceedContainerLimit ops then (oc.cancelAndBury ops, false)
  else
    let (oc, ok) := oc.checkAddOperator w ops
    if ok then addAll w oc ops else (oc.cancelAndBury ops, false)

/-- Change the count of waiting units of a description. -/
def addWaiting (oc : OperatorController) (desc : String) (n : Int) : OperatorController :=
  { oc with wopStatus := Function.update oc.wopStatus desc (oc.wopStatus desc + n) }

/-- The loop of `PromoteWaitingOperator`, with the `k`-th draw of the call:
it takes waiting units until one passes the checks, canceling those that do
not. Each round takes a unit, so `fuel` above the number of waiting
operators is never used up. -/
def promoteLoop : Nat → Nat → OperatorController → Option (OperatorController × List Operator)
  | 0, _, _ => none
  | fuel + 1, k, oc =>
    (oc.wop.getOperator (w.rand k)).bind fun (wop, ops) =>
      let oc := { oc with wop := wop }
      match ops with
      | [] => some (oc, [])
      | op :: _ =>
        let (oc, ok) := if w.exceedContainerLimit ops then (oc, false) else oc.checkAddOperator w ops
        if ok then some (oc.addWaiting op.desc (-1), ops)
        else promoteLoop fuel (k + 1) ((oc.cancelAndBury ops).addWaiting op.desc (-1))

/-- `PromoteWaitingOperator`; `none` is a run-time panic. -/
def promoteWaitingOperator (oc : OperatorController) : Option OperatorController :=
  (promoteLoop w (oc.wop.listOperator.length + 1) 0 oc).map fun (oc, ops) => (addAll w oc ops).1

/-- One operator of `AddWaitingOperator`, with its merge pair `next`: it alone
goes through `checkAddOperator`; refused, it is canceled and buried with its
pair; accepted, both are put and count as one more waiting unit of its
description. -/
def tryPutWaiting (oc : OperatorController) (op : Operator) (next : Option Operator) :
    OperatorController × Bool :=
  let (oc, ok) := oc.checkAddOperator w [op]
  if ok then ({ oc with wop := (op :: next.toList).foldl RandBuckets.putOperator oc.wop }.addWaiting op.desc 1, true)
  else (oc.cancelAndBury (op :: next.toList), false)

/-- The loop of `AddWaitingOperator`: the state, the number added, and whether
it ran to the end (an early return skips the promotion). -/
def addWaitingLoop : OperatorController → Nat → List Operator → OperatorController × Nat × Bool
  | oc, added, [] => (oc, added, true)
  | oc, added, op :: ops =>
    if op.isMerge then
      match ops with
      | [] => (oc.logError (.orphanMerge op), added, false)
      | next :: rest =>
        if !next.isMerge then (oc.logError (.unpairedMerge next), added, false)
        else
          let (oc, ok) := oc.tryPutWaiting w op (some next)
          if ok then addWaitingLoop oc (added + 2) rest else (oc, added, false)
    else
      let (oc, ok) := oc.tryPutWaiting w op none
      if ok then addWaitingLoop oc (added + 1) ops else (oc, added, false)

/-- `AddWaitingOperator`: the loop, then the promotion, whose wait counter
reads `ops[0]` and panics on no operator. -/
def addWaitingOperator (oc : OperatorController) (ops : List Operator) : Option (OperatorController × Nat) :=
  let (oc, added, finished) := addWaitingLoop w oc 0 ops
  if !finished then some (oc, added)
  else if ops = [] then none
  else (oc.promoteWaitingOperator w).map (·, added)

/-- `checkStaleOperator`: a running operator whose step fails its safety check,
or whose resource's conf version moved past what it expects, is removed and
a waiting one promoted. -/
def checkStaleOperator (oc : OperatorController) (op : Operator) : Option (OperatorController × Bool) :=
  let (oc, removed) := if w.stepFails then oc.removeOperator op else (oc, false)
  if removed then (oc.promoteWaitingOperator w).map (·, true)
  else
    let (oc, removed) := if w.confVerStale then oc.removeOperator op else (oc, false)
    if removed then (oc.promoteWaitingOperator w).map (·, true) else some (oc, false)

/-- `Dispatch` for the resource `resID`: the running operator is checked, and
by its status kept, removed after success or timeout, or removed as
unexpected. -/
def dispatch (oc : OperatorController) (resID : UInt64) (fromHeartbeat : Bool) : Option OperatorController :=
  match oc.operators resID with
  | none => some oc
  | some op =>
    let oc := oc.setStatus op (check (oc.status op) (w.check op)).1
    match oc.status op with
    | .started => if fromHeartbeat then (oc.checkStaleOperator w op).map Prod.fst else some oc
    | .success | .timeout =>
      let (oc, removed) := oc.removeOperator op
      if removed then oc.promoteWaitingOperator w else some oc
    | st =>
      let (oc, removed) := oc.removeOperatorLocked op
      if removed then ((oc.logError (.dispatchUnexpectedStatus op st)).cancelAndBury [op]).promoteWaitingOperator w
      else some oc

/-- `pollNeedDispatchResource`, popping the item at index `i` of the queue:
the state, the resource to dispatch, and whether to poll again. -/
def pollNeedDispatchResource (oc : OperatorController) (i : Nat) :
    OperatorController × Option UInt64 × Bool :=
  match oc.opNotifierQueue[i]? with
  | none => (oc, none, false)
  | some item =>
    let oc := { oc with opNotifierQueue := oc.opNotifierQueue.eraseIdx i }
    let resID := item.op.resourceID
    match oc.operators resID with
    | none => (oc, none, true)
    | some op =>
      match w.getResource resID with
      | none => ((oc.removeOperatorLocked op).1.cancelAndBury [op], none, true)
      | some _ =>
        let (s, hasStep) := check (oc.status op) (w.check op)
        let oc := oc.setStatus op s
        if !hasStep then (oc, some resID, true)
        else if w.now < item.time then ({ oc with opNotifierQueue := oc.opNotifierQueue ++ [item] }, none, false)
        else
          ({ oc with opNotifierQueue := oc.opNotifierQueue ++ [{ item with time := w.nextPushTime }] },
            some resID, true)

end OperatorController

/-- The calls of the controller. -/
inductive ControllerEvent where
  | addOperator (ops : List Operator)
  | addWaitingOperator (ops : List Operator)
  | promoteWaitingOperator
  | removeOperator (op : Operator)
  | dispatch (resID : UInt64) (fromHeartbeat : Bool)
  | pollNeedDispatchResource (i : Nat)

namespace OperatorController

/-- One call in the world `w`; `none` is a run-time panic. -/
def step (oc : OperatorController) (w : World) : ControllerEvent → Option OperatorController
  | .addOperator ops => some (oc.addOperator w ops).1
  | .addWaitingOperator ops => (oc.addWaitingOperator w ops).map Prod.fst
  | .promoteWaitingOperator => oc.promoteWaitingOperator w
  | .removeOperator op => some (oc.removeOperator op).1
  | .dispatch resID fromHeartbeat => oc.dispatch w resID fromHeartbeat
  | .pollNeedDispatchResource i => some (oc.pollNeedDispatchResource w i).1

/-! ## The invariant of the controller -/

/-- The statuses of a running operator. -/
def Running (s : OpStatus) : Prop := s = .started ∨ s = .success ∨ s = .timeout

/-- An operator that is neither running nor waiting. -/
def Idle (oc : OperatorController) (op : Operator) : Prop :=
  (∀ id, oc.operators id ≠ some op) ∧ op ∉ oc.wop.listOperator

/-- What every call keeps: each running operator is stored under its
resource and is started, successful or timed out; the waiting operators are
as created, each once, in whole units, and `wopStatus` counts their units by
description; and nothing was logged as an error. -/
structure Inv (oc : OperatorController) : Prop where
  operators : ∀ id op, oc.operators id = some op → op.resourceID = id ∧ Running (oc.status op)
  wop : oc.wop.Inv
  waiting : ∀ op ∈ oc.wop.listOperator, oc.status op = .created
  nodup : oc.wop.listOperator.Nodup
  wopStatus : ∀ d, oc.wopStatus d = oc.wop.unitCount d
  errors : oc.errors = []

theorem inv_newOperatorController : newOperatorController.Inv where
  operators _ _ h := nomatch h
  wop := RandBuckets.inv_newRandBuckets
  waiting _ h := by simp [newOperatorController, newRandBuckets, RandBuckets.listOperator] at h
  nodup := by decide
  wopStatus _ := by simp [newOperatorController, newRandBuckets, RandBuckets.unitCount, units]
  errors := rfl

variable {oc : OperatorController} {op : Operator}

theorem running_not_created {s : OpStatus} (h : Running s) : s ≠ .created := by
  rcases h with rfl | rfl | rfl <;> decide

theorem Inv.not_waiting_of_running (h : oc.Inv) (hs : Running (oc.status op)) :
    op ∉ oc.wop.listOperator :=
  fun hw => running_not_created hs (h.waiting op hw)

/-- An operator as created is not running. -/
theorem Inv.idle_of_created (h : oc.Inv) (hs : oc.status op = .created) (hw : op ∉ oc.wop.listOperator) :
    oc.Idle op :=
  ⟨fun id hid => running_not_created (h.operators id op hid).2 hs, hw⟩

/-- Setting the status of an operator keeps the invariant when a running
operator stays running and a waiting one stays as created. -/
theorem Inv.setStatus (h : oc.Inv) {s : OpStatus} (hrun : ∀ id, oc.operators id = some op → Running s)
    (hwait : op ∈ oc.wop.listOperator → s = .created) : (oc.setStatus op s).Inv where
  operators id op' hop' := by
    obtain ⟨hid, hrun'⟩ := h.operators id op' hop'
    refine ⟨hid, ?_⟩
    by_cases heq : op' = op
    · subst heq
      simpa [OperatorController.setStatus] using hrun id hop'
    · simpa [OperatorController.setStatus, Function.update_of_ne heq] using hrun'
  wop := h.wop
  waiting op' hop' := by
    by_cases heq : op' = op
    · subst heq
      simpa [OperatorController.setStatus] using hwait hop'
    · simpa [OperatorController.setStatus, Function.update_of_ne heq] using h.waiting op' hop'
  nodup := h.nodup
  wopStatus := h.wopStatus
  errors := h.errors

/-- An idle operator may take any status. -/
theorem Inv.setStatus_idle (h : oc.Inv) (hidle : oc.Idle op) (s : OpStatus) : (oc.setStatus op s).Inv :=
  h.setStatus (fun id hid => absurd hid (hidle.1 id)) fun hw => absurd hw hidle.2

/-- The notifier queue is not part of the invariant. -/
theorem Inv.setQueue (h : oc.Inv) (q : List OperatorWithTime) : { oc with opNotifierQueue := q }.Inv :=
  ⟨h.operators, h.wop, h.waiting, h.nodup, h.wopStatus, h.errors⟩

/-- `oc'` is `oc` with only the statuses of idle operators changed: the
running and waiting operators, the counts and the errors are as they were. -/
structure Quiet (oc oc' : OperatorController) : Prop where
  operators : oc'.operators = oc.operators
  wop : oc'.wop = oc.wop
  wopStatus : oc'.wopStatus = oc.wopStatus
  errors : oc'.errors = oc.errors
  status : ∀ op, oc'.status op ≠ oc.status op → oc.Idle op

theorem Quiet.refl (oc : OperatorController) : Quiet oc oc :=
  ⟨rfl, rfl, rfl, rfl, fun _ h => absurd rfl h⟩

theorem Quiet.idle {oc' : OperatorController} (hq : Quiet oc oc') (hidle : oc.Idle op) : oc'.Idle op :=
  ⟨fun id hid => hidle.1 id (hq.operators ▸ hid), hq.wop ▸ hidle.2⟩

theorem Quiet.trans {oc' oc'' : OperatorController} (h₁ : Quiet oc oc') (h₂ : Quiet oc' oc'') :
    Quiet oc oc'' where
  operators := h₂.operators.trans h₁.operators
  wop := h₂.wop.trans h₁.wop
  wopStatus := h₂.wopStatus.trans h₁.wopStatus
  errors := h₂.errors.trans h₁.errors
  status op hne := by
    by_cases h₁op : oc'.status op = oc.status op
    · -- the status changed in the second step, where the operator was idle
      have hidle := h₂.status op (h₁op ▸ hne)
      exact ⟨fun id hid => hidle.1 id (h₁.operators ▸ hid), h₁.wop ▸ hidle.2⟩
    · exact h₁.status op h₁op

/-- The statuses that change are of operators neither running nor waiting. -/
theorem Inv.quiet {oc' : OperatorController} (h : oc.Inv) (hq : Quiet oc oc') : oc'.Inv where
  operators id op' hop' := by
    rw [hq.operators] at hop'
    have hkeep : oc'.status op' = oc.status op' :=
      Classical.byContradiction fun hne => (hq.status op' hne).1 id hop'
    rw [hkeep]
    exact h.operators id op' hop'
  wop := hq.wop ▸ h.wop
  waiting op' hop' := by
    rw [hq.wop] at hop'
    have hkeep : oc'.status op' = oc.status op' :=
      Classical.byContradiction fun hne => (hq.status op' hne).2 hop'
    rw [hkeep]
    exact h.waiting op' hop'
  nodup := hq.wop ▸ h.nodup
  wopStatus d := by
    rw [hq.wopStatus, hq.wop]
    exact h.wopStatus d
  errors := hq.errors ▸ h.errors

theorem quiet_setStatus (hidle : oc.Idle op) (s : OpStatus) : Quiet oc (oc.setStatus op s) where
  operators := rfl
  wop := rfl
  wopStatus := rfl
  errors := rfl
  status op' hne := by
    by_cases heq : op' = op
    · exact heq ▸ hidle
    · simp [OperatorController.setStatus, Function.update_of_ne heq] at hne

/-- A cancel ends every operator: from created or started it moves, and an
end status stays. -/
theorem isEnd_toStatus_canceled (s : OpStatus) : ((s.toStatus .canceled).1).isEnd = true := by
  cases s <;> rfl

theorem buryOperator_of_isEnd (h : (oc.status op).isEnd = true) : oc.buryOperator op = oc := by
  simp [buryOperator, h]

/-- Burying a canceled operator does nothing. -/
theorem cancelBury_eq (oc : OperatorController) (op : Operator) :
    (oc.moveTo op .canceled).1.buryOperator op = (oc.moveTo op .canceled).1 := by
  apply buryOperator_of_isEnd
  simpa [moveTo, OperatorController.setStatus] using isEnd_toStatus_canceled (oc.status op)

theorem cancelAndBury_cons (oc : OperatorController) (op : Operator) (ops : List Operator) :
    oc.cancelAndBury (op :: ops) = ((oc.moveTo op .canceled).1.buryOperator op).cancelAndBury ops := rfl

/-- Canceling and burying idle operators changes only their statuses. -/
theorem quiet_cancelAndBury {ops : List Operator} (hidle : ∀ op ∈ ops, oc.Idle op) :
    Quiet oc (oc.cancelAndBury ops) := by
  induction ops generalizing oc with
  | nil => exact .refl oc
  | cons op ops ih =>
    rw [cancelAndBury_cons, cancelBury_eq]
    have hq : Quiet oc (oc.moveTo op .canceled).1 := quiet_setStatus (hidle op List.mem_cons_self) _
    exact hq.trans (ih fun op' hop' => hq.idle (hidle op' (List.mem_cons_of_mem _ hop')))

/-! ### Removing a running operator -/

@[simp] theorem removeOperatorLocked_status : (oc.removeOperatorLocked op).1.status = oc.status := by
  unfold OperatorController.removeOperatorLocked
  split_ifs <;> rfl

@[simp] theorem removeOperatorLocked_wop : (oc.removeOperatorLocked op).1.wop = oc.wop := by
  unfold OperatorController.removeOperatorLocked
  split_ifs <;> rfl

@[simp] theorem removeOperatorLocked_wopStatus : (oc.removeOperatorLocked op).1.wopStatus = oc.wopStatus := by
  unfold OperatorController.removeOperatorLocked
  split_ifs <;> rfl

@[simp] theorem removeOperatorLocked_errors : (oc.removeOperatorLocked op).1.errors = oc.errors := by
  unfold OperatorController.removeOperatorLocked
  split_ifs <;> rfl

theorem removeOperatorLocked_sub (oc : OperatorController) (op : Operator) :
    ∀ id op', (oc.removeOperatorLocked op).1.operators id = some op' → oc.operators id = some op' := by
  intro id op' hop'
  unfold removeOperatorLocked at hop'
  split_ifs at hop'
  · by_cases hid : id = op.resourceID
    · subst hid
      simp at hop'
    · simpa [Function.update_of_ne hid] using hop'
  · exact hop'

/-- A state with fewer running operators and the same statuses, waiting
operators, counts and errors keeps the invariant. -/
theorem Inv.of_operators_sub {oc' : OperatorController} (h : oc.Inv)
    (hsub : ∀ id op', oc'.operators id = some op' → oc.operators id = some op') (hstatus : oc'.status = oc.status)
    (hwop : oc'.wop = oc.wop) (hcount : oc'.wopStatus = oc.wopStatus) (herrors : oc'.errors = oc.errors) :
    oc'.Inv where
  operators id op' hop' := by
    rw [hstatus]
    exact h.operators id op' (hsub id op' hop')
  wop := hwop ▸ h.wop
  waiting op' hop' := by
    rw [hstatus]
    exact h.waiting op' (hwop ▸ hop')
  nodup := hwop ▸ h.nodup
  wopStatus d := by
    rw [hcount, hwop]
    exact h.wopStatus d
  errors := herrors ▸ h.errors

theorem Inv.removeOperatorLocked (h : oc.Inv) (op : Operator) : (oc.removeOperatorLocked op).1.Inv :=
  h.of_operators_sub (removeOperatorLocked_sub oc op) removeOperatorLocked_status removeOperatorLocked_wop
    removeOperatorLocked_wopStatus removeOperatorLocked_errors

theorem Idle.removeOperatorLocked {op' : Operator} (hidle : oc.Idle op') (op : Operator) :
    (oc.removeOperatorLocked op).1.Idle op' :=
  ⟨fun id hid => hidle.1 id (removeOperatorLocked_sub oc op id op' hid), by simpa using hidle.2⟩

/-- A removed operator was running and is idle afterwards: a running operator
is stored under its own resource only. -/
theorem Inv.idle_of_removeOperatorLocked (h : oc.Inv) (hrem : (oc.removeOperatorLocked op).2 = true) :
    (oc.removeOperatorLocked op).1.Idle op ∧ Running (oc.status op) := by
  unfold OperatorController.removeOperatorLocked at hrem ⊢
  split_ifs at hrem ⊢ with hcur
  have hrun := (h.operators _ op hcur).2
  refine ⟨⟨fun id hid => ?_, h.not_waiting_of_running hrun⟩, hrun⟩
  dsimp only at hid
  by_cases hk : id = op.resourceID
  · subst hk
    simp at hid
  · rw [Function.update_of_ne hk] at hid
    exact hk (h.operators id op hid).1.symm

/-- The running operator of its resource is removed. -/
theorem removeOperatorLocked_snd_of_mem (h : oc.Inv) {id : UInt64} (hop : oc.operators id = some op) :
    (oc.removeOperatorLocked op).2 = true := by
  have hid := (h.operators id op hop).1
  subst hid
  simp [OperatorController.removeOperatorLocked, hop]

/-- Removing a running operator, then canceling and burying it, keeps the
invariant, the waiting operators and the idle ones. -/
theorem Inv.removeCancel (h : oc.Inv) (hrem : (oc.removeOperatorLocked op).2 = true) :
    ((oc.removeOperatorLocked op).1.cancelAndBury [op]).Inv ∧
      Quiet (oc.removeOperatorLocked op).1 ((oc.removeOperatorLocked op).1.cancelAndBury [op]) := by
  have hq : Quiet (oc.removeOperatorLocked op).1 ((oc.removeOperatorLocked op).1.cancelAndBury [op]) :=
    quiet_cancelAndBury (by simpa using (h.idle_of_removeOperatorLocked hrem).1)
  exact ⟨(h.removeOperatorLocked op).quiet hq, hq⟩

theorem removeOperator_eq (oc : OperatorController) (op : Operator) :
    oc.removeOperator op =
      if (oc.removeOperatorLocked op).2 then ((oc.removeOperatorLocked op).1.cancelAndBury [op], true)
      else ((oc.removeOperatorLocked op).1, false) := rfl

/-- `RemoveOperator` keeps the invariant, the waiting operators and the idle
ones. -/
theorem Inv.removeOperator (h : oc.Inv) (op : Operator) :
    (oc.removeOperator op).1.Inv ∧ (oc.removeOperator op).1.wop = oc.wop ∧
      (oc.removeOperator op).1.wopStatus = oc.wopStatus ∧
      ∀ op', oc.Idle op' → (oc.removeOperator op).1.Idle op' := by
  rw [removeOperator_eq]
  split_ifs with hrem
  · obtain ⟨hinv, hq⟩ := h.removeCancel hrem
    exact ⟨hinv, hq.wop.trans removeOperatorLocked_wop, hq.wopStatus.trans removeOperatorLocked_wopStatus,
      fun op' hi => hq.idle (hi.removeOperatorLocked op)⟩
  · exact ⟨h.removeOperatorLocked op, removeOperatorLocked_wop, removeOperatorLocked_wopStatus,
      fun op' hi => hi.removeOperatorLocked op⟩

/-! ### Checking operators before they are added -/

section Check

variable (w : World)

@[simp] theorem setStatus_self (oc : OperatorController) (op : Operator) : oc.setStatus op (oc.status op) = oc := by
  simp [OperatorController.setStatus]

/-- The test of an operator as created logs nothing. -/
theorem checkAddOne_fst (h : oc.status op = .created) : (oc.checkAddOne w op).1 = oc := by
  unfold checkAddOne
  cases w.getResource op.resourceID with
  | none => rfl
  | some epoch =>
    dsimp only
    split_ifs with hepoch hold hs
    · rfl
    · rfl
    · exact absurd h hs
    · rfl
    · rfl

theorem checkAddFirst_fst {ops : List Operator} (h : ∀ op ∈ ops, oc.status op = .created) :
    (checkAddFirst w oc ops).1 = oc := by
  induction ops with
  | nil => rfl
  | cons op ops ih =>
    have hone := checkAddOne_fst w (h op List.mem_cons_self)
    simp only [checkAddFirst]
    rcases hpair : oc.checkAddOne w op with ⟨oc₁, ok⟩
    rw [hpair] at hone
    subst hone
    cases ok with
    | false => rfl
    | true => exact ih fun op' hop' => h op' (List.mem_cons_of_mem _ hop')

theorem checkExpiredAll_cons (oc : OperatorController) (op : Operator) (ops : List Operator) :
    checkExpiredAll w oc (op :: ops) =
      ((checkExpiredAll w (oc.setStatus op ((oc.status op).checkExpired (w.expired op)).1) ops).1,
        ((oc.status op).checkExpired (w.expired op)).2 ||
          (checkExpiredAll w (oc.setStatus op ((oc.status op).checkExpired (w.expired op)).1) ops).2) := rfl

/-- `CheckExpired` changes only the statuses of the operators it looks at. -/
theorem quiet_checkExpiredAll {ops : List Operator} (hidle : ∀ op ∈ ops, oc.Idle op) :
    Quiet oc (checkExpiredAll w oc ops).1 := by
  induction ops generalizing oc with
  | nil => exact .refl oc
  | cons op ops ih =>
    rw [checkExpiredAll_cons]
    have hq := quiet_setStatus (hidle op List.mem_cons_self) ((oc.status op).checkExpired (w.expired op)).1
    exact hq.trans (ih fun op' hop' => hq.idle (hidle op' (List.mem_cons_of_mem _ hop')))

/-- When no operator as created expired, their statuses are as before. -/
theorem checkExpiredAll_of_created {ops : List Operator} (h : ∀ op ∈ ops, oc.status op = .created)
    (hnot : (checkExpiredAll w oc ops).2 = false) : (checkExpiredAll w oc ops).1 = oc := by
  induction ops generalizing oc with
  | nil => rfl
  | cons op ops ih =>
    rw [checkExpiredAll_cons] at hnot ⊢
    have hcreated := h op List.mem_cons_self
    have hfalse : w.expired op = false := by
      cases hexp : w.expired op with
      | false => rfl
      | true => simp [hcreated, hexp, OpStatus.checkExpired] at hnot
    -- an operator as created that did not expire is set back to created
    have hset : oc.setStatus op ((oc.status op).checkExpired (w.expired op)).1 = oc := by
      simpa [hcreated, hfalse, OpStatus.checkExpired] using setStatus_self oc op
    rw [hset] at hnot ⊢
    simp only [Bool.or_eq_false_iff] at hnot
    exact ih (fun op' hop' => h op' (List.mem_cons_of_mem _ hop')) hnot.2

/-- `checkAddOperator` of operators as created and idle changes only their
statuses, and nothing when it accepts them. -/
theorem checkAddOperator_spec {ops : List Operator} (h : ∀ op ∈ ops, oc.status op = .created ∧ oc.Idle op) :
    Quiet oc (oc.checkAddOperator w ops).1 ∧
      ((oc.checkAddOperator w ops).2 = true → (oc.checkAddOperator w ops).1 = oc) := by
  have hfirst := checkAddFirst_fst w fun op hop => (h op hop).1
  unfold checkAddOperator
  rcases hpair : checkAddFirst w oc ops with ⟨oc₁, ok⟩
  rw [hpair] at hfirst
  dsimp only at hfirst ⊢
  subst oc₁
  cases ok with
  | false => exact ⟨.refl oc, fun hok => nomatch hok⟩
  | true =>
    have hq := quiet_checkExpiredAll w fun op hop => (h op hop).2
    have hsame := checkExpiredAll_of_created w (fun op hop => (h op hop).1 : ∀ op ∈ ops, oc.status op = .created)
    rcases hexp : checkExpiredAll w oc ops with ⟨oc₂, expired⟩
    rw [hexp] at hq hsame
    refine ⟨hq, fun hok => hsame ?_⟩
    simpa using hok

end Check

/-! ### Adding running operators -/

section Add

variable (w : World)

/-- A running operator moves to or stays at an end status when replaced. -/
theorem isEnd_toStatus_replaced {s : OpStatus} (h : Running s) : ((s.toStatus .replaced).1).isEnd = true := by
  rcases h with rfl | rfl | rfl <;> rfl

/-- Replacing the running operator of a resource keeps the invariant, the
waiting operators and the statuses of the idle ones, and leaves no new
running operator. -/
theorem Inv.replaceOld (h : oc.Inv) (id : UInt64) :
    (oc.replaceOld id).Inv ∧ (∀ id' op', (oc.replaceOld id).operators id' = some op' → oc.operators id' = some op') ∧
      (oc.replaceOld id).wop = oc.wop ∧ (oc.replaceOld id).wopStatus = oc.wopStatus ∧
      ∀ op', oc.Idle op' → (oc.replaceOld id).status op' = oc.status op' := by
  unfold OperatorController.replaceOld
  cases hcur : oc.operators id with
  | none => exact ⟨h, fun _ _ hop => hop, rfl, rfl, fun _ _ => rfl⟩
  | some old =>
    dsimp only
    obtain ⟨hidle, hrun⟩ := h.idle_of_removeOperatorLocked (removeOperatorLocked_snd_of_mem h hcur)
    have hq := quiet_setStatus hidle (((oc.removeOperatorLocked old).1.status old).toStatus .replaced).1
    have hend : (((oc.removeOperatorLocked old).1.moveTo old .replaced).1.status old).isEnd = true := by
      simpa [moveTo, OperatorController.setStatus] using isEnd_toStatus_replaced hrun
    rw [buryOperator_of_isEnd hend]
    refine ⟨(h.removeOperatorLocked old).quiet hq, fun id' op' hop' => ?_, hq.wop.trans removeOperatorLocked_wop,
      hq.wopStatus.trans removeOperatorLocked_wopStatus, fun op' hi => ?_⟩
    · exact removeOperatorLocked_sub oc old id' op' (hq.operators ▸ hop')
    · -- the replaced operator was running, so it is not an idle one
      have hne : op' ≠ old := fun heq => hi.1 id (heq ▸ hcur)
      simp [moveTo, OperatorController.setStatus, Function.update_of_ne hne]

/-- Storing an idle operator as the running operator of its resource, at a
running status, keeps the invariant. -/
theorem Inv.putRunning (h : oc.Inv) (hidle : oc.Idle op) {s : OpStatus} (hs : Running s) :
    { oc.setStatus op s with operators := Function.update oc.operators op.resourceID (some op) }.Inv := by
  have h₁ : (oc.setStatus op s).Inv := h.setStatus_idle hidle s
  refine { h₁ with operators := fun id op' hop' => ?_ }
  dsimp only at hop' ⊢
  by_cases hid : id = op.resourceID
  · subst hid
    simp only [Function.update_self, Option.some.injEq] at hop'
    subst hop'
    simpa [OperatorController.setStatus] using hs
  · rw [Function.update_of_ne hid] at hop'
    exact h₁.operators id op' hop'

theorem moveTo_of_validTrans {dst : OpStatus} (h : (oc.status op).validTrans dst = true) :
    oc.moveTo op dst = (oc.setStatus op dst, true) := by
  simp [moveTo, OpStatus.toStatus, h]

/-- An idle operator other than the one stored stays idle. -/
theorem Idle.of_update {oc' : OperatorController} {op' : Operator} (hidle : oc.Idle op') (hne : op' ≠ op)
    {k : UInt64} (hops : oc'.operators = Function.update oc.operators k (some op)) (hwop : oc'.wop = oc.wop) :
    oc'.Idle op' := by
  refine ⟨fun id hid => ?_, hwop ▸ hidle.2⟩
  rw [hops] at hid
  by_cases hk : id = k
  · subst hk
    simp only [Function.update_self, Option.some.injEq] at hid
    exact hne hid.symm
  · rw [Function.update_of_ne hk] at hid
    exact hidle.1 id hid

/-- `addOperatorLocked` of an operator as created and idle starts it as the
running operator of its resource; the waiting operators and the other idle
operators, with their statuses, stay as they were. -/
theorem Inv.addOperatorLocked (h : oc.Inv) (hcreated : oc.status op = .created) (hidle : oc.Idle op) :
    (oc.addOperatorLocked w op).2 = true ∧ (oc.addOperatorLocked w op).1.Inv ∧
      (oc.addOperatorLocked w op).1.wop = oc.wop ∧ (oc.addOperatorLocked w op).1.wopStatus = oc.wopStatus ∧
      ∀ op', op' ≠ op → oc.Idle op' → (oc.addOperatorLocked w op).1.Idle op' ∧
        (oc.addOperatorLocked w op).1.status op' = oc.status op' := by
  obtain ⟨h₁, hsub, hwop, hcount, hstatus⟩ := h.replaceOld op.resourceID
  have hcreated₁ := (hstatus op hidle).trans hcreated
  have hidle₁ : (oc.replaceOld op.resourceID).Idle op :=
    ⟨fun id hid => hidle.1 id (hsub id op hid), hwop ▸ hidle.2⟩
  unfold OperatorController.addOperatorLocked
  generalize oc.replaceOld op.resourceID = oc₁ at *
  rw [moveTo_of_validTrans (by rw [hcreated₁]; rfl)]
  simp only [Bool.not_true, Bool.false_eq_true, if_false]
  -- `op` runs at started, then at what the check of its resource finds
  have hput := h₁.putRunning hidle₁ (s := .started) (.inl rfl)
  have hother : ∀ op', op' ≠ op → oc.Idle op' → oc₁.Idle op' ∧ oc₁.status op' = oc.status op' :=
    fun op' _ hi => ⟨⟨fun id hid => hi.1 id (hsub id op' hid), hwop ▸ hi.2⟩, hstatus op' hi⟩
  cases w.getResource op.resourceID with
  | none =>
    dsimp only
    refine ⟨trivial, hput.setQueue _, hwop, hcount, fun op' hne hi => ⟨(hother op' hne hi).1.of_update hne rfl rfl, ?_⟩⟩
    simpa [OperatorController.setStatus, Function.update_of_ne hne] using (hother op' hne hi).2
  | some epoch =>
    dsimp only
    have hrun : Running (check .started (w.check op)).1 := check_started (w.check op)
    have hinv := hput.setStatus (s := (check .started (w.check op)).1) (fun _ (_ : _ = some op) => hrun)
      (fun hw => absurd hw hidle₁.2)
    refine ⟨trivial, by simpa [OperatorController.setStatus] using hinv.setQueue _, hwop, hcount,
      fun op' hne hi => ⟨(hother op' hne hi).1.of_update hne rfl rfl, ?_⟩⟩
    simpa [OperatorController.setStatus, Function.update_of_ne hne] using (hother op' hne hi).2

theorem addAll_cons_of_ok {ops : List Operator} (hok : (oc.addOperatorLocked w op).2 = true) :
    addAll w oc (op :: ops) = addAll w (oc.addOperatorLocked w op).1 ops := by
  rcases hpair : oc.addOperatorLocked w op with ⟨oc₁, ok⟩
  rw [hpair] at hok
  subst hok
  simp [addAll, hpair]

/-- `addOperatorLocked` of distinct operators as created and idle adds every
one of them, and leaves the waiting operators as they were. -/
theorem Inv.addAll (h : oc.Inv) {ops : List Operator} (hnodup : ops.Nodup)
    (hfresh : ∀ op ∈ ops, oc.status op = .created ∧ oc.Idle op) :
    (addAll w oc ops).2 = true ∧ (addAll w oc ops).1.Inv ∧ (addAll w oc ops).1.wop = oc.wop ∧
      (addAll w oc ops).1.wopStatus = oc.wopStatus := by
  induction ops generalizing oc with
  | nil => exact ⟨rfl, h, rfl, rfl⟩
  | cons op ops ih =>
    obtain ⟨hnot, hnodup'⟩ := List.nodup_cons.mp hnodup
    obtain ⟨hcreated, hidle⟩ := hfresh op List.mem_cons_self
    obtain ⟨hok, hinv, hwop, hcount, hother⟩ := h.addOperatorLocked w hcreated hidle
    -- the other operators are still as created and idle
    have hrest : ∀ op' ∈ ops, (oc.addOperatorLocked w op).1.status op' = .created ∧
        (oc.addOperatorLocked w op).1.Idle op' := by
      intro op' hop'
      have hne : op' ≠ op := fun heq => hnot (heq ▸ hop')
      obtain ⟨hc, hi⟩ := hfresh op' (List.mem_cons_of_mem _ hop')
      obtain ⟨hi', hs'⟩ := hother op' hne hi
      exact ⟨hs'.trans hc, hi'⟩
    obtain ⟨hok', hinv', hwop', hcount'⟩ := ih hinv hnodup' hrest
    rw [addAll_cons_of_ok w hok]
    exact ⟨hok', hinv', hwop'.trans hwop, hcount'.trans hcount⟩

/-- `AddOperator` of distinct operators as created and idle keeps the invariant:
refused, they are canceled and buried, and accepted, they all start. -/
theorem Inv.addOperator (h : oc.Inv) {ops : List Operator} (hnodup : ops.Nodup)
    (hfresh : ∀ op ∈ ops, oc.status op = .created ∧ oc.Idle op) : (oc.addOperator w ops).1.Inv := by
  unfold OperatorController.addOperator
  split_ifs with hexceed
  · exact h.quiet (quiet_cancelAndBury fun op hop => (hfresh op hop).2)
  · obtain ⟨hq, hsame⟩ := checkAddOperator_spec w hfresh
    rcases hpair : oc.checkAddOperator w ops with ⟨oc₁, ok⟩
    rw [hpair] at hq hsame
    cases ok with
    | false => exact (h.quiet hq).quiet (quiet_cancelAndBury fun op hop => hq.idle (hfresh op hop).2)
    | true =>
      obtain rfl : oc₁ = oc := hsame rfl
      exact (h.addAll w hnodup hfresh).2.1

end Add

/-! ### Waiting operators -/

section Wait

variable (w : World)

@[simp] theorem addWaiting_wop (oc : OperatorController) (d : String) (n : Int) :
    (oc.addWaiting d n).wop = oc.wop := rfl

@[simp] theorem addWaiting_wopStatus (oc : OperatorController) (d : String) (n : Int) :
    (oc.addWaiting d n).wopStatus = Function.update oc.wopStatus d (oc.wopStatus d + n) := rfl

/-- Putting a unit of distinct operators as created and idle into the waiting
buckets, with one more waiting unit of its description, keeps the invariant
and every other idle operator idle. -/
theorem Inv.putWaiting (h : oc.Inv) {u : List Operator} (hu : IsUnit u) (hnodup : u.Nodup)
    (hfresh : ∀ op ∈ u, oc.status op = .created ∧ oc.Idle op) {d : String}
    (hd : u.head?.map (·.desc) = some d) :
    ({ oc with wop := u.foldl RandBuckets.putOperator oc.wop }.addWaiting d 1).Inv ∧
      ∀ op', op' ∉ u → oc.Idle op' → ({ oc with wop := u.foldl RandBuckets.putOperator oc.wop }.addWaiting d 1).Idle op' := by
  obtain ⟨level, hlevel⟩ := hu.levels
  have hperm := RandBuckets.listOperator_putUnit h.wop hu hlevel
  refine ⟨⟨h.operators, (h.wop.putUnit hu hlevel).1, fun op' hop' => ?_, ?_, fun d' => ?_, h.errors⟩,
    fun op' hnot hi => ⟨hi.1, fun hw => ?_⟩⟩
  · rcases List.mem_append.mp (hperm.mem_iff.mp hop') with hold | hnew
    · exact h.waiting op' hold
    · exact (hfresh op' hnew).1
  · -- the unit's operators were not waiting
    refine hperm.nodup_iff.mpr (List.nodup_append.mpr ⟨h.nodup, hnodup, ?_⟩)
    intro a ha b hb hab
    exact (hfresh b hb).2.2 (hab ▸ ha)
  · simp only [addWaiting_wop, addWaiting_wopStatus]
    rw [RandBuckets.unitCount_putUnit h.wop hu hlevel, hd]
    by_cases hdd : d' = d
    · subst hdd
      simp [h.wopStatus]
    · simp [Function.update_of_ne hdd, h.wopStatus, Ne.symm hdd]
  · rcases List.mem_append.mp (hperm.mem_iff.mp hw) with hold | hnew
    · exact hi.2 hold
    · exact hnot hnew

/-- `tryPutWaiting` of a unit of distinct operators as created and idle keeps
the invariant; when the unit is put, every other idle operator stays idle at
its status. -/
theorem Inv.tryPutWaiting (h : oc.Inv) {next : Option Operator} (hu : IsUnit (op :: next.toList))
    (hnodup : (op :: next.toList).Nodup) (hfresh : ∀ o ∈ op :: next.toList, oc.status o = .created ∧ oc.Idle o) :
    (oc.tryPutWaiting w op next).1.Inv ∧ ((oc.tryPutWaiting w op next).2 = true →
      ∀ op', op' ∉ op :: next.toList → oc.Idle op' → (oc.tryPutWaiting w op next).1.Idle op' ∧
        (oc.tryPutWaiting w op next).1.status op' = oc.status op') := by
  obtain ⟨hq, hsame⟩ := checkAddOperator_spec w
    (show ∀ o ∈ [op], oc.status o = .created ∧ oc.Idle o by simpa using hfresh op List.mem_cons_self)
  unfold OperatorController.tryPutWaiting
  rcases hpair : oc.checkAddOperator w [op] with ⟨oc₁, ok⟩
  rw [hpair] at hq hsame
  cases ok with
  | false =>
    -- refused: the unit is canceled and buried
    have hq' := quiet_cancelAndBury (fun o ho => hq.idle (hfresh o ho).2 : ∀ o ∈ op :: next.toList, oc₁.Idle o)
    exact ⟨(h.quiet hq).quiet hq', fun hok => nomatch hok⟩
  | true =>
    obtain rfl : oc₁ = oc := hsame rfl
    obtain ⟨hinv, hidle⟩ := h.putWaiting hu hnodup hfresh (d := op.desc) rfl
    exact ⟨hinv, fun _ op' hnot hi => ⟨hidle op' hnot hi, rfl⟩⟩

/-- The operators after a unit that was put are still as created and idle. -/
theorem fresh_of_put {oc' : OperatorController} {u rest : List Operator} (hnodup : (u ++ rest).Nodup)
    (hfresh : ∀ o ∈ u ++ rest, oc.status o = .created ∧ oc.Idle o)
    (hkeep : ∀ op', op' ∉ u → oc.Idle op' → oc'.Idle op' ∧ oc'.status op' = oc.status op') :
    rest.Nodup ∧ ∀ o ∈ rest, oc'.status o = .created ∧ oc'.Idle o := by
  obtain ⟨-, hrest, hdisj⟩ := List.nodup_append.mp hnodup
  refine ⟨hrest, fun o ho => ?_⟩
  obtain ⟨hc, hi⟩ := hfresh o (List.mem_append_right _ ho)
  obtain ⟨hi', hs⟩ := hkeep o (fun hu => hdisj o hu o ho rfl) hi
  exact ⟨hs.trans hc, hi'⟩

/-- The loop of `AddWaitingOperator` over distinct operators as created and
idle, given as whole units, keeps the invariant: it logs no orphan or
unpaired merge, and each unit is put or canceled whole. -/
theorem Inv.addWaitingLoop (h : oc.Inv) (added : Nat) {ops : List Operator} (hnodup : ops.Nodup)
    (hfresh : ∀ op ∈ ops, oc.status op = .created ∧ oc.Idle op) (hpaired : ∀ u ∈ units ops, IsUnit u) :
    (OperatorController.addWaitingLoop w oc added ops).1.Inv := by
  fun_induction OperatorController.addWaitingLoop w oc added ops with
  | case1 => exact h
  | case2 oc added op hmerge =>
    -- a lone merge operator is not a unit
    have hu : IsUnit [op] := hpaired [op] (by simp [units])
    simp [IsUnit, hmerge] at hu
  | case3 oc added op hmerge next rest hnext =>
    -- the operator after a merge operator is its pair
    have hu := hpaired [op, next] (by rw [units_cons_cons_of_merge hmerge]; exact List.mem_cons_self)
    simp [hu.2.1] at hnext
  | case4 oc added op hmerge next rest hnext oc' hput ih =>
    have hunits : units (op :: next :: rest) = [op, next] :: units rest := units_cons_cons_of_merge hmerge
    have hu : IsUnit [op, next] := hpaired _ (by rw [hunits]; exact List.mem_cons_self)
    obtain ⟨hinv, hkeep⟩ := h.tryPutWaiting w (show IsUnit (op :: (some next).toList) from hu)
      (List.nodup_append.mp hnodup).1
      fun o ho => hfresh o (List.mem_append_left _ ho)
    rw [hput] at hinv hkeep
    obtain ⟨hnodup', hfresh'⟩ := fresh_of_put (u := [op, next]) hnodup hfresh (hkeep rfl)
    exact ih hinv hnodup' hfresh' fun u hu' => hpaired u (by rw [hunits]; exact List.mem_cons_of_mem _ hu')
  | case5 oc added op hmerge next rest hnext oc' ok hput hok =>
    have hu : IsUnit [op, next] := hpaired _ (by rw [units_cons_cons_of_merge hmerge]; exact List.mem_cons_self)
    have hinv := (h.tryPutWaiting w (show IsUnit (op :: (some next).toList) from hu) (List.nodup_append.mp hnodup).1
      fun o ho => hfresh o (List.mem_append_left _ ho)).1
    rw [hput] at hinv
    exact hinv
  | case6 oc added op ops hmerge oc' hput ih =>
    have hunits := units_cons_of_not_merge (l := ops) (by simpa using hmerge)
    have hu : IsUnit [op] := hpaired _ (by rw [hunits]; exact List.mem_cons_self)
    obtain ⟨hinv, hkeep⟩ := h.tryPutWaiting w (show IsUnit (op :: (none : Option Operator).toList) from hu)
      (List.nodup_append.mp hnodup).1
      fun o ho => hfresh o (List.mem_append_left _ ho)
    rw [hput] at hinv hkeep
    obtain ⟨hnodup', hfresh'⟩ := fresh_of_put (u := [op]) hnodup hfresh (hkeep rfl)
    exact ih hinv hnodup' hfresh' fun u hu' => hpaired u (by rw [hunits]; exact List.mem_cons_of_mem _ hu')
  | case7 oc added op ops hmerge oc' ok hput hok =>
    have hu : IsUnit [op] :=
      hpaired _ (by rw [units_cons_of_not_merge (by simpa using hmerge)]; exact List.mem_cons_self)
    have hinv := (h.tryPutWaiting w (show IsUnit (op :: (none : Option Operator).toList) from hu)
      (List.nodup_append.mp hnodup).1
      fun o ho => hfresh o (List.mem_append_left _ ho)).1
    rw [hput] at hinv
    exact hinv

theorem Quiet.addWaiting {oc' : OperatorController} (hq : Quiet oc oc') (d : String) (n : Int) :
    Quiet (oc.addWaiting d n) (oc'.addWaiting d n) :=
  ⟨hq.operators, hq.wop, by simp [hq.wopStatus], hq.errors, hq.status⟩

/-- Taking the first unit of a bucket, with one waiting unit fewer of its
description, keeps the invariant; the unit's operators are distinct, as
created, and idle once taken. -/
theorem Inv.takeWaiting (h : oc.Inv) {b' : RandBuckets} (hb' : b'.Inv) {i : Fin 3} {op : Operator}
    {rest : List Operator} {us : List (List Operator)} (hunits : units (oc.wop.buckets i) = (op :: rest) :: us)
    (hbuckets : b'.buckets = Function.update oc.wop.buckets i us.flatten) :
    ({ oc with wop := b' }.addWaiting op.desc (-1)).Inv ∧ (op :: rest).Nodup ∧
      ∀ o ∈ op :: rest, oc.status o = .created ∧ { oc with wop := b' }.Idle o := by
  have hperm := RandBuckets.listOperator_take hunits hbuckets
  have hnodup := hperm.nodup_iff.mp h.nodup
  obtain ⟨hnodup', hunit, hdisj⟩ := List.nodup_append.mp hnodup
  have hwaiting : ∀ o ∈ op :: rest, oc.status o = .created :=
    fun o ho => h.waiting o (hperm.mem_iff.mpr (List.mem_append_right _ ho))
  refine ⟨⟨h.operators, hb', fun o ho => h.waiting o (hperm.mem_iff.mpr (List.mem_append_left _ ho)), hnodup',
    fun d => ?_, h.errors⟩, hunit, fun o ho => ⟨hwaiting o ho, ?_, fun hw => hdisj o hw o ho rfl⟩⟩
  · have hcount := RandBuckets.unitCount_take h.wop hunits hbuckets d
    simp only [addWaiting_wop, addWaiting_wopStatus]
    by_cases hd : d = op.desc
    · subst hd
      simp only [List.head?_cons, Option.map_some, if_true, Function.update_self] at hcount ⊢
      rw [h.wopStatus, ← hcount]
      push_cast
      ring
    · have hne : ¬ (some op.desc = some d) := fun heq => hd (Option.some.inj heq).symm
      simp only [List.head?_cons, Option.map_some, hne, if_false, Nat.add_zero] at hcount
      rw [Function.update_of_ne hd, h.wopStatus, hcount]
  · -- as created, so not running
    exact fun id hid => running_not_created (h.operators id o hid).2 (hwaiting o ho)

theorem Inv.promoteLoop : ∀ {fuel : Nat} (k : Nat) {oc : OperatorController}, oc.Inv →
    oc.wop.listOperator.length < fuel →
    ∃ oc' ops, OperatorController.promoteLoop w fuel k oc = some (oc', ops) ∧ oc'.Inv ∧ ops.Nodup ∧
      ∀ op ∈ ops, oc'.status op = .created ∧ oc'.Idle op := by
  intro fuel
  induction fuel with
  | zero => intro k oc _ hlen; omega
  | succ fuel ih =>
    intro k oc h hlen
    obtain ⟨b', res, hget, hb', -, hsame, hres⟩ := RandBuckets.getOperator_spec h.wop (w.rand_mem k).1 (w.rand_mem k).2
    simp only [OperatorController.promoteLoop, hget, Option.bind_some]
    cases res with
    | nil =>
      -- nothing waits
      obtain rfl := hsame rfl
      exact ⟨_, [], rfl, h, List.nodup_nil, by simp⟩
    | cons op rest =>
      obtain ⟨i, us, hunits, -, hbuckets⟩ := hres (List.cons_ne_nil _ _)
      obtain ⟨hJ, hnodup, hfresh⟩ := h.takeWaiting hb' hunits hbuckets
      -- a refused unit is canceled and buried, and the loop goes on with one unit fewer
      have hnext : ∀ X, Quiet { oc with wop := b' } X →
          ∃ oc' ops, OperatorController.promoteLoop w fuel (k + 1)
              ((X.cancelAndBury (op :: rest)).addWaiting op.desc (-1)) = some (oc', ops) ∧
            oc'.Inv ∧ ops.Nodup ∧ ∀ o ∈ ops, oc'.status o = .created ∧ oc'.Idle o := by
        intro X hq
        have hq' := hq.trans (quiet_cancelAndBury fun o ho => hq.idle (hfresh o ho).2)
        refine ih (k + 1) (hJ.quiet (hq'.addWaiting _ _)) ?_
        have hlen' := (RandBuckets.listOperator_take hunits hbuckets).length_eq
        simp only [List.length_append, List.length_cons] at hlen'
        rw [addWaiting_wop, hq'.wop]
        dsimp only
        omega
      dsimp only
      by_cases hexceed : w.exceedContainerLimit (op :: rest) = true
      · simp only [hexceed, if_true, Bool.false_eq_true, if_false]
        exact hnext _ (.refl _)
      · obtain ⟨hq, hsame'⟩ := checkAddOperator_spec w
          (show ∀ o ∈ op :: rest, { oc with wop := b' }.status o = .created ∧ { oc with wop := b' }.Idle o from hfresh)
        simp only [hexceed, Bool.false_eq_true, if_false]
        rcases hpair : checkAddOperator w { oc with wop := b' } (op :: rest) with ⟨oc₂, ok⟩
        rw [hpair] at hq hsame'
        cases ok with
        | true =>
          -- accepted: the unit is returned to be added
          obtain rfl : oc₂ = { oc with wop := b' } := hsame' rfl
          exact ⟨_, _, rfl, hJ, hnodup, hfresh⟩
        | false => exact hnext oc₂ hq

/-- `PromoteWaitingOperator` does not panic and keeps the invariant: the
loop takes one unit a round, so its fuel is never used up. -/
theorem Inv.promoteWaitingOperator (h : oc.Inv) : ∃ oc', oc.promoteWaitingOperator w = some oc' ∧ oc'.Inv := by
  obtain ⟨oc₁, ops, hloop, hinv, hnodup, hfresh⟩ := h.promoteLoop w 0 (Nat.lt_succ_self _)
  exact ⟨_, by simp [OperatorController.promoteWaitingOperator, hloop], (hinv.addAll w hnodup hfresh).2.1⟩

/-- `AddWaitingOperator` of at least one operator, all distinct, as created,
idle, and given as whole units, does not panic and keeps the invariant. -/
theorem Inv.addWaitingOperator (h : oc.Inv) {ops : List Operator} (hnodup : ops.Nodup)
    (hfresh : ∀ op ∈ ops, oc.status op = .created ∧ oc.Idle op) (hpaired : ∀ u ∈ units ops, IsUnit u)
    (hne : ops ≠ []) : ∃ oc' n, oc.addWaitingOperator w ops = some (oc', n) ∧ oc'.Inv := by
  have hinv := h.addWaitingLoop w 0 hnodup hfresh hpaired
  unfold OperatorController.addWaitingOperator
  rcases hpair : OperatorController.addWaitingLoop w oc 0 ops with ⟨oc₁, added, finished⟩
  rw [hpair] at hinv
  cases finished with
  | false => exact ⟨oc₁, added, rfl, hinv⟩
  | true =>
    obtain ⟨oc₂, hprom, hinv₂⟩ := hinv.promoteWaitingOperator w
    exact ⟨oc₂, added, by simp [hne, hprom], hinv₂⟩

end Wait

/-! ### Dispatching running operators -/

section Dispatch

variable (w : World)

/-- A removal the world may ask for keeps the invariant. -/
theorem Inv.removeIf (h : oc.Inv) (c : Bool) (op : Operator) :
    (if c then oc.removeOperator op else (oc, false)).1.Inv := by
  cases c with
  | false => exact h
  | true => exact (h.removeOperator op).1

/-- `checkStaleOperator` does not panic and keeps the invariant. -/
theorem Inv.checkStaleOperator (h : oc.Inv) (op : Operator) :
    ∃ r, oc.checkStaleOperator w op = some r ∧ r.1.Inv := by
  have h₁ := h.removeIf w.stepFails op
  unfold OperatorController.checkStaleOperator
  rcases hpair : (if w.stepFails then oc.removeOperator op else (oc, false)) with ⟨oc₁, removed⟩
  rw [hpair] at h₁
  cases removed with
  | true =>
    obtain ⟨oc₂, hprom, hinv₂⟩ := h₁.promoteWaitingOperator w
    exact ⟨(oc₂, true), by simp [hprom], hinv₂⟩
  | false =>
    have h₂ := h₁.removeIf w.confVerStale op
    dsimp only
    rcases hpair₂ : (if w.confVerStale then oc₁.removeOperator op else (oc₁, false)) with ⟨oc₂, removed₂⟩
    rw [hpair₂] at h₂
    cases removed₂ with
    | true =>
      obtain ⟨oc₃, hprom, hinv₃⟩ := h₂.promoteWaitingOperator w
      exact ⟨(oc₃, true), by simp [hprom], hinv₃⟩
    | false => exact ⟨(oc₂, false), rfl, h₂⟩

/-- Checking a running operator leaves it running: a started one stays started
or ends in success or timeout, and an ended one is not checked. -/
theorem running_check {s : OpStatus} (h : Running s) (o : CheckOutcome) : Running (check s o).1 := by
  rcases h with rfl | rfl | rfl
  · exact check_started o
  · exact .inr (.inl rfl)
  · exact .inr (.inr rfl)

@[simp] theorem setStatus_status_self (oc : OperatorController) (op : Operator) (s : OpStatus) :
    (oc.setStatus op s).status op = s := by
  simp [OperatorController.setStatus]

/-- Checking the running operator of a resource keeps the invariant. -/
theorem Inv.setStatus_check (h : oc.Inv) {id : UInt64} (hop : oc.operators id = some op) (o : CheckOutcome) :
    (oc.setStatus op (check (oc.status op) o).1).Inv ∧ Running (check (oc.status op) o).1 := by
  have hrun := running_check (h.operators id op hop).2 o
  exact ⟨h.setStatus (fun _ _ => hrun) fun hw => absurd hw (h.not_waiting_of_running (h.operators id op hop).2),
    hrun⟩

/-- `Dispatch` does not panic and keeps the invariant; its branch for an
unexpected status is never taken, since the running operator stays running. -/
theorem Inv.dispatch (h : oc.Inv) (resID : UInt64) (fromHeartbeat : Bool) :
    ∃ oc', oc.dispatch w resID fromHeartbeat = some oc' ∧ oc'.Inv := by
  unfold OperatorController.dispatch
  cases hop : oc.operators resID with
  | none => exact ⟨oc, rfl, h⟩
  | some op =>
    obtain ⟨h₁, hrun⟩ := h.setStatus_check hop (w.check op)
    dsimp only
    rw [setStatus_status_self]
    generalize oc.setStatus op (check (oc.status op) (w.check op)).1 = oc₁ at h₁
    rcases hrun with hs | hs | hs <;> rw [hs]
    · -- started: kept, or removed when stale
      cases fromHeartbeat with
      | false => exact ⟨oc₁, rfl, h₁⟩
      | true =>
        obtain ⟨r, hstale, hinv⟩ := h₁.checkStaleOperator w op
        exact ⟨r.1, by simp [hstale], hinv⟩
    all_goals
      -- success or timeout: removed, and a waiting operator promoted
      have h₂ := (h₁.removeOperator op).1
      dsimp only
      rcases hpair : oc₁.removeOperator op with ⟨oc₂, removed⟩
      rw [hpair] at h₂
      cases removed with
      | false => exact ⟨oc₂, rfl, h₂⟩
      | true => exact h₂.promoteWaitingOperator w

/-- `pollNeedDispatchResource` keeps the invariant, whichever item it pops. -/
theorem Inv.pollNeedDispatchResource (h : oc.Inv) (i : Nat) : (oc.pollNeedDispatchResource w i).1.Inv := by
  unfold OperatorController.pollNeedDispatchResource
  cases hitem : oc.opNotifierQueue[i]? with
  | none => exact h
  | some item =>
    dsimp only
    have h₁ := h.setQueue (oc.opNotifierQueue.eraseIdx i)
    cases hop : oc.operators item.op.resourceID with
    | none => exact h₁
    | some op =>
      cases w.getResource item.op.resourceID with
      | none =>
        -- the resource is gone: its running operator is removed, canceled and buried
        exact (h₁.removeCancel (removeOperatorLocked_snd_of_mem h₁ hop)).1
      | some epoch =>
        have h₂ := (h₁.setStatus_check hop (w.check op)).1
        dsimp only
        split_ifs
        · exact h₂
        · exact h₂.setQueue _
        · exact h₂.setQueue _

end Dispatch

/-! ## Runs of the controller -/

/-- Operators as a scheduler submits them: distinct, as created, and not
waiting. -/
def Fresh (oc : OperatorController) (ops : List Operator) : Prop :=
  ops.Nodup ∧ ∀ op ∈ ops, oc.status op = .created ∧ op ∉ oc.wop.listOperator

instance (oc : OperatorController) (ops : List Operator) : Decidable (oc.Fresh ops) :=
  inferInstanceAs (Decidable (_ ∧ _))

/-- What a call asks of its caller: the operators it adds are fresh, and those
of `AddWaitingOperator` are at least one (it reads `ops[0]`) and come as whole
units, each merge operator followed by its pair. -/
def Contract (oc : OperatorController) : ControllerEvent → Prop
  | .addOperator ops => oc.Fresh ops
  | .addWaitingOperator ops => oc.Fresh ops ∧ (∀ u ∈ units ops, IsUnit u) ∧ ops ≠ []
  | _ => True

/-- The states reached from a new controller by calls under their contract,
each in any world. -/
inductive Reachable : OperatorController → Prop
  | init : Reachable newOperatorController
  | step {oc oc' : OperatorController} (w : World) (e : ControllerEvent) :
      Reachable oc → oc.Contract e → oc.step w e = some oc' → Reachable oc'

theorem Inv.fresh (h : oc.Inv) {ops : List Operator} (hf : oc.Fresh ops) :
    ops.Nodup ∧ ∀ op ∈ ops, oc.status op = .created ∧ oc.Idle op :=
  ⟨hf.1, fun op hop => ⟨(hf.2 op hop).1, h.idle_of_created (hf.2 op hop).1 (hf.2 op hop).2⟩⟩

/-- One call under its contract does not panic and keeps the invariant. -/
theorem Inv.step (h : oc.Inv) (w : World) {e : ControllerEvent} (hc : oc.Contract e) :
    ∃ oc', oc.step w e = some oc' ∧ oc'.Inv := by
  cases e with
  | addOperator ops =>
    obtain ⟨hnodup, hfresh⟩ := h.fresh hc
    exact ⟨_, rfl, h.addOperator w hnodup hfresh⟩
  | addWaitingOperator ops =>
    obtain ⟨hf, hpaired, hne⟩ := hc
    obtain ⟨hnodup, hfresh⟩ := h.fresh hf
    obtain ⟨oc', n, hadd, hinv⟩ := h.addWaitingOperator w hnodup hfresh hpaired hne
    exact ⟨oc', by simp [OperatorController.step, hadd], hinv⟩
  | promoteWaitingOperator => exact h.promoteWaitingOperator w
  | removeOperator op => exact ⟨_, rfl, (h.removeOperator op).1⟩
  | dispatch resID fromHeartbeat => exact h.dispatch w resID fromHeartbeat
  | pollNeedDispatchResource i => exact ⟨_, rfl, h.pollNeedDispatchResource w i⟩

/-- Every reachable state keeps the invariant. -/
theorem Reachable.inv (hr : Reachable oc) : oc.Inv := by
  induction hr with
  | init => exact inv_newOperatorController
  | step w e _ hc hstep ih =>
    obtain ⟨oc', hstep', hinv⟩ := ih.step w hc
    rw [hstep] at hstep'
    cases hstep'
    exact hinv

/-- The bookkeeping of the controller over every run of calls under their
contract: each running operator is stored under its resource and is started,
successful or timed out; nothing is logged, so no operator is buried before it
ends and `Dispatch` never finds an unexpected status; `wopStatus` counts the
waiting units of each description; `GetOperator` returns nothing only when no
operator waits, and otherwise the first unit of a bucket, whole and in the
order it was put; and the next call under its contract does not panic and
logs nothing. -/
theorem operatorController_bookkeeping (hr : Reachable oc) :
    (∀ id op, oc.operators id = some op → op.resourceID = id ∧ Running (oc.status op)) ∧
      oc.errors = [] ∧
      (∀ d, oc.wopStatus d = oc.wop.unitCount d) ∧
      (∀ r : ℚ, 0 ≤ r → r < 1 → ∃ b' res, oc.wop.getOperator r = some (b', res) ∧
        (res = [] ↔ oc.wop.listOperator = []) ∧
        (res ≠ [] → IsUnit res ∧ ∃ i us, units (oc.wop.buckets i) = res :: us)) ∧
      ∀ (w : World) (e : ControllerEvent), oc.Contract e → ∃ oc', oc.step w e = some oc' ∧ oc'.errors = [] := by
  have h := hr.inv
  refine ⟨h.operators, h.errors, h.wopStatus, fun r hr0 hr1 => ?_, fun w e hc => ?_⟩
  · obtain ⟨b', res, hget, -, hnil, -, hres⟩ := RandBuckets.getOperator_spec h.wop hr0 hr1
    refine ⟨b', res, hget, hnil.trans RandBuckets.listOperator_eq_nil_iff.symm, fun hne => ?_⟩
    obtain ⟨i, us, hunits, hu, -⟩ := hres hne
    exact ⟨hu, i, us, hunits⟩
  · obtain ⟨oc', hstep, hinv⟩ := h.step w hc
    exact ⟨oc', hstep, hinv.errors⟩

/-- A controller reached by two `AddOperator` calls and an
`AddWaitingOperator` of two operators, one of which it promotes: three
operators run and one waits. -/
theorem operatorController_bookkeeping_waiting :
    let opOf : Nat → UInt64 → Operator := fun i r => ⟨i, "op", r, {}, 0, 1⟩
    let w₀ : World := ⟨fun _ => some {}, fun _ => false, fun _ => ⟨false, false⟩, fun _ => false, 10, fun _ => 0,
      fun _ => ⟨le_refl 0, zero_lt_one⟩, false, false, 0, 0⟩
    let oc₂ := ((newOperatorController.addOperator w₀ [opOf 1 1]).1.addOperator w₀ [opOf 2 2]).1
    let oc := (oc₂.step w₀ (.addWaitingOperator [opOf 3 3, opOf 4 4])).getD newOperatorController
    ([1, 2, 3, 4] : List UInt64).map (fun i => (oc.operators i).map (·.id)) = [some 1, some 2, some 3, none] ∧
      oc.wop.listOperator = [opOf 4 4] ∧ Reachable oc ∧
      (∀ id op, oc.operators id = some op → op.resourceID = id ∧ Running (oc.status op)) ∧
      oc.errors = [] ∧
      (∀ d, oc.wopStatus d = oc.wop.unitCount d) ∧
      (∀ r : ℚ, 0 ≤ r → r < 1 → ∃ b' res, oc.wop.getOperator r = some (b', res) ∧
        (res = [] ↔ oc.wop.listOperator = []) ∧
        (res ≠ [] → IsUnit res ∧ ∃ i us, units (oc.wop.buckets i) = res :: us)) ∧
      ∀ (w : World) (e : ControllerEvent), oc.Contract e → ∃ oc', oc.step w e = some oc' ∧ oc'.errors = [] := by
  intro opOf w₀ oc₂ oc
  have h₁ : Reachable (newOperatorController.addOperator w₀ [opOf 1 1]).1 :=
    .step w₀ (.addOperator [opOf 1 1]) .init (show newOperatorController.Fresh _ by decide +kernel) rfl
  have h₂ : Reachable oc₂ :=
    .step w₀ (.addOperator [opOf 2 2]) h₁ (show OperatorController.Fresh _ _ by decide +kernel) rfl
  -- two operators that are not merges: two units of one
  have hm₃ : (opOf 3 3).isMerge = false := by decide
  have hm₄ : (opOf 4 4).isMerge = false := by decide
  have hunits : ∀ u ∈ units [opOf 3 3, opOf 4 4], IsUnit u := by
    rw [units_cons_of_not_merge hm₃, units_cons_of_not_merge hm₄]
    intro u hu
    simp only [units, List.mem_cons, List.not_mem_nil, or_false] at hu
    rcases hu with rfl | rfl
    exacts [hm₃, hm₄]
  -- the call does not panic, so its result is `oc`
  have hstep : oc₂.step w₀ (.addWaitingOperator [opOf 3 3, opOf 4 4]) = some oc := by
    obtain ⟨v, hv⟩ := Option.isSome_iff_exists.mp
      (show (oc₂.step w₀ (.addWaitingOperator [opOf 3 3, opOf 4 4])).isSome by decide +kernel)
    simp only [oc, hv, Option.getD_some]
  have h : Reachable oc :=
    .step w₀ (.addWaitingOperator [opOf 3 3, opOf 4 4]) h₂
      ⟨show OperatorController.Fresh _ _ by decide +kernel, hunits, by simp⟩ hstep
  exact ⟨by decide +kernel, by decide +kernel, h, operatorController_bookkeeping h⟩

/-- Without fresh operators the bookkeeping fails: an operator submitted again
while it runs is refused by the priority check and canceled, so the canceled
operator stays the running operator of its resource, and `Dispatch` takes its
branch for an unexpected status. -/
theorem operatorController_resubmitted :
    let op : Operator := ⟨1, "op", 1, {}, 0, 1⟩
    let w : World := ⟨fun _ => some {}, fun _ => false, fun _ => ⟨false, false⟩, fun _ => false, 10, fun _ => 0,
      fun _ => ⟨le_refl 0, zero_lt_one⟩, false, false, 0, 0⟩
    let oc := ((newOperatorController.addOperator w [op]).1.addOperator w [op]).1
    oc.operators 1 = some op ∧ oc.status op = .canceled ∧
      (oc.dispatch w 1 false).map (·.errors) = some [.dispatchUnexpectedStatus op .canceled] := by
  decide +kernel

end OperatorController

end MatrixCube.Prophet.Schedule
