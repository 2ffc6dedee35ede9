import MatrixCube.Prophet.Placement.Rule
import MatrixCube.Prophet.ResourceTree
import MatrixCube.Lib.Binary64

/-! # Fitting the peers of a resource to its rules

`FitResource` (`fit.go`) divides the peers of a resource among the rules that
apply to it. A `fitWorker` tries the rules in order; for each it enumerates
every choice of `min(Count, len(candidates))` peers among those that match the
rule's label constraints and loose role and that no earlier rule took, and
keeps the best choice by `compareRuleFit`, with the rules after it fitted
anew whenever the choice strictly improves and searched again on a tie.
Whatever no rule took is orphan.

The `selected` flags of the `fitPeer`s hold exactly the peers chosen on the
current branch of the search, so they are the list `path ++ selected` here. A
float64 score is a rational rounded by `Binary64`.
-/

namespace MatrixCube.Prophet.Placement

/-- `RuleFit`. -/
structure RuleFit where
  rule : Rule
  peers : List Peer
  peersWithDifferentRole : List Peer
  isolationScore : ℚ
  deriving DecidableEq, Repr

/-- `ResourceFit`; a nil `*RuleFit` is `none`. -/
structure ResourceFit where
  ruleFits : List (Option RuleFit)
  orphanPeers : List Peer
  deriving DecidableEq, Repr

/-- `compareRuleFit`. -/
def compareRuleFit (a b : RuleFit) : Int :=
  if a.peers.length < b.peers.length then -1
  else if a.peers.length > b.peers.length then 1
  else if a.peersWithDifferentRole.length > b.peersWithDifferentRole.length then -1
  else if a.peersWithDifferentRole.length < b.peersWithDifferentRole.length then 1
  else if a.isolationScore < b.isolationScore then -1
  else if a.isolationScore > b.isolationScore then 1
  else 0

/-- The loop of `CompareResourceFit` over the rule fits of both, up to the
shorter; `none` is the nil dereference of a missing rule fit. -/
def compareRuleFits : List (Option RuleFit) → List (Option RuleFit) → Option Int
  | some a :: as, some b :: bs =>
    let cmp := compareRuleFit a b
    if cmp ≠ 0 then some cmp else compareRuleFits as bs
  | _ :: _, _ :: _ => none
  | _, _ => some 0

/-- `CompareResourceFit`: `1` when `a` is the better fit. -/
def compareResourceFit (a b : ResourceFit) : Option Int :=
  (compareRuleFits a.ruleFits b.ruleFits).map fun cmp =>
    if cmp ≠ 0 then cmp
    else if a.orphanPeers.length < b.orphanPeers.length then 1
    else if a.orphanPeers.length > b.orphanPeers.length then -1
    else 0

/-- `fitPeer` without its `selected` flag: the peer, its container's labels
(nil when the cluster does not know the container), and whether it leads. -/
structure FitPeer where
  peer : Peer
  container : Option ContainerLabels
  isLeader : Bool
  deriving DecidableEq, Repr

namespace FitPeer

/-- `fitPeer.matchRoleStrict`. -/
def matchRoleStrict (p : FitPeer) (role : PeerRoleType) : Bool :=
  if role = voter then p.peer.role != .learner
  else if role = leader then p.isLeader
  else if role = follower then p.peer.role != .learner && !p.isLeader
  else if role = learner then p.peer.role == .learner
  else false

/-- `fitPeer.matchRoleLoose`: a voter cannot become a learner. -/
def matchRoleLoose (p : FitPeer) (role : PeerRoleType) : Bool :=
  role != learner || p.peer.role == .learner

end FitPeer

/-- `MatchLabelConstraints`, which a nil container never matches. -/
def matchOptLabelConstraints (container : Option ContainerLabels) (constraints : List LabelConstraint) : Bool :=
  match container with
  | some labels => matchLabelConstraints labels constraints
  | none => false

/-- `CachedContainer.CompareLocation`: the first of `labels` that both
containers set to values that differ, `-1` when there is none. -/
def compareLocation (a b : ContainerLabels) (labels : List String) : Int :=
  match labels.findIdx? fun key =>
      getLabelValue a key != "" && getLabelValue b key != "" && !equalFold (getLabelValue a key) (getLabelValue b key) with
  | some i => i
  | none => -1

/-- `replicaBaseScore`. -/
def replicaBaseScore : ℚ := 100

/-- One pair of the loop of `isolationScore`. A selected peer matched label
constraints, so its container is known. -/
def addLocationScore (labels : List String) (p1 p2 : FitPeer) (score : ℚ) : ℚ :=
  let index := compareLocation (p1.container.getD []) (p2.container.getD []) labels
  if index ≠ -1 then Binary64.add score (Binary64.round (replicaBaseScore ^ (labels.length - index.toNat - 1)))
  else score

/-- The two loops of `isolationScore`, over each peer and the peers after it. -/
def isolationScoreLoop (labels : List String) : List FitPeer → ℚ → ℚ
  | [], score => score
  | p1 :: rest, score => isolationScoreLoop labels rest (rest.foldl (fun score p2 => addLocationScore labels p1 p2 score) score)

/-- `isolationScore`. -/
def isolationScore (peers : List FitPeer) (labels : List String) : ℚ :=
  if labels.length = 0 ∨ peers.length ≤ 1 then 0 else isolationScoreLoop labels peers 0

/-- `newRuleFit`. -/
def newRuleFit (rule : Rule) (peers : List FitPeer) : RuleFit where
  rule := rule
  peers := peers.map (·.peer)
  peersWithDifferentRole := (peers.filter fun p => !p.matchRoleStrict rule.role).map (·.peer)
  isolationScore := isolationScore peers rule.locationLabels

/-- `fitWorker`. -/
structure FitWorker where
  containers : List ContainerLabels
  bestFit : ResourceFit
  peers : List FitPeer
  rules : List Rule
  deriving DecidableEq, Repr

/-- The rule fits from `i` on set to nil. -/
def resetFrom (i : Nat) (fits : List (Option RuleFit)) : List (Option RuleFit) :=
  fits.take i ++ List.replicate (fits.length - i) none

namespace FitWorker

/-- `updateOrphanPeers`, where `selected` holds the flagged peers. -/
def updateOrphanPeers (w : FitWorker) (selected : List FitPeer) (index : Nat) : FitWorker :=
  if index ≠ w.rules.length then w
  else { w with bestFit.orphanPeers := (w.peers.filter fun p => p ∉ selected).map (·.peer) }

/-- `compareBest` of the peers `selected` for the rule `rule` at `index`,
where `path` holds the peers selected for the rules before it and `next` is
`fitRule(index + 1)`. -/
def compareBest (w : FitWorker) (next : FitWorker → List FitPeer → FitWorker × Bool)
    (path selected : List FitPeer) (index : Nat) (rule : Rule) : FitWorker × Bool :=
  let rf := newRuleFit rule selected
  let cmp : Int :=
    match w.bestFit.ruleFits[index]? with
    | some (some best) => compareRuleFit rf best
    | _ => 1
  if cmp = 1 then
    let w := { w with bestFit.ruleFits := resetFrom (index + 1) (w.bestFit.ruleFits.set index (some rf)) }
    let (w, _) := next w (path ++ selected)
    (w.updateOrphanPeers (path ++ selected) (index + 1), true)
  else if cmp = 0 then
    let (w, better) := next w (path ++ selected)
    if better then ({ w with bestFit.ruleFits := w.bestFit.ruleFits.set index (some rf) }, true)
    else (w, false)
  else (w, false)

end FitWorker

/-- `enumPeers`, with `cb` the `compareBest` of a full selection. The first
iteration of the loop selects the first candidate and recurses on the rest;
the later iterations are the loop over the rest with the same selection. -/
def enumPeers (cb : FitWorker → List FitPeer → FitWorker × Bool) (count : Int) :
    FitWorker → List FitPeer → List FitPeer → FitWorker × Bool
  | w, candidates, selected =>
    if (selected.length : Int) = count then cb w selected
    else
      match candidates with
      | [] => (w, false)
      | p :: rest =>
        let (w, b) := enumPeers cb count w rest (selected ++ [p])
        let (w, b') := enumPeers cb count w rest selected
        (w, b' || b)

namespace FitWorker

/-- The candidates of `fitRule` for `rule`: the peers matching its label
constraints and loose role and not selected, when some container matches the
constraints at all. -/
def candidates (w : FitWorker) (path : List FitPeer) (rule : Rule) : List FitPeer :=
  if checkRule rule w.containers then
    w.peers.filter fun p =>
      matchOptLabelConstraints p.container rule.labelConstraints && p.matchRoleLoose rule.role && decide (p ∉ path)
  else []

/-- `fitRule` at `index`, where `path` holds the peers selected for the rules
before it. `k` counts the rules from `index` on: the Go recursion ends at
`len(w.rules)`, where `k` runs out. -/
def fitRule : Nat → FitWorker → List FitPeer → Nat → FitWorker × Bool
  | 0, w, _, _ => (w, false)
  | k + 1, w, path, index =>
    match w.rules[index]? with
    | none => (w, false)
    | some rule =>
      enumPeers (fun w selected => w.compareBest (fun w path => fitRule k w path (index + 1)) path selected index rule)
        (min rule.count (w.candidates path rule).length) w (w.candidates path rule) []

/-- `fitWorker.run`. -/
def run (w : FitWorker) : FitWorker :=
  let (w, _) := w.fitRule w.rules.length [] 0
  w.updateOrphanPeers [] 0

end FitWorker

/-- A `ContainerSet`: the containers of the cluster, each with its ID. -/
abbrev ContainerSet := List (UInt64 × ContainerLabels)

/-- `ContainerSet.GetContainer`. -/
def getContainer (containers : ContainerSet) (id : UInt64) : Option ContainerLabels :=
  (containers.find? (·.1 == id)).map (·.2)

/-- `newFitWorker`: the peers sorted by ID, and one nil rule fit per rule. -/
def newFitWorker (containers : ContainerSet) (res : CachedResource) (rules : List Rule) : FitWorker where
  containers := containers.map (·.2)
  bestFit := ⟨List.replicate rules.length none, []⟩
  peers := (res.meta_.peers.map fun p => ⟨p, getContainer containers p.containerID, (res.leader.getD {}).id == p.id⟩).mergeSort
    fun a b => decide (a.peer.id ≤ b.peer.id)
  rules := rules

/-- `FitResource`. -/
def fitResource (containers : ContainerSet) (res : CachedResource) (rules : List Rule) : ResourceFit :=
  (newFitWorker containers res rules).run.bestFit

end MatrixCube.Prophet.Placement
