import MatrixCube.Lib.ByteOrder

/-! # Placement rules

`rule.go` and `label_constraint.go` of the placement package. A rule asks for
`Count` peers of one role for the resources of the key range
`[StartKey, EndKey)`, an empty `EndKey` standing for +∞, on the containers its
label constraints select. Rules apply in the order of the tuple
`(groupIndex, GroupID, Index, ID)`, which `compareRule` compares and which is
the lexicographic order on that tuple; `prepareRulesForApply` then drops the
rules that an overriding rule, or an overriding group, disables.

Roles and label operators are string types in Go, so they are strings here and
`validateRole`/`validateOp` say which strings are meant. A rule's `group` is
the runtime pointer to its group, as a value.
-/

namespace MatrixCube.Prophet.Placement

/-- `PeerRoleType`. -/
abbrev PeerRoleType := String

/-- `Voter`: a leader or a follower. -/
def voter : PeerRoleType := "voter"
/-- `Leader`. -/
def leader : PeerRoleType := "leader"
/-- `Follower`. -/
def follower : PeerRoleType := "follower"
/-- `Learner`. -/
def learner : PeerRoleType := "learner"

/-- `validateRole`. -/
def validateRole (s : PeerRoleType) : Bool :=
  s == voter || s == leader || s == follower || s == learner

/-- `LabelConstraintOp`. -/
abbrev LabelConstraintOp := String

/-- `In`: the label is set to one of the values. -/
def opIn : LabelConstraintOp := "in"
/-- `NotIn`: the label is unset or set to none of the values. -/
def opNotIn : LabelConstraintOp := "notIn"
/-- `Exists`. -/
def opExists : LabelConstraintOp := "exists"
/-- `NotExists`. -/
def opNotExists : LabelConstraintOp := "notExists"

/-- `validateOp`. -/
def validateOp (op : LabelConstraintOp) : Bool :=
  op == opIn || op == opNotIn || op == opExists || op == opNotExists

/-- `LabelConstraint`. -/
structure LabelConstraint where
  key : String := ""
  op : LabelConstraintOp := ""
  values : List String := []
  deriving DecidableEq, Repr

/-- The labels of a container, `container.Meta.Labels()`, as key/value pairs. -/
abbrev ContainerLabels := List (String × String)

/-- `strings.EqualFold`, for the ASCII letters `String.toLower` folds. -/
def equalFold (a b : String) : Bool := a.toLower == b.toLower

/-- `CachedContainer.GetLabelValue`: the first label whose key equals `key` up
to case, `""` when there is none. -/
def getLabelValue (labels : ContainerLabels) (key : String) : String :=
  match labels.find? (fun l => equalFold l.1 key) with
  | some l => l.2
  | none => ""

/-- `LabelConstraint.MatchContainer`. -/
def LabelConstraint.matchContainer (c : LabelConstraint) (labels : ContainerLabels) : Bool :=
  if c.op = opIn then
    let label := getLabelValue labels c.key
    label != "" && c.values.any (· == label)
  else if c.op = opNotIn then
    let label := getLabelValue labels c.key
    label == "" || !c.values.any (· == label)
  else if c.op = opExists then getLabelValue labels c.key != ""
  else if c.op = opNotExists then getLabelValue labels c.key == ""
  else false

/-- `legacyExclusiveLabels`. -/
def legacyExclusiveLabels : List String := ["engine", "exclusive"]

/-- `isExclusiveLabel`; `strings.HasPrefix` compares the characters. -/
def isExclusiveLabel (key : String) : Bool :=
  "$".toList.isPrefixOf key.toList || legacyExclusiveLabels.any (· == key)

/-- `MatchLabelConstraints` on a non-nil container: an exclusive label of the
container must be named by a constraint, and every constraint must match. -/
def matchLabelConstraints (labels : ContainerLabels) (constraints : List LabelConstraint) : Bool :=
  labels.all (fun l => !(isExclusiveLabel l.1 && constraints.all fun c => c.key != l.1)) &&
    constraints.all fun c => c.matchContainer labels

/-- `RuleGroup`. -/
structure RuleGroup where
  id : String := ""
  index : Int := 0
  override : Bool := false
  deriving DecidableEq, Repr, Inhabited

/-- `RuleGroup.isDefault`. -/
def RuleGroup.isDefault (g : RuleGroup) : Bool := g.index == 0 && !g.override

/-- `Rule`. `startKey`/`endKey` are decoded from the hex fields by
`adjustRule`; `group` is set at runtime only and is not part of the JSON. -/
structure Rule where
  groupID : String := ""
  id : String := ""
  index : Int := 0
  override : Bool := false
  startKey : Bytes := []
  startKeyHex : String := ""
  endKey : Bytes := []
  endKeyHex : String := ""
  role : PeerRoleType := ""
  count : Int := 0
  labelConstraints : List LabelConstraint := []
  locationLabels : List String := []
  isolationLevel : String := ""
  group : Option RuleGroup := none
  deriving DecidableEq, Repr, Inhabited

/-- `Rule.Key`: `(GroupID, ID)`, unique among the rules of a configuration. -/
def Rule.key (r : Rule) : String × String := (r.groupID, r.id)

/-- `Rule.groupIndex`. -/
def Rule.groupIndex (r : Rule) : Int :=
  match r.group with
  | some g => g.index
  | none => 0

/-- `checkRule`: some container matches the rule's label constraints. -/
def checkRule (rule : Rule) (containers : List ContainerLabels) : Bool :=
  containers.any fun c => matchLabelConstraints c rule.labelConstraints

/-! ## The apply order -/

/-- `compareRule`. -/
def compareRule (a b : Rule) : Int :=
  if a.groupIndex < b.groupIndex then -1
  else if a.groupIndex > b.groupIndex then 1
  else if a.groupID < b.groupID then -1
  else if a.groupID > b.groupID then 1
  else if a.index < b.index then -1
  else if a.index > b.index then 1
  else if a.id < b.id then -1
  else if a.id > b.id then 1
  else 0

/-- The tuple `compareRule` compares, under the lexicographic order. -/
def Rule.orderKey (r : Rule) : Int ×ₗ String ×ₗ Int ×ₗ String :=
  toLex (r.groupIndex, toLex (r.groupID, toLex (r.index, r.id)))

theorem compareRule_neg_iff (a b : Rule) : compareRule a b < 0 ↔ a.orderKey < b.orderKey := by
  unfold compareRule Rule.orderKey
  simp only [Prod.Lex.toLex_lt_toLex]
  split_ifs <;> grind

theorem compareRule_pos_iff (a b : Rule) : 0 < compareRule a b ↔ b.orderKey < a.orderKey := by
  unfold compareRule Rule.orderKey
  simp only [Prod.Lex.toLex_lt_toLex]
  split_ifs <;> grind

/-- Rules with different keys are never tied in the apply order. -/
theorem orderKey_ne_of_key_ne {a b : Rule} (h : a.key ≠ b.key) : a.orderKey ≠ b.orderKey := by
  intro heq
  simp only [Rule.orderKey, toLex_inj, Prod.mk.injEq] at heq
  exact h (by simp [Rule.key, heq])

/-- `sortRules`. Go's `sort.Slice` is not stable, but among rules of distinct
keys `compareRule` is a strict total order, so every sort gives this list. -/
def sortRules (rules : List Rule) : List Rule :=
  rules.insertionSort fun a b => compareRule a b < 0

/-! ## Override -/

/-- One round `i` of the loop of `prepareRulesForApply`, on the kept rules
`res` and the start `j` of the current run. -/
def prepareStep (rules : List Rule) (acc : List Rule × Nat) (i : Nat) : List Rule × Nat :=
  let (res, j) := acc
  let ri := rules.getD i default
  let (res, j) :=
    if (rules.getD j default).groupID ≠ ri.groupID then
      -- a new group: it overrides every earlier group, or the last run is kept
      (if ri.group.any (·.override) then [] else res ++ (rules.drop j).take (i - j), i)
    else (res, j)
  -- an overriding rule drops the earlier rules of its group
  (res, if ri.override then i else j)

/-- `prepareRulesForApply`, on rules sorted by `compareRule`. -/
def prepareRulesForApply (rules : List Rule) : List Rule :=
  let (res, j) := (List.range' 1 (rules.length - 1)).foldl (prepareStep rules) ([], 0)
  res ++ rules.drop j

-- The example of the source's comment: group "3" overrides group "2", and
-- rule "2" overrides rule "1" in group "4".
example :
    let ruleA : Rule := { groupID := "4", id := "2", override := true, group := some { id := "4" } }
    let ruleB : Rule := { groupID := "4", id := "1", override := true, group := some { id := "4" } }
    let ruleC : Rule := { groupID := "3", group := some { id := "3", override := true } }
    let ruleD : Rule := { groupID := "2", group := some { id := "2" } }
    prepareRulesForApply (sortRules [ruleA, ruleB, ruleC, ruleD]) = [ruleC, ruleA] := by
  decide

end MatrixCube.Prophet.Placement
