import MatrixCube.Prophet.Placement.RuleList

/-! # The rule manager

`config.go` and `rule_manager.go`: the committed configuration (`ruleConfig`,
rules keyed by `Rule.Key` and groups keyed by id) and the `ruleList` built
from it. Every update stages its changes in a `ruleConfigPatch` and hands it to
`tryCommitPatch`, which attaches each rule to its group (`adjust`), builds the
new rule list, drops the no-op changes (`trim`), saves the changes and only
then merges them into the configuration (`commit`).

`adjust` attaches groups by writing `r.group` on the rule objects, and the
rules of the configuration that the patch leaves alone are those objects
themselves. A patch that then fails in `buildRuleList` or in storage has
already re-attached committed rules to the patch's groups, so a failed
`SetRuleGroup` changes the apply order `GetAllRules` reports.

A Go map is the list of its values here, one per key: the configuration's
rules are keyed by `Rule.key`, as every writer of the map keys them. The
storage and the regular-expression compiler are outside the model; the
environment says which saves succeed and what a pattern matches.
-/

namespace MatrixCube.Prophet.Placement

/-! ## Keyed lists -/

/-- A map write `m[key x] = x` on a map kept as the list of its values. -/
def upsert {α K : Type*} [DecidableEq K] (key : α → K) (x : α) (xs : List α) : List α :=
  x :: xs.filter fun y => key y ≠ key x

/-- `delete(m, k)`. -/
def eraseKey {α K : Type*} [DecidableEq K] (key : α → K) (k : K) (xs : List α) : List α :=
  xs.filter fun y => key y ≠ k

/-! ## Configuration -/

/-- `ruleConfig`. -/
structure RuleConfig where
  rules : List Rule := []
  groups : List RuleGroup := []
  deriving DecidableEq, Repr

/-- `ruleConfig.getRule`. -/
def RuleConfig.getRule (c : RuleConfig) (key : String × String) : Option Rule :=
  c.rules.find? fun r => r.key = key

/-- `ruleConfig.getGroup`: a missing group is the default group of that id. -/
def RuleConfig.getGroup (c : RuleConfig) (id : String) : RuleGroup :=
  (c.groups.find? fun g => g.id = id).getD { id }

/-- `ruleConfig.adjust`: drop the default groups, then attach every rule to
its group, re-creating the default group of a rule's group id where none is
left. -/
def RuleConfig.adjust (c : RuleConfig) : RuleConfig :=
  let groups := c.groups.filter fun g => !g.isDefault
  let groups := c.rules.foldl (fun gs r =>
    if gs.any (·.id == r.groupID) then gs else gs ++ [{ id := r.groupID }]) groups
  { rules := c.rules.map fun r => { r with group := groups.find? (·.id == r.groupID) }, groups }

/-- `ruleConfigPatch`: the configuration it updates and the staged rules and
groups, a staged `none` deleting the rule of its key. -/
structure RuleConfigPatch where
  c : RuleConfig
  mutRules : List ((String × String) × Option Rule) := []
  mutGroups : List RuleGroup := []
  deriving DecidableEq, Repr

/-- `ruleConfig.beginPatch`. -/
def RuleConfig.beginPatch (c : RuleConfig) : RuleConfigPatch := { c }

@[simp] theorem RuleConfig.beginPatch_c (c : RuleConfig) : c.beginPatch.c = c := rfl

namespace RuleConfigPatch

/-- `ruleConfigPatch.setRule`. -/
def setRule (p : RuleConfigPatch) (r : Rule) : RuleConfigPatch :=
  { p with mutRules := upsert Prod.fst (r.key, some r) p.mutRules }

/-- `ruleConfigPatch.deleteRule`. -/
def deleteRule (p : RuleConfigPatch) (group id : String) : RuleConfigPatch :=
  { p with mutRules := upsert Prod.fst ((group, id), none) p.mutRules }

/-- `ruleConfigPatch.getGroup`: the staged group, else the committed one, else
the default group. -/
def getGroup (p : RuleConfigPatch) (id : String) : RuleGroup :=
  match p.mutGroups.find? fun g => g.id = id with
  | some g => g
  | none => p.c.getGroup id

/-- `ruleConfigPatch.setGroup`. -/
def setGroup (p : RuleConfigPatch) (g : RuleGroup) : RuleConfigPatch :=
  { p with mutGroups := upsert RuleGroup.id g p.mutGroups }

/-- `ruleConfigPatch.deleteGroup`: stage the default group of that id. -/
def deleteGroup (p : RuleConfigPatch) (id : String) : RuleConfigPatch :=
  p.setGroup { id }

/-- The keys the patch stages a rule or a deletion for. -/
def mutKeys (p : RuleConfigPatch) : List (String × String) :=
  p.mutRules.map Prod.fst

/-- `ruleConfigPatch.iterateRules`: the staged rules, then the committed rules
the patch does not overwrite. -/
def iterateRules (p : RuleConfigPatch) : List Rule :=
  p.mutRules.filterMap Prod.snd ++ p.c.rules.filter fun r => r.key ∉ p.mutKeys

/-- `ruleConfigPatch.adjust`: every rule `iterateRules` visits is attached to
the patch's group of its id, the committed ones in place. -/
def adjust (p : RuleConfigPatch) : RuleConfigPatch :=
  let attach (r : Rule) : Rule := { r with group := some (p.getGroup r.groupID) }
  { p with
    mutRules := p.mutRules.map fun e => (e.1, e.2.map attach)
    c := { p.c with rules := p.c.rules.map fun r => if r.key ∈ p.mutKeys then r else attach r } }

end RuleConfigPatch

/-- A rule as `json.Marshal` writes it, which is what `jsonEquals` compares:
without the runtime group and the decoded keys. -/
def Rule.json (r : Rule) : Rule :=
  { r with group := none, startKey := [], endKey := [] }

namespace RuleConfigPatch

/-- `ruleConfigPatch.trim`: drop the staged rules and groups equal to the
committed ones. -/
def trim (p : RuleConfigPatch) : RuleConfigPatch :=
  { p with
    mutRules := p.mutRules.filter fun e => e.2.map Rule.json ≠ (p.c.getRule e.1).map Rule.json
    mutGroups := p.mutGroups.filter fun g => g ≠ p.c.getGroup g.id }

/-- `ruleConfigPatch.commit`: merge the staged changes, then `adjust`. -/
def commit (p : RuleConfigPatch) : RuleConfig :=
  let rules := p.mutRules.foldl (fun rs e =>
    match e.2 with
    | none => eraseKey Rule.key e.1 rs
    | some r => upsert Rule.key r rs) p.c.rules
  let groups := p.mutGroups.foldl (fun gs g => upsert RuleGroup.id g gs) p.c.groups
  RuleConfig.adjust { rules, groups }

@[simp] theorem setRule_c (p : RuleConfigPatch) (r : Rule) : (p.setRule r).c = p.c := rfl
@[simp] theorem deleteRule_c (p : RuleConfigPatch) (g i : String) : (p.deleteRule g i).c = p.c := rfl
@[simp] theorem setGroup_c (p : RuleConfigPatch) (g : RuleGroup) : (p.setGroup g).c = p.c := rfl
@[simp] theorem deleteGroup_c (p : RuleConfigPatch) (i : String) : (p.deleteGroup i).c = p.c := rfl

/-- `adjust` changes the committed configuration in the groups its rules are
attached to only. -/
theorem adjust_c (p : RuleConfigPatch) :
    p.adjust.c.groups = p.c.groups ∧ p.adjust.c.rules.map Rule.json = p.c.rules.map Rule.json := by
  refine ⟨rfl, ?_⟩
  simp only [adjust, List.map_map]
  apply List.map_congr_left
  intro r _
  show Rule.json (if r.key ∈ p.mutKeys then r else _) = Rule.json r
  split <;> rfl

end RuleConfigPatch

/-! ## Validation -/

/-- One digit of `hex.DecodeString`. -/
def fromHexChar (c : Char) : Option UInt8 :=
  if '0' ≤ c ∧ c ≤ '9' then some (c.toNat - '0'.toNat).toUInt8
  else if 'a' ≤ c ∧ c ≤ 'f' then some (c.toNat - 'a'.toNat + 10).toUInt8
  else if 'A' ≤ c ∧ c ≤ 'F' then some (c.toNat - 'A'.toNat + 10).toUInt8
  else none

/-- `hex.DecodeString` on the characters of a string: pairs of digits, an odd
digit left over failing. -/
def hexDecode : List Char → Option Bytes
  | [] => some []
  | [_] => none
  | a :: b :: cs => do
    let hi ← fromHexChar a
    let lo ← fromHexChar b
    let rest ← hexDecode cs
    pure ((hi * 16 + lo) :: rest)

/-- `hex.DecodeString`. -/
def hexDecodeString (s : String) : Option Bytes := hexDecode s.toList

example : hexDecodeString "0aFf" = some [10, 255] := by decide

/-- The errors of `adjustRule`, with the values their texts print. -/
inductive AdjustRuleError where
  /-- an error of `hex.DecodeString` -/
  | invalidHex
  /-- `endKey <StartKeyHex> should be greater than startKey <EndKeyHex>`: the
  source prints the two keys in this swapped order -/
  | endKeyNotGreater (startKeyHex endKeyHex : String)
  /-- `rule group <GroupID> does not match group ID <groupID>` -/
  | groupMismatch (ruleGroupID groupID : String)
  /-- `group ID should not be empty` -/
  | emptyGroupID
  /-- `ID should not be empty` -/
  | emptyID
  /-- `invalid role <Role>` -/
  | invalidRole (role : PeerRoleType)
  /-- `invalid count <Count>` -/
  | invalidCount (count : Int)
  /-- `define multiple leaders by count <Count>` -/
  | multipleLeaders (count : Int)
  /-- `invalid op <Op>` -/
  | invalidOp (op : LabelConstraintOp)
  /-- `rule '<ID>' from rule group '<GroupID>' can not match any container` -/
  | noMatchingContainer (id groupID : String)
  deriving DecidableEq, Repr

/-- The group id a bundle imposes on its rules, when `adjustRule` is given one. -/
def imposeGroupID (r : Rule) (groupID : String) : Except AdjustRuleError Rule :=
  if groupID ≠ "" then
    if r.groupID = "" then .ok { r with groupID }
    else if groupID ≠ r.groupID then .error (.groupMismatch r.groupID groupID)
    else .ok r
  else .ok r

/-- The field checks of `adjustRule`, in its order: the first that fails. The
containers are those of the informer, none when it is nil; the loop over the
label constraints stops at the first invalid op. -/
def ruleFieldError (containers : List ContainerLabels) (r : Rule) : Option AdjustRuleError :=
  if r.groupID = "" then some .emptyGroupID
  else if r.id = "" then some .emptyID
  else if !validateRole r.role then some (.invalidRole r.role)
  else if r.count ≤ 0 then some (.invalidCount r.count)
  else if r.role = leader ∧ r.count > 1 then some (.multipleLeaders r.count)
  else match r.labelConstraints.find? fun c => !validateOp c.op with
    | some c => some (.invalidOp c.op)
    | none =>
      if containers.length > 0 ∧ !checkRule r containers then
        some (.noMatchingContainer r.id r.groupID)
      else none

/-- `RuleManager.adjustRule`: decode the keys, check that the range is not
empty, impose the bundle's group id, check the fields. -/
def adjustRule (containers : List ContainerLabels) (r : Rule) (groupID : String) :
    Except AdjustRuleError Rule :=
  match hexDecodeString r.startKeyHex, hexDecodeString r.endKeyHex with
  | none, _ => .error .invalidHex
  | some _, none => .error .invalidHex
  | some startKey, some endKey =>
    if endKey.length > 0 ∧ endKey ≤ startKey then
      .error (.endKeyNotGreater r.startKeyHex r.endKeyHex)
    else
      match imposeGroupID { r with startKey, endKey } groupID with
      | .error e => .error e
      | .ok r =>
        match ruleFieldError containers r with
        | some e => .error e
        | none => .ok r

theorem imposeGroupID_keys {r r' : Rule} {groupID : String} (h : imposeGroupID r groupID = .ok r') :
    r'.startKey = r.startKey ∧ r'.endKey = r.endKey := by
  unfold imposeGroupID at h
  split_ifs at h <;> cases h <;> exact ⟨rfl, rfl⟩

/-- A rule `adjustRule` accepts has an empty end key or one above its start
key: the ranges `buildRuleList` assumes. -/
theorem adjustRule_range {containers : List ContainerLabels} {r r' : Rule} {groupID : String}
    (h : adjustRule containers r groupID = .ok r') : r'.endKey = [] ∨ r'.startKey < r'.endKey := by
  unfold adjustRule at h
  split at h
  · cases h
  · cases h
  · rename_i startKey endKey _ _
    split_ifs at h with hlt
    split at h
    · cases h
    · rename_i r₁ h₁
      split at h
      · cases h
      · cases h
        obtain ⟨hs, he⟩ := imposeGroupID_keys h₁
        rw [hs, he]
        by_cases hnil : endKey = []
        · exact .inl hnil
        · exact .inr (lt_of_not_ge fun hle => hlt ⟨List.length_pos_iff.mpr hnil, hle⟩)

/-! ## Updates -/

/-- `RuleOpType`. -/
abbrev RuleOpType := String

/-- `RuleOpAdd`. -/
def ruleOpAdd : RuleOpType := "add"
/-- `RuleOpDel`. -/
def ruleOpDel : RuleOpType := "del"

/-- `RuleOp`: the rule to add, or whose group and id (or id prefix) to delete. -/
structure RuleOp where
  rule : Rule
  action : RuleOpType
  deleteByIDPrefix : Bool := false
  deriving DecidableEq, Repr

/-- `GroupBundle`. -/
structure GroupBundle where
  id : String
  index : Int := 0
  override : Bool := false
  rules : List Rule := []
  deriving DecidableEq, Repr

/-- The errors an update returns. -/
inductive RuleManagerError where
  | adjustRule (e : AdjustRuleError)
  | buildRuleList (e : RuleListError)
  /-- an error of the storage in `savePatch` -/
  | storage
  /-- an error of `regexp.Compile` -/
  | regexp
  deriving DecidableEq, Repr

/-- `RuleManager`, its mutex apart: each update runs under the lock. -/
structure RuleManager where
  ruleConfig : RuleConfig := {}
  ruleList : RuleList := {}
  deriving DecidableEq, Repr

/-- What the rule manager calls outside the package: the containers of the
informer, whether `savePatch` stores a set of changes, and `regexp.Compile`. -/
structure RuleManagerEnv where
  containers : List ContainerLabels := []
  savePatch : List ((String × String) × Option Rule) → List RuleGroup → Bool := fun _ _ => true
  compileRegexp : String → Option (String → Bool) := fun _ => none

namespace RuleManager

variable (env : RuleManagerEnv) (m : RuleManager)

/-- `RuleManager.tryCommitPatch`, on a patch of `m.ruleConfig`. -/
def tryCommitPatch (p : RuleConfigPatch) : RuleManager × Option RuleManagerError :=
  let p := p.adjust
  -- the committed rules `adjust` wrote to are the manager's own
  let m := { m with ruleConfig := p.c }
  match buildRuleList p.iterateRules with
  | .error e => (m, some (.buildRuleList e))
  | .ok ruleList =>
    let p := p.trim
    if env.savePatch p.mutRules p.mutGroups then ({ ruleConfig := p.commit, ruleList }, none)
    else (m, some .storage)

/-- Adjust the rules of a bundle or a batch and stage them, stopping at the
first rule `adjustRule` rejects. -/
def stageRules (groupID : String) (p : RuleConfigPatch) (rules : List Rule) :
    Except AdjustRuleError RuleConfigPatch :=
  rules.foldlM (fun p r => (adjustRule env.containers r groupID).map p.setRule) p

/-- `RuleManager.SetRule`. -/
def setRule (rule : Rule) : RuleManager × Option RuleManagerError :=
  match adjustRule env.containers rule "" with
  | .error e => (m, some (.adjustRule e))
  | .ok rule => m.tryCommitPatch env (m.ruleConfig.beginPatch.setRule rule)

/-- `RuleManager.SetRules`. -/
def setRules (rules : List Rule) : RuleManager × Option RuleManagerError :=
  match stageRules env "" m.ruleConfig.beginPatch rules with
  | .error e => (m, some (.adjustRule e))
  | .ok p => m.tryCommitPatch env p

/-- `RuleManager.DeleteRule`. -/
def deleteRule (group id : String) : RuleManager × Option RuleManagerError :=
  m.tryCommitPatch env (m.ruleConfig.beginPatch.deleteRule group id)

/-- The second loop of `RuleManager.Batch`, over operations whose rules to add
are adjusted already. -/
def batchPatch (todo : List RuleOp) : RuleConfigPatch :=
  todo.foldl (fun p t =>
    if t.action = ruleOpAdd then p.setRule t.rule
    else if t.action = ruleOpDel then
      if !t.deleteByIDPrefix then p.deleteRule t.rule.groupID t.rule.id
      else m.ruleConfig.rules.foldl (fun p r =>
        if r.groupID = t.rule.groupID ∧ t.rule.id.toList.isPrefixOf r.id.toList then
          p.deleteRule r.groupID r.id
        else p) p
    else p) m.ruleConfig.beginPatch

/-- `RuleManager.Batch`: the rules to add are adjusted before the lock is
taken, in place. -/
def batch (todo : List RuleOp) : RuleManager × Option RuleManagerError :=
  match todo.mapM (fun t =>
      if t.action = ruleOpAdd then (adjustRule env.containers t.rule "").map fun r => { t with rule := r }
      else .ok t) with
  | .error e => (m, some (.adjustRule e))
  | .ok todo => m.tryCommitPatch env (m.batchPatch todo)

/-- `RuleManager.SetRuleGroup`. -/
def setRuleGroup (group : RuleGroup) : RuleManager × Option RuleManagerError :=
  m.tryCommitPatch env (m.ruleConfig.beginPatch.setGroup group)

/-- `RuleManager.DeleteRuleGroup`. -/
def deleteRuleGroup (id : String) : RuleManager × Option RuleManagerError :=
  m.tryCommitPatch env (m.ruleConfig.beginPatch.deleteGroup id)

/-- Stage each bundle's group and its adjusted rules. -/
def stageBundles (p : RuleConfigPatch) (groups : List GroupBundle) :
    Except AdjustRuleError RuleConfigPatch :=
  groups.foldlM (fun p g =>
    stageRules env g.id (p.setGroup { id := g.id, index := g.index, override := g.override }) g.rules) p

/-- `RuleManager.SetAllGroupBundles`. -/
def setAllGroupBundles (groups : List GroupBundle) (override : Bool) :
    RuleManager × Option RuleManagerError :=
  let matchID (a : String) : Bool := groups.any fun g => g.id = a
  let p := m.ruleConfig.rules.foldl (fun p r =>
    if override || matchID r.groupID then p.deleteRule r.groupID r.id else p) m.ruleConfig.beginPatch
  let p := m.ruleConfig.groups.foldl (fun p g =>
    if override || matchID g.id then p.deleteGroup g.id else p) p
  match stageBundles env p groups with
  | .error e => (m, some (.adjustRule e))
  | .ok p => m.tryCommitPatch env p

/-- `RuleManager.SetGroupBundle`. -/
def setGroupBundle (group : GroupBundle) : RuleManager × Option RuleManagerError :=
  let p := if m.ruleConfig.groups.any (·.id = group.id) then
      m.ruleConfig.rules.foldl (fun p r =>
        if r.groupID = group.id then p.deleteRule r.groupID r.id else p) m.ruleConfig.beginPatch
    else m.ruleConfig.beginPatch
  match stageBundles env p [group] with
  | .error e => (m, some (.adjustRule e))
  | .ok p => m.tryCommitPatch env p

/-- `RuleManager.DeleteGroupBundle`. -/
def deleteGroupBundle (id : String) (regex : Bool) : RuleManager × Option RuleManagerError :=
  let matchID : Option (String → Bool) := if regex then env.compileRegexp id else some (· = id)
  match matchID with
  | none => (m, some .regexp)
  | some matchID =>
    let p := m.ruleConfig.rules.foldl (fun p r =>
      if matchID r.groupID then p.deleteRule r.groupID r.id else p) m.ruleConfig.beginPatch
    let p := m.ruleConfig.groups.foldl (fun p g =>
      if matchID g.id then p.deleteGroup g.id else p) p
    m.tryCommitPatch env p

/-- `RuleManager.GetAllRules`. -/
def getAllRules : List Rule := sortRules m.ruleConfig.rules

/-- `RuleManager.GetRuleGroups`. -/
def getRuleGroups : List RuleGroup :=
  m.ruleConfig.groups.insertionSort fun a b => a.index < b.index ∨ a.index = b.index ∧ a.id < b.id

end RuleManager

/-- The updates of the rule manager. -/
inductive RuleManagerCall where
  | setRule (rule : Rule)
  | setRules (rules : List Rule)
  | deleteRule (group id : String)
  | batch (todo : List RuleOp)
  | setRuleGroup (group : RuleGroup)
  | deleteRuleGroup (id : String)
  | setAllGroupBundles (groups : List GroupBundle) (override : Bool)
  | setGroupBundle (group : GroupBundle)
  | deleteGroupBundle (id : String) (regex : Bool)
  deriving DecidableEq, Repr

/-- Run one update. -/
def RuleManager.call (env : RuleManagerEnv) (m : RuleManager) :
    RuleManagerCall → RuleManager × Option RuleManagerError
  | .setRule rule => m.setRule env rule
  | .setRules rules => m.setRules env rules
  | .deleteRule group id => m.deleteRule env group id
  | .batch todo => m.batch env todo
  | .setRuleGroup group => m.setRuleGroup env group
  | .deleteRuleGroup id => m.deleteRuleGroup env id
  | .setAllGroupBundles groups override => m.setAllGroupBundles env groups override
  | .setGroupBundle group => m.setGroupBundle env group
  | .deleteGroupBundle id regex => m.deleteGroupBundle env id regex

/-! ## Failed updates -/

namespace RuleManager

variable {env : RuleManagerEnv} {m : RuleManager}

/-- A failed commit leaves the manager with the configuration `adjust` wrote to. -/
theorem tryCommitPatch_error {p : RuleConfigPatch} {e : RuleManagerError}
    (h : (m.tryCommitPatch env p).2 = some e) :
    (m.tryCommitPatch env p).1 = { m with ruleConfig := p.adjust.c } := by
  unfold tryCommitPatch at h ⊢
  dsimp only at h ⊢
  split at h
  · rfl
  · split_ifs at h ⊢
    rfl

/-- A fold of patch updates that keep the configuration keeps it. -/
theorem foldl_c {α : Type*} {f : RuleConfigPatch → α → RuleConfigPatch}
    (hf : ∀ p x, (f p x).c = p.c) : ∀ (xs : List α) (p : RuleConfigPatch), (xs.foldl f p).c = p.c
  | [], _ => rfl
  | x :: xs, p => by rw [List.foldl_cons, foldl_c hf xs, hf]

/-- A property of the accumulator kept by every step that succeeds holds after
an `Except` fold that succeeds. -/
theorem foldlM_ok_invariant {α β ε : Type*} {f : β → α → Except ε β} (P : β → Prop)
    (hf : ∀ b a b', P b → f b a = .ok b' → P b') :
    ∀ {l : List α} {b r : β}, P b → l.foldlM f b = .ok r → P r
  | [], _, _, hb, h => by cases h; exact hb
  | a :: l, b, r, hb, h => by
    rw [List.foldlM_cons] at h
    cases ha : f b a with
    | error e => rw [ha] at h; cases h
    | ok b' =>
      rw [ha] at h
      exact foldlM_ok_invariant P hf (hf b a b' hb ha) h

theorem stageRules_c {groupID : String} {rules : List Rule} {p p' : RuleConfigPatch}
    (h : stageRules env groupID p rules = .ok p') : p'.c = p.c := by
  refine foldlM_ok_invariant (fun q => q.c = p.c) (fun q r q' hq hr => ?_) rfl h
  cases ha : adjustRule env.containers r groupID with
  | error e => rw [ha] at hr; cases hr
  | ok r' =>
    rw [ha] at hr
    cases hr
    exact hq

theorem stageBundles_c {groups : List GroupBundle} {p p' : RuleConfigPatch}
    (h : stageBundles env p groups = .ok p') : p'.c = p.c :=
  foldlM_ok_invariant (fun q => q.c = p.c) (fun _ _ _ hq hg => (stageRules_c hg).trans hq) rfl h

/-- Each update is rejected before it stages anything, or commits a patch of
the manager's configuration. -/
theorem call_cases (call : RuleManagerCall) :
    (∃ e, m.call env call = (m, some e)) ∨
      ∃ p : RuleConfigPatch, p.c = m.ruleConfig ∧ m.call env call = m.tryCommitPatch env p := by
  cases call with
  | setRule rule =>
    simp only [call, setRule]
    split
    · exact .inl ⟨_, rfl⟩
    · exact .inr ⟨_, rfl, rfl⟩
  | setRules rules =>
    simp only [call, setRules]
    split
    · exact .inl ⟨_, rfl⟩
    · rename_i p hp
      exact .inr ⟨p, stageRules_c hp, rfl⟩
  | deleteRule group id => exact .inr ⟨_, rfl, rfl⟩
  | batch todo =>
    simp only [call, batch]
    split
    · exact .inl ⟨_, rfl⟩
    · refine .inr ⟨_, ?_, rfl⟩
      apply foldl_c
      intro p t
      split_ifs <;> first | rfl | exact foldl_c (fun p r => by split_ifs <;> rfl) _ _
  | setRuleGroup group => exact .inr ⟨_, rfl, rfl⟩
  | deleteRuleGroup id => exact .inr ⟨_, rfl, rfl⟩
  | setAllGroupBundles groups override =>
    simp only [call, setAllGroupBundles]
    split
    · exact .inl ⟨_, rfl⟩
    · rename_i p hp
      refine .inr ⟨p, ?_, rfl⟩
      rw [stageBundles_c hp, foldl_c, foldl_c, RuleConfig.beginPatch_c]
      all_goals intro p x; split_ifs <;> rfl
  | setGroupBundle group =>
    simp only [call, setGroupBundle]
    split
    · exact .inl ⟨_, rfl⟩
    · rename_i p hp
      refine .inr ⟨p, ?_, rfl⟩
      rw [stageBundles_c hp]
      split_ifs
      · rw [foldl_c, RuleConfig.beginPatch_c]
        intro p x; split_ifs <;> rfl
      · rfl
  | deleteGroupBundle id regex =>
    simp only [call, deleteGroupBundle]
    split
    · exact .inl ⟨_, rfl⟩
    · refine .inr ⟨_, ?_, rfl⟩
      rw [foldl_c, foldl_c, RuleConfig.beginPatch_c]
      all_goals intro p x; split_ifs <;> rfl

/-- What a failed update keeps: the rule list, the groups and every rule as
stored and listed, but not the group each rule is attached to. -/
theorem call_error_keeps (call : RuleManagerCall) {e : RuleManagerError}
    (h : (m.call env call).2 = some e) :
    (m.call env call).1.ruleList = m.ruleList ∧
      (m.call env call).1.ruleConfig.groups = m.ruleConfig.groups ∧
      (m.call env call).1.ruleConfig.rules.map Rule.json = m.ruleConfig.rules.map Rule.json := by
  rcases @call_cases env m call with ⟨e', he⟩ | ⟨p, hc, he⟩
  · rw [he]
    exact ⟨rfl, rfl, rfl⟩
  · rw [he] at h ⊢
    rw [tryCommitPatch_error h]
    obtain ⟨hgroups, hrules⟩ := p.adjust_c
    exact ⟨rfl, hc ▸ hgroups, hc ▸ hrules⟩

end RuleManager

/-- After `SetRules` commits a learner rule of group `a` and a voter rule of
group `b`, a `SetRuleGroup` that makes `a` an overriding group of index 1 is
rejected (the override leaves the learner alone in the range), yet the learner
rule stays attached to the new group: `GetAllRules` now lists it after the
voter rule. -/
theorem setRuleGroup_failure_regroups_rules :
    let env : RuleManagerEnv := {}
    let ruleA : Rule := { groupID := "a", id := "1", role := learner, count := 1 }
    let ruleB : Rule := { groupID := "b", id := "1", role := voter, count := 3 }
    let r₁ := ({} : RuleManager).call env (.setRules [ruleA, ruleB])
    let r₂ := r₁.1.call env (.setRuleGroup { id := "a", index := 1, override := true })
    r₁.2 = none ∧
      r₂.2 = some (.buildRuleList (.applyRules .needsLeaderOrVoter [] [])) ∧
      r₁.1.getAllRules.map Rule.key = [("a", "1"), ("b", "1")] ∧
      r₂.1.getAllRules.map Rule.key = [("b", "1"), ("a", "1")] ∧
      (r₁.1.ruleConfig.getRule ("a", "1")).bind Rule.group = some { id := "a" } ∧
      (r₂.1.ruleConfig.getRule ("a", "1")).bind Rule.group =
        some { id := "a", index := 1, override := true } := by
  decide

end MatrixCube.Prophet.Placement
