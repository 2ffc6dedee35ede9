import MatrixCube.Prophet.Placement.Rule
import MatrixCube.Lib.Search
import MatrixCube.Lib.KeyRange

/-! # The rule list

`rule_list.go`: `buildRuleList` cuts the key space at every start and end key
of the rules and records, for each piece `[ranges[i].startKey,
ranges[i+1].startKey)`, the rules covering it in apply order and the rules that
survive `prepareRulesForApply`. It sweeps the split points in key order with
the rules in force kept sorted by `compareRule` (`sortedRules`, inserting at
the cut `sort.Search` finds and deleting by key), and pushes a range after the
last point of each key.

The sweep is proved for every order of the points that sorts them by key, so
for whatever order Go's unstable `sort.Slice` leaves points of equal key in.
Its invariant says which rules are in force after a prefix of the points: those
whose start point is in the prefix and whose end point is not. After the last
point of a key `κ` that prefix is every point at or below `κ`, so the rules in
force are those whose range holds `κ`. The lookups then find the piece holding
a key by `sort.Search` over the pushed start keys.
-/

namespace MatrixCube.Prophet.Placement

open BinarySearch KeyRange

/-- `splitPointType`. -/
inductive SplitPointType where
  | tStart
  | tEnd
  deriving DecidableEq, Repr

/-- `splitPoint`. -/
structure SplitPoint where
  typ : SplitPointType
  key : Bytes
  rule : Rule
  deriving DecidableEq, Repr

/-- The start point of a rule. -/
def startPoint (r : Rule) : SplitPoint := ⟨.tStart, r.startKey, r⟩

/-- The end point of a rule, collected when its end key is not empty. -/
def endPoint (r : Rule) : SplitPoint := ⟨.tEnd, r.endKey, r⟩

/-- `sortedRules.insertRule`. -/
def insertRule (rules : List Rule) (rule : Rule) : List Rule :=
  let i := search rules.length fun i => compareRule (rules.getD i default) rule > 0
  if i = rules.length then rules ++ [rule]
  else rules.take i ++ rule :: rules.drop i

/-- `sortedRules.deleteRule`: drop the first rule of the same key. -/
def deleteRule (rules : List Rule) (rule : Rule) : List Rule :=
  rules.eraseP fun r => r.key == rule.key

/-- The error of `checkApplyRules`. -/
inductive ApplyRulesError where
  /-- `multiple leader replicas` -/
  | multipleLeaderReplicas
  /-- `needs at least one leader or voter` -/
  | needsLeaderOrVoter
  deriving DecidableEq, Repr

/-- The loop of `checkApplyRules`, counting the leaders and voters asked for;
too many leaders fail as soon as they are counted. -/
def checkApplyRulesLoop : List Rule → Int → Int → Option ApplyRulesError
  | [], leaderCount, voterCount =>
    if leaderCount + voterCount < 1 then some .needsLeaderOrVoter else none
  | rule :: rules, leaderCount, voterCount =>
    let (leaderCount, voterCount) :=
      if rule.role = leader then (leaderCount + rule.count, voterCount)
      else if rule.role = voter then (leaderCount, voterCount + rule.count)
      else (leaderCount, voterCount)
    if leaderCount > 1 then some .multipleLeaderReplicas
    else checkApplyRulesLoop rules leaderCount voterCount

/-- `checkApplyRules`: one leader at most, and a leader or a voter. -/
def checkApplyRules (rules : List Rule) : Option ApplyRulesError :=
  checkApplyRulesLoop rules 0 0

/-- `rangeRules`. -/
structure RangeRules where
  startKey : Bytes
  rules : List Rule
  applyRules : List Rule
  deriving DecidableEq, Repr, Inhabited

/-- `ruleList`: `ranges[i]` holds the rules of
`[ranges[i].startKey, ranges[i+1].startKey)`. -/
structure RuleList where
  ranges : List RangeRules := []
  deriving DecidableEq, Repr

/-- The error of `buildRuleList`; its text prints the keys in upper-case hex. -/
inductive RuleListError where
  /-- `no rule left` -/
  | noRuleLeft
  /-- `no rule for range {start, end}` -/
  | noRuleForRange (start end_ : Bytes)
  /-- `<err> for range {start, end}` -/
  | applyRules (err : ApplyRulesError) (start end_ : Bytes)
  deriving DecidableEq, Repr

/-- The split points `buildRuleList` collects from one rule. -/
def rulePoints (r : Rule) : List SplitPoint :=
  startPoint r :: if r.endKey.length > 0 then [endPoint r] else []

/-- The split points of the rules `iterateRules` visits, in that order. -/
def splitPoints (rules : List Rule) : List SplitPoint :=
  rules.flatMap rulePoints

/-- `sortedRules` after one split point. -/
def applyPoint (sr : List Rule) (p : SplitPoint) : List Rule :=
  match p.typ with
  | .tStart => insertRule sr p.rule
  | .tEnd => deleteRule sr p.rule

/-- The range `buildRuleList` pushes for `[key, endKey)` from the rules in
force there; Go clones `rr`, which a list model does not need. -/
def makeRange (key endKey : Bytes) (rr : List Rule) : Except RuleListError RangeRules :=
  if rr = [] then .error (.noRuleForRange key endKey)
  else
    let arr := prepareRulesForApply rr
    match checkApplyRules arr with
    | some err => .error (.applyRules err key endKey)
    | none => .ok ⟨key, rr, arr⟩

/-- The loop of `buildRuleList` over the sorted split points, with the rules in
force and the ranges pushed so far: a range is pushed at the last point of a
key, with the next key (none after the last point) as its end. -/
def sweep : List SplitPoint → List Rule → List RangeRules → Except RuleListError (List RangeRules)
  | [], _, ranges => .ok ranges
  | p :: ps, sr, ranges =>
    let sr := applyPoint sr p
    if ps.head?.map (·.key) = some p.key then sweep ps sr ranges
    else
      match makeRange p.key ((ps.head?.map (·.key)).getD []) sr with
      | .error e => .error e
      | .ok rr => sweep ps sr (ranges ++ [rr])

/-- `buildRuleList`, over the rules `iterateRules` visits. Points of equal key
are left in one order here; the sweep lemmas below hold for any. -/
def buildRuleList (rules : List Rule) : Except RuleListError RuleList :=
  let points := splitPoints rules
  if points = [] then .error .noRuleLeft
  else (sweep (points.insertionSort fun a b => a.key ≤ b.key) [] []).map fun ranges => ⟨ranges⟩

/-- The index of the first range starting above `key`, the `sort.Search` the
three lookups share. -/
def RuleList.searchAbove (rl : RuleList) (key : Bytes) : Nat :=
  search rl.ranges.length fun i => key < (rl.ranges.getD i default).startKey

/-- `ruleList.getSplitKeys`: the range starts in `(start, end)`. -/
def RuleList.getSplitKeys (rl : RuleList) (start end_ : Bytes) : List Bytes :=
  ((rl.ranges.drop (rl.searchAbove start)).takeWhile fun r =>
    end_.length = 0 || r.startKey < end_).map (·.startKey)

/-- `ruleList.getRulesByKey`. -/
def RuleList.getRulesByKey (rl : RuleList) (key : Bytes) : List Rule :=
  let i := rl.searchAbove key
  if i = 0 then [] else (rl.ranges.getD (i - 1) default).rules

/-- `ruleList.getRulesForApplyResource`: nothing for a resource that starts
before the first range or reaches past the end of its own. -/
def RuleList.getRulesForApplyResource (rl : RuleList) (start end_ : Bytes) : List Rule :=
  let i := rl.searchAbove start
  if i = 0 ∨ i ≠ rl.ranges.length ∧ (end_.length = 0 ∨ (rl.ranges.getD i default).startKey < end_) then []
  else (rl.ranges.getD (i - 1) default).applyRules

/-! ## Sorted rules -/

section SortedRules

/-- Rules strictly increasing in apply order. -/
abbrev Sorted (sr : List Rule) : Prop := sr.Pairwise fun a b => a.orderKey < b.orderKey

theorem Sorted.nodup {sr : List Rule} (hs : Sorted sr) : sr.Nodup := by
  refine List.Pairwise.imp (R := fun a b => a.orderKey < b.orderKey) ?_ hs
  rintro a b h rfl
  exact lt_irrefl _ h

theorem mem_take_cons_drop {sr : List Rule} {r x : Rule} (i : Nat) :
    x ∈ sr.take i ++ r :: sr.drop i ↔ x = r ∨ x ∈ sr := by
  conv => rhs; rw [← List.take_append_drop i sr]
  simp only [List.mem_append, List.mem_cons]
  tauto

/-- `insertRule` puts the rule at the cut of a sorted list between the rules
before it and those after it. -/
theorem insertRule_cut {sr : List Rule} (r : Rule) (hs : Sorted sr) :
    ∃ i, insertRule sr r = sr.take i ++ r :: sr.drop i ∧
      (∀ x ∈ sr.take i, ¬ r.orderKey < x.orderKey) ∧ ∀ x ∈ sr.drop i, r.orderKey < x.orderKey := by
  have hmono : sr.Pairwise fun a b =>
      decide (compareRule a r > 0) = true → decide (compareRule b r > 0) = true := by
    refine hs.imp fun hab ha => ?_
    simp only [gt_iff_lt, decide_eq_true_eq, compareRule_pos_iff] at ha ⊢
    exact lt_trans ha hab
  obtain ⟨htake, hdrop⟩ := search_take_drop sr default hmono
  refine ⟨search sr.length fun i => compareRule (sr.getD i default) r > 0, ?_,
    fun x hx => ?_, fun x hx => ?_⟩
  · unfold insertRule
    dsimp only
    split
    · rename_i h
      rw [h, List.take_length, List.drop_length]
    · rfl
  · simpa [compareRule_pos_iff] using htake x hx
  · simpa [compareRule_pos_iff] using hdrop x hx

/-- Inserting a rule tied with none of a sorted list keeps it sorted, and adds
just that rule. -/
theorem insertRule_spec {sr : List Rule} {r : Rule} (hs : Sorted sr)
    (hne : ∀ x ∈ sr, x.orderKey ≠ r.orderKey) :
    Sorted (insertRule sr r) ∧ ∀ x, x ∈ insertRule sr r ↔ x = r ∨ x ∈ sr := by
  obtain ⟨i, heq, hlow, hhigh⟩ := insertRule_cut r hs
  have hlow' : ∀ x ∈ sr.take i, x.orderKey < r.orderKey := fun x hx =>
    lt_of_le_of_ne (not_lt.mp (hlow x hx)) (hne x (List.mem_of_mem_take hx))
  rw [heq]
  exact ⟨pairwise_insert_between (by rwa [List.take_append_drop]) hlow' hhigh,
    fun x => mem_take_cons_drop i⟩

/-- Deleting a rule of a sorted list whose key no other rule has keeps it
sorted, and removes just that rule. -/
theorem deleteRule_spec {sr : List Rule} {r : Rule} (hs : Sorted sr) (hr : r ∈ sr)
    (hkey : ∀ x ∈ sr, x.key = r.key → x = r) :
    Sorted (deleteRule sr r) ∧ ∀ x, x ∈ deleteRule sr r ↔ x ∈ sr ∧ x ≠ r := by
  obtain ⟨a, l₁, l₂, -, ha, hsplit, herase⟩ :=
    List.exists_of_eraseP (p := fun x => x.key == r.key) hr (by simp)
  have har : a = r := hkey a (by rw [hsplit]; simp) (by simpa using ha)
  subst har
  have hnot : a ∉ l₁ ++ l₂ := by
    have hnd := hs.nodup
    rw [hsplit, List.nodup_middle, List.nodup_cons] at hnd
    exact hnd.1
  have hsub : (l₁ ++ l₂).Sublist sr := herase ▸ List.eraseP_sublist
  unfold deleteRule
  rw [herase]
  refine ⟨hs.sublist hsub, fun x => ?_⟩
  rw [hsplit]
  simp only [List.mem_append, List.mem_cons] at hnot ⊢
  constructor
  · rintro (hx | hx)
    · exact ⟨.inl hx, fun h => hnot (.inl (h ▸ hx))⟩
    · exact ⟨.inr (.inr hx), fun h => hnot (.inr (h ▸ hx))⟩
  · rintro ⟨hx | hx | hx, hne⟩
    · exact .inl hx
    · exact absurd hx hne
    · exact .inr hx

end SortedRules

/-! ## Split points -/

section Points

@[simp] theorem startPoint_inj {a b : Rule} : startPoint a = startPoint b ↔ a = b := by
  simp only [startPoint, SplitPoint.mk.injEq, true_and]
  constructor
  · exact fun h => h.2
  · rintro rfl; exact ⟨rfl, rfl⟩

@[simp] theorem endPoint_inj {a b : Rule} : endPoint a = endPoint b ↔ a = b := by
  simp only [endPoint, SplitPoint.mk.injEq, true_and]
  constructor
  · exact fun h => h.2
  · rintro rfl; exact ⟨rfl, rfl⟩

@[simp] theorem startPoint_ne_endPoint (a b : Rule) : startPoint a ≠ endPoint b := by
  simp [startPoint, endPoint]

@[simp] theorem endPoint_ne_startPoint (a b : Rule) : endPoint a ≠ startPoint b := by
  simp [startPoint, endPoint]

@[simp] theorem startPoint_key (r : Rule) : (startPoint r).key = r.startKey := rfl
@[simp] theorem endPoint_key (r : Rule) : (endPoint r).key = r.endKey := rfl

theorem mem_rulePoints {r : Rule} {p : SplitPoint} :
    p ∈ rulePoints r ↔ p = startPoint r ∨ (r.endKey ≠ [] ∧ p = endPoint r) := by
  unfold rulePoints
  split_ifs with h <;> simp_all [List.length_pos_iff]

theorem mem_splitPoints {rules : List Rule} {p : SplitPoint} :
    p ∈ splitPoints rules ↔ ∃ r ∈ rules, p = startPoint r ∨ (r.endKey ≠ [] ∧ p = endPoint r) := by
  simp only [splitPoints, List.mem_flatMap, mem_rulePoints]

@[simp] theorem startPoint_mem_splitPoints {rules : List Rule} {r : Rule} :
    startPoint r ∈ splitPoints rules ↔ r ∈ rules := by
  simp [mem_splitPoints]

@[simp] theorem endPoint_mem_splitPoints {rules : List Rule} {r : Rule} :
    endPoint r ∈ splitPoints rules ↔ r ∈ rules ∧ r.endKey ≠ [] := by
  simp [mem_splitPoints, and_comm]

/-- The rules `buildRuleList` receives: the values of a map keyed by
`Rule.key`, each with a range `adjustRule` accepts. -/
structure WellFormedRules (rules : List Rule) : Prop where
  nodup : (rules.map Rule.key).Nodup
  range_ok : ∀ r ∈ rules, r.endKey = [] ∨ r.startKey < r.endKey

theorem WellFormedRules.eq_of_key {rules : List Rule} (hwf : WellFormedRules rules) {a b : Rule}
    (ha : a ∈ rules) (hb : b ∈ rules) (h : a.key = b.key) : a = b :=
  List.inj_on_of_nodup_map hwf.nodup ha hb h

theorem nodup_splitPoints {rules : List Rule} (hwf : WellFormedRules rules) :
    (splitPoints rules).Nodup := by
  have hrule : ∀ {r p}, p ∈ rulePoints r → p.rule = r := by
    intro r p hp
    rcases mem_rulePoints.mp hp with rfl | ⟨-, rfl⟩ <;> rfl
  refine List.nodup_flatMap.mpr ⟨fun r _ => ?_, ?_⟩
  · unfold rulePoints
    split_ifs <;> simp
  · exact (List.Nodup.of_map _ hwf.nodup).imp fun hne p ha hb => hne ((hrule ha).symm.trans (hrule hb))

/-- The split points the sweep runs over: those of a well-formed rule set, each
once, in key order, points of one key in any order. -/
structure SortedPoints (rules : List Rule) (pts : List SplitPoint) : Prop where
  wf : WellFormedRules rules
  mem_iff : ∀ p, p ∈ pts ↔ p ∈ splitPoints rules
  nodup : pts.Nodup
  sorted : pts.Pairwise fun a b => a.key ≤ b.key

variable {rules : List Rule} {pts done rest : List SplitPoint}

theorem SortedPoints.key_le (hp : SortedPoints rules pts) (hsplit : done ++ rest = pts)
    {q q' : SplitPoint} (hq : q ∈ done) (hq' : q' ∈ rest) : q.key ≤ q'.key := by
  have h := hp.sorted
  rw [← hsplit, List.pairwise_append] at h
  exact h.2.2 q hq q' hq'

theorem SortedPoints.not_mem_done (hp : SortedPoints rules pts) (hsplit : done ++ rest = pts)
    {q : SplitPoint} (hq : q ∈ rest) : q ∉ done := by
  have h := hp.nodup
  rw [← hsplit] at h
  exact fun hd => List.disjoint_of_nodup_append h hd hq

theorem SortedPoints.mem_of_done (hp : SortedPoints rules pts) (hsplit : done ++ rest = pts)
    {q : SplitPoint} (hq : q ∈ done) : q ∈ splitPoints rules :=
  (hp.mem_iff q).mp (hsplit ▸ List.mem_append_left _ hq)

/-- The key order puts a rule's end point after its start point. -/
theorem SortedPoints.start_lt_end (hp : SortedPoints rules pts) {r : Rule} (hr : r ∈ rules)
    (hne : r.endKey ≠ []) : r.startKey < r.endKey :=
  (hp.wf.range_ok r hr).resolve_left hne

/-- After the last point of a key, the points done are those at or below it. -/
theorem SortedPoints.mem_done_iff (hp : SortedPoints rules pts) {p : SplitPoint}
    (hsplit : done ++ p :: rest = pts) (hlast : ∀ q ∈ rest, p.key < q.key) {q : SplitPoint}
    (hq : q ∈ pts) : q ∈ done ++ [p] ↔ q.key ≤ p.key := by
  constructor
  · intro h
    rcases List.mem_append.mp h with h | h
    · exact hp.key_le hsplit h List.mem_cons_self
    · rw [List.mem_singleton.mp h]
  · intro hle
    rw [← hsplit] at hq
    simp only [List.mem_append, List.mem_cons, List.not_mem_nil, or_false] at hq ⊢
    rcases hq with hq | rfl | hq
    · exact .inl hq
    · exact .inr rfl
    · exact absurd hle (not_le.mpr (hlast q hq))

end Points

/-! ## The sweep -/

section Sweep

variable {rules : List Rule} {pts done rest : List SplitPoint}

/-- `r` is in force after the points `done`: its start point was swept and its
end point was not. -/
def Active (done : List SplitPoint) (r : Rule) : Prop :=
  startPoint r ∈ done ∧ endPoint r ∉ done

/-- After the last point of a key `κ`, the rules in force are those whose
range holds `κ`. -/
theorem SortedPoints.active_iff (hp : SortedPoints rules pts) {p : SplitPoint}
    (hsplit : done ++ p :: rest = pts) (hlast : ∀ q ∈ rest, p.key < q.key) {r : Rule}
    (hr : r ∈ rules) : Active (done ++ [p]) r ↔ Contains r.startKey r.endKey p.key := by
  have hsub : ∀ q ∈ done ++ [p], q ∈ pts := fun q hq => by
    rw [← hsplit]
    rcases List.mem_append.mp hq with h | h
    · exact List.mem_append_left _ h
    · exact List.mem_append_right _ (List.mem_singleton.mp h ▸ List.mem_cons_self)
  have hstart : startPoint r ∈ done ++ [p] ↔ r.startKey ≤ p.key :=
    hp.mem_done_iff hsplit hlast ((hp.mem_iff _).mpr (startPoint_mem_splitPoints.mpr hr))
  unfold Active Contains Below
  rw [hstart]
  by_cases hne : r.endKey = []
  · have hnot : endPoint r ∉ done ++ [p] := fun h =>
      (endPoint_mem_splitPoints.mp ((hp.mem_iff _).mp (hsub _ h))).2 hne
    simp [hne, hnot]
  · have hend : endPoint r ∈ done ++ [p] ↔ r.endKey ≤ p.key :=
      hp.mem_done_iff hsplit hlast ((hp.mem_iff _).mpr (endPoint_mem_splitPoints.mpr ⟨hr, hne⟩))
    rw [hend]
    simp [hne]

/-- A range the sweep pushes: its rules are those of the rule set whose range
holds its start key, in apply order, and its apply rules are prepared from them. -/
structure GoodRange (rules : List Rule) (rr : RangeRules) : Prop where
  sorted : Sorted rr.rules
  mem_iff : ∀ r, r ∈ rr.rules ↔ r ∈ rules ∧ Contains r.startKey r.endKey rr.startKey
  apply_eq : rr.applyRules = prepareRulesForApply rr.rules

theorem makeRange_eq_ok {key endKey : Bytes} {rr : List Rule} {x : RangeRules}
    (h : makeRange key endKey rr = .ok x) : x = ⟨key, rr, prepareRulesForApply rr⟩ := by
  unfold makeRange at h
  split_ifs at h
  dsimp only at h
  split at h
  · cases h
  · cases h; rfl

/-- The invariant of the sweep after the points `done`, with `rest` to go. -/
structure SweepInv (rules : List Rule) (pts done rest : List SplitPoint) (sr : List Rule)
    (ranges : List RangeRules) : Prop where
  split : done ++ rest = pts
  sorted : Sorted sr
  mem_iff : ∀ r, r ∈ sr ↔ r ∈ rules ∧ Active done r
  ranges_sorted : (ranges.map (·.startKey)).Pairwise (· < ·)
  ranges_good : ∀ rr ∈ ranges, GoodRange rules rr
  ranges_below : ∀ rr ∈ ranges, ∀ q ∈ rest, rr.startKey < q.key
  /-- every key swept is pushed, or has points still to come -/
  pushed : ∀ q ∈ done, q.key ∈ ranges.map (·.startKey) ∨ ∃ q' ∈ rest, q'.key = q.key

theorem sweepInv_init : SweepInv rules pts [] pts [] [] where
  split := rfl
  sorted := List.Pairwise.nil
  mem_iff := by simp [Active]
  ranges_sorted := List.Pairwise.nil
  ranges_good := by simp
  ranges_below := by simp
  pushed := by simp

/-- A start point puts its rule in force. -/
theorem SweepInv.sr_start (hp : SortedPoints rules pts) {sr : List Rule} {ranges : List RangeRules}
    {r : Rule} (h : SweepInv rules pts done (startPoint r :: rest) sr ranges) (hr : r ∈ rules) :
    Sorted (insertRule sr r) ∧
      ∀ x, x ∈ insertRule sr r ↔ x ∈ rules ∧ Active (done ++ [startPoint r]) x := by
  have hnot : startPoint r ∉ done := hp.not_mem_done h.split List.mem_cons_self
  -- the end point, above the start point, is still to come
  have hend : endPoint r ∉ done := by
    intro he
    have hle := hp.key_le h.split he List.mem_cons_self
    have hne := (endPoint_mem_splitPoints.mp (hp.mem_of_done h.split he)).2
    exact absurd hle (not_le.mpr (hp.start_lt_end hr hne))
  have hne : ∀ x ∈ sr, x.orderKey ≠ r.orderKey := fun x hx =>
    orderKey_ne_of_key_ne fun hk => by
      obtain ⟨hxr, hxs, -⟩ := (h.mem_iff x).mp hx
      exact hnot (hp.wf.eq_of_key hxr hr hk ▸ hxs)
  obtain ⟨hsorted, hmem⟩ := insertRule_spec h.sorted hne
  refine ⟨hsorted, fun x => ?_⟩
  rw [hmem, h.mem_iff]
  simp only [Active, List.mem_append, List.mem_singleton, startPoint_inj, endPoint_ne_startPoint,
    or_false]
  by_cases hx : x = r
  · subst hx
    simp [hr, hend]
  · simp [hx]

/-- An end point takes its rule out of force. -/
theorem SweepInv.sr_end (hp : SortedPoints rules pts) {sr : List Rule} {ranges : List RangeRules}
    {r : Rule} (h : SweepInv rules pts done (endPoint r :: rest) sr ranges) (hr : r ∈ rules)
    (hne : r.endKey ≠ []) :
    Sorted (deleteRule sr r) ∧
      ∀ x, x ∈ deleteRule sr r ↔ x ∈ rules ∧ Active (done ++ [endPoint r]) x := by
  have hnot : endPoint r ∉ done := hp.not_mem_done h.split List.mem_cons_self
  -- the start point, below the end point, was swept already
  have hstart : startPoint r ∈ done := by
    have hin : startPoint r ∈ pts := (hp.mem_iff _).mpr (startPoint_mem_splitPoints.mpr hr)
    rw [← h.split] at hin
    rcases List.mem_append.mp hin with hin | hin
    · exact hin
    · have hrest := hp.sorted
      rw [← h.split, List.pairwise_append, List.pairwise_cons] at hrest
      rcases List.mem_cons.mp hin with heq | hin
      · exact absurd heq (startPoint_ne_endPoint r r)
      · exact absurd (hrest.2.1.1 _ hin) (not_le.mpr (hp.start_lt_end hr hne))
  have hkey : ∀ x ∈ sr, x.key = r.key → x = r := fun x hx hk =>
    hp.wf.eq_of_key ((h.mem_iff x).mp hx).1 hr hk
  obtain ⟨hsorted, hmem⟩ := deleteRule_spec h.sorted ((h.mem_iff r).mpr ⟨hr, hstart, hnot⟩) hkey
  refine ⟨hsorted, fun x => ?_⟩
  rw [hmem, h.mem_iff]
  simp only [Active, List.mem_append, List.mem_singleton, endPoint_inj, startPoint_ne_endPoint,
    or_false]
  tauto

/-- One point keeps the rules in force sorted and equal to the active ones. -/
theorem SweepInv.sr_step (hp : SortedPoints rules pts) {sr : List Rule} {ranges : List RangeRules}
    {p : SplitPoint} (h : SweepInv rules pts done (p :: rest) sr ranges) :
    Sorted (applyPoint sr p) ∧ ∀ x, x ∈ applyPoint sr p ↔ x ∈ rules ∧ Active (done ++ [p]) x := by
  have hp' : p ∈ splitPoints rules := (hp.mem_iff p).mp (h.split ▸ by simp)
  obtain ⟨r, hr, rfl | ⟨hne, rfl⟩⟩ := mem_splitPoints.mp hp'
  · exact h.sr_start hp hr
  · exact h.sr_end hp hr hne

theorem SweepInv.split_snoc {sr : List Rule} {ranges : List RangeRules} {p : SplitPoint}
    (h : SweepInv rules pts done (p :: rest) sr ranges) : done ++ [p] ++ rest = pts := by
  rw [List.append_assoc, List.singleton_append]
  exact h.split

/-- A point followed by one of the same key pushes nothing. -/
theorem SweepInv.step_same (hp : SortedPoints rules pts) {sr : List Rule}
    {ranges : List RangeRules} {p : SplitPoint} (h : SweepInv rules pts done (p :: rest) sr ranges)
    (hsame : rest.head?.map (·.key) = some p.key) :
    SweepInv rules pts (done ++ [p]) rest (applyPoint sr p) ranges := by
  obtain ⟨hsorted, hmem⟩ := h.sr_step hp
  obtain ⟨q₀, rest', rfl⟩ : ∃ q₀ rest', rest = q₀ :: rest' := by
    cases rest with
    | nil => simp at hsame
    | cons q₀ rest' => exact ⟨q₀, rest', rfl⟩
  have hq₀ : q₀.key = p.key := by simpa using hsame
  refine ⟨h.split_snoc, hsorted, hmem, h.ranges_sorted, h.ranges_good,
    fun rr hrr q hq => h.ranges_below rr hrr q (List.mem_cons_of_mem _ hq), fun q hq => ?_⟩
  rcases List.mem_append.mp hq with hq | hq
  · rcases h.pushed q hq with hk | ⟨q', hq', hkey⟩
    · exact .inl hk
    · rcases List.mem_cons.mp hq' with rfl | hq'
      · exact .inr ⟨q₀, List.mem_cons_self, hq₀.trans hkey⟩
      · exact .inr ⟨q', hq', hkey⟩
  · rw [List.mem_singleton.mp hq]
    exact .inr ⟨q₀, List.mem_cons_self, hq₀⟩

/-- The last point of a key pushes the range of that key. -/
theorem SweepInv.step_push (hp : SortedPoints rules pts) {sr : List Rule}
    {ranges : List RangeRules} {p : SplitPoint} (h : SweepInv rules pts done (p :: rest) sr ranges)
    (hlast : rest.head?.map (·.key) ≠ some p.key) {rr : RangeRules}
    (hrr : makeRange p.key ((rest.head?.map (·.key)).getD []) (applyPoint sr p) = .ok rr) :
    SweepInv rules pts (done ++ [p]) rest (applyPoint sr p) (ranges ++ [rr]) := by
  obtain ⟨hsorted, hmem⟩ := h.sr_step hp
  -- every later point has a larger key
  have habove : ∀ q ∈ rest, p.key < q.key := by
    have hs := hp.sorted
    rw [← h.split, List.pairwise_append, List.pairwise_cons] at hs
    obtain ⟨hle, hrest⟩ := hs.2.1
    intro q hq
    cases rest with
    | nil => simp at hq
    | cons q₀ rest' =>
      have hq₀ : p.key < q₀.key :=
        lt_of_le_of_ne (hle q₀ List.mem_cons_self) fun heq => hlast (by simp [heq])
      rcases List.mem_cons.mp hq with rfl | hq
      · exact hq₀
      · exact lt_of_lt_of_le hq₀ ((List.pairwise_cons.mp hrest).1 q hq)
  have hrr' := makeRange_eq_ok hrr
  have hkey : rr.startKey = p.key := by rw [hrr']
  have hgood : GoodRange rules rr := by
    rw [hrr']
    exact ⟨hsorted, fun r => by
      rw [hmem]
      exact and_congr_right fun hr => hp.active_iff h.split habove hr, rfl⟩
  have hpushed : p.key ∈ (ranges ++ [rr]).map (·.startKey) := by simp [hkey]
  refine ⟨h.split_snoc, hsorted, hmem, ?_, ?_, ?_, ?_⟩
  · rw [List.map_append, List.pairwise_append]
    refine ⟨h.ranges_sorted, by simp, fun a ha b hb => ?_⟩
    obtain ⟨rr', hrr', rfl⟩ := List.mem_map.mp ha
    rw [List.map_singleton, List.mem_singleton, hkey] at hb
    exact hb ▸ h.ranges_below rr' hrr' p List.mem_cons_self
  · intro rr' hrr'
    rcases List.mem_append.mp hrr' with hrr' | hrr'
    · exact h.ranges_good rr' hrr'
    · exact List.mem_singleton.mp hrr' ▸ hgood
  · intro rr' hrr' q hq
    rcases List.mem_append.mp hrr' with hrr' | hrr'
    · exact h.ranges_below rr' hrr' q (List.mem_cons_of_mem _ hq)
    · rw [List.mem_singleton.mp hrr', hkey]
      exact habove q hq
  · intro q hq
    rcases List.mem_append.mp hq with hq | hq
    · rcases h.pushed q hq with hk | ⟨q', hq', hkey'⟩
      · exact .inl (by rw [List.map_append]; exact List.mem_append_left _ hk)
      · rcases List.mem_cons.mp hq' with rfl | hq'
        · exact .inl (hkey' ▸ hpushed)
        · exact .inr ⟨q', hq', hkey'⟩
    · exact .inl (List.mem_singleton.mp hq ▸ hpushed)

/-- A rule list whose ranges are those of the rule set: strictly increasing
start keys, each range good, and every bound of a rule a range start. -/
structure RuleList.Built (rules : List Rule) (rl : RuleList) : Prop where
  sorted : (rl.ranges.map (·.startKey)).Pairwise (· < ·)
  good : ∀ rr ∈ rl.ranges, GoodRange rules rr
  start_mem : ∀ r ∈ rules, r.startKey ∈ rl.ranges.map (·.startKey)
  end_mem : ∀ r ∈ rules, r.endKey ≠ [] → r.endKey ∈ rl.ranges.map (·.startKey)

/-- The run lemma: a sweep that succeeds from the invariant builds the rule
list of the rule set. -/
theorem SweepInv.sweep_built (hp : SortedPoints rules pts) :
    ∀ {done rest : List SplitPoint} {sr : List Rule} {ranges out : List RangeRules},
      SweepInv rules pts done rest sr ranges → sweep rest sr ranges = .ok out →
        RuleList.Built rules ⟨out⟩ := by
  intro done rest
  induction rest generalizing done with
  | nil =>
    intro sr ranges out h hsweep
    cases hsweep
    have hdone : done = pts := by simpa using h.split
    have hkey : ∀ q ∈ pts, q.key ∈ ranges.map (·.startKey) := fun q hq =>
      (h.pushed q (hdone ▸ hq)).resolve_right (by simp)
    exact ⟨h.ranges_sorted, h.ranges_good,
      fun r hr => hkey _ ((hp.mem_iff _).mpr (startPoint_mem_splitPoints.mpr hr)),
      fun r hr hne => hkey _ ((hp.mem_iff _).mpr (endPoint_mem_splitPoints.mpr ⟨hr, hne⟩))⟩
  | cons p rest ih =>
    intro sr ranges out h hsweep
    unfold sweep at hsweep
    dsimp only at hsweep
    split_ifs at hsweep with hsame
    · exact ih (h.step_same hp hsame) hsweep
    · split at hsweep
      · cases hsweep
      · rename_i rr hrr
        exact ih (h.step_push hp hsame hrr) hsweep

/-- The points `buildRuleList` sorts are sorted points of the rule set. -/
theorem sortedPoints_insertionSort (hwf : WellFormedRules rules) :
    SortedPoints rules ((splitPoints rules).insertionSort fun a b => a.key ≤ b.key) := by
  have : Std.Total fun a b : SplitPoint => a.key ≤ b.key := ⟨fun a b => le_total a.key b.key⟩
  have : IsTrans SplitPoint fun a b => a.key ≤ b.key := ⟨fun _ _ _ => le_trans⟩
  have hperm := List.perm_insertionSort (fun a b : SplitPoint => a.key ≤ b.key) (splitPoints rules)
  exact ⟨hwf, fun p => hperm.mem_iff, hperm.nodup_iff.mpr (nodup_splitPoints hwf),
    List.pairwise_insertionSort _ _⟩

/-- A rule list `buildRuleList` returns is built from its rules, and has a range. -/
theorem buildRuleList_built (hwf : WellFormedRules rules) {rl : RuleList}
    (h : buildRuleList rules = .ok rl) : rl.Built rules ∧ rl.ranges ≠ [] := by
  unfold buildRuleList at h
  dsimp only at h
  split_ifs at h with hpts
  cases hs : sweep ((splitPoints rules).insertionSort fun a b => a.key ≤ b.key) [] [] with
  | error e => simp [hs, Except.map] at h
  | ok out =>
    simp only [hs, Except.map] at h
    cases h
    have hb := sweepInv_init.sweep_built (sortedPoints_insertionSort hwf) hs
    refine ⟨hb, fun hnil => ?_⟩
    have hout : out = [] := hnil
    obtain ⟨q, hq⟩ := List.exists_mem_of_ne_nil _ hpts
    obtain ⟨r, hr, -⟩ := mem_splitPoints.mp hq
    simpa [hout] using hb.start_mem r hr

end Sweep

/-! ## Lookups -/

section Lookup

variable {rules : List Rule} {rl : RuleList}

/-- The ranges at or below `key` and those above it: `searchAbove` cuts there,
and a key at or above the first start lies in the last range of the first part. -/
theorem RuleList.Built.locate (hb : rl.Built rules) {key : Bytes}
    (hfirst : ∀ rr₀ ∈ rl.ranges.head?, rr₀.startKey ≤ key) (hne : rl.ranges ≠ []) :
    ∃ pre rr post, rl.ranges = pre ++ rr :: post ∧ (∀ x ∈ pre, x.startKey < rr.startKey) ∧
      rr.startKey ≤ key ∧ (∀ x ∈ post, key < x.startKey) ∧
      rl.searchAbove key = pre.length + 1 := by
  have hsorted : rl.ranges.Pairwise fun a b => a.startKey < b.startKey :=
    List.pairwise_map.mp hb.sorted
  have hmono : rl.ranges.Pairwise fun a b =>
      decide (key < a.startKey) = true → decide (key < b.startKey) = true :=
    hsorted.imp fun hab ha => by simp only [decide_eq_true_eq] at ha ⊢; exact lt_trans ha hab
  obtain ⟨htake, hdrop⟩ := search_take_drop rl.ranges default hmono
  have hi : RuleList.searchAbove rl key = search rl.ranges.length
      (fun i => decide (key < (rl.ranges.getD i default).startKey)) := rfl
  rw [← hi] at htake hdrop
  -- the cut is past the first range, which starts at or below `key`
  obtain ⟨j, hj⟩ : ∃ j, rl.searchAbove key = j + 1 := by
    cases hk : rl.searchAbove key with
    | zero =>
      obtain ⟨rr₀, rs, hrs⟩ := List.exists_cons_of_ne_nil hne
      have h0 := hdrop rr₀ (by rw [hk, List.drop_zero, hrs]; exact List.mem_cons_self)
      have h1 := hfirst rr₀ (by rw [hrs]; rfl)
      simp only [decide_eq_true_eq] at h0
      exact absurd h1 (not_le.mpr h0)
    | succ j => exact ⟨j, rfl⟩
  have hlen : j < rl.ranges.length := by
    have := (search_inv (upwardClosed_of_pairwise rl.ranges default hmono)).2.1
    rw [← hi, hj] at this
    omega
  refine ⟨rl.ranges.take j, rl.ranges[j], rl.ranges.drop (j + 1), ?_, ?_, ?_, ?_, ?_⟩
  · rw [← List.drop_eq_getElem_cons hlen, List.take_append_drop]
  · intro x hx
    obtain ⟨m, hm, rfl⟩ := List.mem_iff_getElem.mp hx
    rw [List.getElem_take]
    simp only [List.length_take] at hm
    exact List.pairwise_iff_getElem.mp hsorted m j _ hlen (by omega)
  · have hmem : rl.ranges[j] ∈ rl.ranges.take (rl.searchAbove key) := by
      rw [hj]
      exact List.mem_iff_getElem.mpr ⟨j, by simp only [List.length_take]; omega, List.getElem_take⟩
    simpa using htake _ hmem
  · intro x hx
    simpa using hdrop x (by rwa [hj])
  · rw [hj, List.length_take, min_eq_left hlen.le]

/-- The rules in force at a key at or above the first range start. -/
theorem RuleList.Built.getRulesByKey_eq (hb : rl.Built rules) {key : Bytes}
    (hfirst : ∀ rr₀ ∈ rl.ranges.head?, rr₀.startKey ≤ key) (hne : rl.ranges ≠ []) :
    ∃ pre rr post, rl.ranges = pre ++ rr :: post ∧ (∀ x ∈ pre, x.startKey < rr.startKey) ∧
      rr.startKey ≤ key ∧ (∀ x ∈ post, key < x.startKey) ∧ rl.getRulesByKey key = rr.rules ∧
      rl.getRulesForApplyResource key = fun end_ =>
        if post ≠ [] ∧ (end_.length = 0 ∨ (post.headD default).startKey < end_) then []
        else rr.applyRules := by
  obtain ⟨pre, rr, post, hsplit, hpre, hrr, hpost, hi⟩ := hb.locate hfirst hne
  refine ⟨pre, rr, post, hsplit, hpre, hrr, hpost, ?_, ?_⟩
  · simp [RuleList.getRulesByKey, hi, hsplit]
  · funext end_
    have hlen : (pre.length + 1 ≠ rl.ranges.length) ↔ post ≠ [] := by
      rw [hsplit]; simp
    simp only [RuleList.getRulesForApplyResource, hi, hlen, Nat.add_one_ne_zero, false_or,
      Nat.add_sub_cancel]
    rw [hsplit]
    cases post with
    | nil => simp
    | cons x xs =>
      simp

/-- Below the first range start, the search stops at the first range. -/
theorem RuleList.Built.searchAbove_eq_zero (hb : rl.Built rules) {key : Bytes}
    (hbelow : ∀ rr₀ ∈ rl.ranges.head?, key < rr₀.startKey) : rl.searchAbove key = 0 := by
  have hmono : rl.ranges.Pairwise fun a b =>
      decide (key < a.startKey) = true → decide (key < b.startKey) = true :=
    (List.pairwise_map.mp hb.sorted).imp fun hab ha => by
      simp only [decide_eq_true_eq] at ha ⊢; exact lt_trans ha hab
  obtain ⟨htake, -⟩ := search_take_drop rl.ranges default hmono
  by_contra hi
  cases hr : rl.ranges with
  | nil => exact hi (by simp [RuleList.searchAbove, hr, search, searchLoop])
  | cons rr₀ rs =>
    have hmem : rr₀ ∈ rl.ranges.take (rl.searchAbove key) := by
      rw [hr, List.take_cons (Nat.pos_of_ne_zero hi)]
      exact List.mem_cons_self
    have h0 := htake rr₀ hmem
    simp only [decide_eq_false_iff_not] at h0
    exact h0 (hbelow rr₀ (by rw [hr]; rfl))

/-- A range start at or below a key at or above `rr` is at or below `rr`'s. -/
theorem le_start_of_split {pre post : List RangeRules} {rr x : RangeRules} {key : Bytes}
    (hpre : ∀ x ∈ pre, x.startKey < rr.startKey) (hpost : ∀ x ∈ post, key < x.startKey)
    (hx : x ∈ pre ++ rr :: post) (hle : x.startKey ≤ key) : x.startKey ≤ rr.startKey := by
  simp only [List.mem_append, List.mem_cons] at hx
  rcases hx with hx | rfl | hx
  · exact (hpre x hx).le
  · exact le_rfl
  · exact absurd hle (not_le.mpr (hpost x hx))

/-- At a key at or above the first range start, `getRulesByKey` returns the
rules whose range holds the key. -/
theorem RuleList.Built.mem_getRulesByKey (hb : rl.Built rules) (hne : rl.ranges ≠ []) {key : Bytes}
    (hfirst : ∀ rr₀ ∈ rl.ranges.head?, rr₀.startKey ≤ key) (r : Rule) :
    r ∈ rl.getRulesByKey key ↔ r ∈ rules ∧ Contains r.startKey r.endKey key := by
  obtain ⟨pre, rr, post, hsplit, hpre, hrr, hpost, hget, -⟩ := hb.getRulesByKey_eq hfirst hne
  have hgood := hb.good rr (by rw [hsplit]; simp)
  -- a rule bound is a range start, so it is at or below `key` only if at or below `rr`'s
  have hbound : ∀ b ∈ rl.ranges.map (·.startKey), b ≤ key → b ≤ rr.startKey := by
    intro b hb' hle
    obtain ⟨x, hx, rfl⟩ := List.mem_map.mp hb'
    exact le_start_of_split hpre hpost (hsplit ▸ hx) hle
  rw [hget, hgood.mem_iff]
  exact and_congr_right fun hr => contains_iff_of_no_bound_between hrr
    (hbound _ (hb.start_mem r hr)) (fun hne' => hbound _ (hb.end_mem r hr hne'))

/-- `getRulesByKey` returns rules in apply order. -/
theorem RuleList.Built.sorted_getRulesByKey (hb : rl.Built rules) (hne : rl.ranges ≠ [])
    {key : Bytes} (hfirst : ∀ rr₀ ∈ rl.ranges.head?, rr₀.startKey ≤ key) :
    (rl.getRulesByKey key).Pairwise fun a b => compareRule a b < 0 := by
  obtain ⟨pre, rr, post, hsplit, -, -, -, hget, -⟩ := hb.getRulesByKey_eq hfirst hne
  rw [hget]
  exact (hb.good rr (by rw [hsplit]; simp)).sorted.imp fun h => (compareRule_neg_iff _ _).mpr h

/-- A resource inside one range gets the apply rules of that range. -/
theorem RuleList.Built.getRulesForApplyResource_inside (hb : rl.Built rules) (hne : rl.ranges ≠ [])
    {start end_ : Bytes} (hfirst : ∀ rr₀ ∈ rl.ranges.head?, rr₀.startKey ≤ start)
    (hinside : ∀ b ∈ rl.ranges.map (·.startKey), ¬ (start < b ∧ Below end_ b)) :
    rl.getRulesForApplyResource start end_ = prepareRulesForApply (rl.getRulesByKey start) := by
  obtain ⟨pre, rr, post, hsplit, -, -, hpost, hget, happly⟩ := hb.getRulesByKey_eq hfirst hne
  rw [happly, hget, ← (hb.good rr (by rw [hsplit]; simp)).apply_eq]
  cases post with
  | nil => simp
  | cons x xs =>
    have hx := hinside x.startKey (List.mem_map_of_mem (by rw [hsplit]; simp))
    dsimp only
    rw [if_neg]
    rintro ⟨-, hc⟩
    refine hx ⟨hpost x List.mem_cons_self, ?_⟩
    rcases hc with hc | hc
    · exact .inl (List.length_eq_zero_iff.mp hc)
    · exact .inr hc

/-- A resource that crosses a range start gets no rules. -/
theorem RuleList.Built.getRulesForApplyResource_crossing (hb : rl.Built rules)
    {start end_ : Bytes} (hcross : ∃ b ∈ rl.ranges.map (·.startKey), start < b ∧ Below end_ b) :
    rl.getRulesForApplyResource start end_ = [] := by
  obtain ⟨b, hbm, hlt, hbelow⟩ := hcross
  by_cases hfirst : ∀ rr₀ ∈ rl.ranges.head?, rr₀.startKey ≤ start
  · have hne : rl.ranges ≠ [] := List.ne_nil_of_mem (List.mem_map.mp hbm).choose_spec.1
    obtain ⟨pre, rr, post, hsplit, hpre, hrr, hpost, -, happly⟩ := hb.getRulesByKey_eq hfirst hne
    obtain ⟨x, hx, rfl⟩ := List.mem_map.mp hbm
    -- the crossed start lies above `start`, so in `post`, whose head it follows
    have hxpost : x ∈ post := by
      rw [hsplit] at hx
      simp only [List.mem_append, List.mem_cons] at hx
      rcases hx with hx | rfl | hx
      · exact absurd hlt (not_lt.mpr ((hpre x hx).le.trans hrr))
      · exact absurd hlt (not_lt.mpr hrr)
      · exact hx
    obtain ⟨y, ys, rfl⟩ := List.exists_cons_of_ne_nil (List.ne_nil_of_mem hxpost)
    have hsorted := List.pairwise_map.mp hb.sorted
    rw [hsplit, List.pairwise_append, List.pairwise_cons, List.pairwise_cons] at hsorted
    have hyx : y.startKey ≤ x.startKey := by
      rcases List.mem_cons.mp hxpost with rfl | hx'
      · exact le_rfl
      · exact (hsorted.2.1.2.1 x hx').le
    have hy : Below end_ y.startKey := hbelow.of_le hyx
    have hcond : y :: ys ≠ [] ∧ (end_.length = 0 ∨ ((y :: ys).headD default).startKey < end_) := by
      refine ⟨List.cons_ne_nil y ys, ?_⟩
      rcases hy with hy | hy
      · exact .inl (by simp [hy])
      · exact .inr hy
    rw [happly]
    dsimp only
    rw [if_pos hcond]
  · have hbelow' : ∀ rr₀ ∈ rl.ranges.head?, start < rr₀.startKey := by
      intro rr₀ hrr₀
      exact lt_of_not_ge fun hle => hfirst fun rr₁ hrr₁ => by
        rw [Option.mem_def] at hrr₀ hrr₁
        rw [hrr₀] at hrr₁
        cases hrr₁
        exact hle
    simp [RuleList.getRulesForApplyResource, hb.searchAbove_eq_zero hbelow']

end Lookup

/-- For a well-formed rule set, the rule list `buildRuleList` returns starts
its ranges at strictly increasing keys; at every key from the first start on,
`getRulesByKey` returns exactly the rules whose range holds the key, in apply
order, and each range's apply rules are prepared from its rules; and
`getRulesForApplyResource` returns those apply rules for a resource inside one
range and nothing for one that crosses a range start. -/
theorem buildRuleList_meets_contract {rules : List Rule} (hwf : WellFormedRules rules)
    {rl : RuleList} (h : buildRuleList rules = .ok rl) :
    (rl.ranges.map (·.startKey)).Pairwise (· < ·) ∧
      (∀ rr ∈ rl.ranges, rr.applyRules = prepareRulesForApply rr.rules) ∧
      (∀ rr₀ ∈ rl.ranges.head?, ∀ k, rr₀.startKey ≤ k →
        (∀ r, r ∈ rl.getRulesByKey k ↔
          r ∈ rules ∧ r.startKey ≤ k ∧ (r.endKey = [] ∨ k < r.endKey)) ∧
        (rl.getRulesByKey k).Pairwise fun a b => compareRule a b < 0) ∧
      (∀ rr₀ ∈ rl.ranges.head?, ∀ start end_, rr₀.startKey ≤ start →
        (∀ b ∈ rl.ranges.map (·.startKey), ¬ (start < b ∧ (end_ = [] ∨ b < end_))) →
        rl.getRulesForApplyResource start end_ = prepareRulesForApply (rl.getRulesByKey start)) ∧
      ∀ start end_, (∃ b ∈ rl.ranges.map (·.startKey), start < b ∧ (end_ = [] ∨ b < end_)) →
        rl.getRulesForApplyResource start end_ = [] := by
  obtain ⟨hb, hne⟩ := buildRuleList_built hwf h
  -- the first range start is the least, so every key from it on is past the head
  have hhead : ∀ rr₀ ∈ rl.ranges.head?, ∀ k, rr₀.startKey ≤ k →
      ∀ rr₁ ∈ rl.ranges.head?, rr₁.startKey ≤ k := by
    intro rr₀ h₀ k hk rr₁ h₁
    rw [Option.mem_def] at h₀ h₁
    rw [h₀] at h₁
    cases h₁
    exact hk
  refine ⟨hb.sorted, fun rr hrr => (hb.good rr hrr).apply_eq, ?_, ?_, ?_⟩
  · intro rr₀ h₀ k hk
    exact ⟨hb.mem_getRulesByKey hne (hhead rr₀ h₀ k hk),
      hb.sorted_getRulesByKey hne (hhead rr₀ h₀ k hk)⟩
  · intro rr₀ h₀ start end_ hk hinside
    exact hb.getRulesForApplyResource_inside hne (hhead rr₀ h₀ start hk) hinside
  · intro start end_ hcross
    exact hb.getRulesForApplyResource_crossing hcross

theorem buildRuleList_meets_contract_two_rules :
    let ruleA : Rule := { groupID := "prophet", id := "a", endKey := [5], role := voter, count := 3 }
    let ruleB : Rule := { groupID := "prophet", id := "b", startKey := [5], role := voter, count := 3 }
    let rl : RuleList := ⟨[⟨[], [ruleA], [ruleA]⟩, ⟨[5], [ruleB], [ruleB]⟩]⟩
    WellFormedRules [ruleA, ruleB] ∧ buildRuleList [ruleA, ruleB] = .ok rl ∧
      (rl.ranges.map (·.startKey)).Pairwise (· < ·) ∧
      (∀ rr ∈ rl.ranges, rr.applyRules = prepareRulesForApply rr.rules) ∧
      (∀ rr₀ ∈ rl.ranges.head?, ∀ k, rr₀.startKey ≤ k →
        (∀ r, r ∈ rl.getRulesByKey k ↔
          r ∈ [ruleA, ruleB] ∧ r.startKey ≤ k ∧ (r.endKey = [] ∨ k < r.endKey)) ∧
        (rl.getRulesByKey k).Pairwise fun a b => compareRule a b < 0) ∧
      (∀ rr₀ ∈ rl.ranges.head?, ∀ start end_, rr₀.startKey ≤ start →
        (∀ b ∈ rl.ranges.map (·.startKey), ¬ (start < b ∧ (end_ = [] ∨ b < end_))) →
        rl.getRulesForApplyResource start end_ = prepareRulesForApply (rl.getRulesByKey start)) ∧
      ∀ start end_, (∃ b ∈ rl.ranges.map (·.startKey), start < b ∧ (end_ = [] ∨ b < end_)) →
        rl.getRulesForApplyResource start end_ = [] := by
  intro ruleA ruleB rl
  have hwf : WellFormedRules [ruleA, ruleB] := ⟨by decide, by decide⟩
  have hbuild : buildRuleList [ruleA, ruleB] = .ok rl := by rfl
  exact ⟨hwf, hbuild, buildRuleList_meets_contract hwf hbuild⟩

end MatrixCube.Prophet.Placement
