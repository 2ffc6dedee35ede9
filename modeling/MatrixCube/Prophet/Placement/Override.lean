import MatrixCube.Prophet.Placement.Rule
import MatrixCube.Lib.ListWindow

/-! # Rule overriding

The rules of a range fall into maximal runs of one `GroupID`. Of each run
only the suffix from its last overriding rule counts, and a run whose group
overrides drops every run before it; `overrideRules` says so on the runs.
`prepareRulesForApply` computes it in one pass that keeps the start `j` of the
current run's suffix, and reads a run's group from the run's first rule.

The proof runs the loop invariant `PrepareInv` over the prefixes of the rules:
the kept rules `res` are what the runs before the last run of the prefix keep,
and `rules[j:i]` what the last run keeps.
-/

namespace MatrixCube.Prophet.Placement

/-- Two rules of one group. -/
def sameGroup (a b : Rule) : Bool := a.groupID == b.groupID

/-- The maximal runs of rules of equal `GroupID`, in order. -/
def groupRuns (rules : List Rule) : List (List Rule) := rules.splitBy sameGroup

/-- Whether a run drops the runs before it: the group of its first rule
overrides. -/
def overridesGroups : List Rule → Bool
  | r :: _ => r.group.any (·.override)
  | [] => false

/-- What a run keeps: the suffix from its last overriding rule, or all of it. -/
def keepRun : List Rule → List Rule
  | [] => []
  | r :: rest => if rest.any (·.override) then keepRun rest else r :: rest

/-- The runs from the last one whose group overrides on, or all of them. -/
def dropOverridden : List (List Rule) → List (List Rule)
  | [] => []
  | run :: runs => if runs.any overridesGroups then dropOverridden runs else run :: runs

/-- The rules that apply once overrides are taken into account. -/
def overrideRules (rules : List Rule) : List Rule :=
  ((dropOverridden (groupRuns rules)).map keepRun).flatten

/-! ## The runs at their end -/

theorem keepRun_concat (run : List Rule) (r : Rule) :
    keepRun (run ++ [r]) = if r.override then [r] else keepRun run ++ [r] := by
  induction run with
  | nil => cases r.override <;> simp [keepRun]
  | cons x run ih =>
    by_cases hr : r.override = true
    · simp [keepRun, hr, ih]
    · by_cases hrun : run.any (·.override) = true
      · simp [keepRun, hr, hrun, ih]
      · simp [keepRun, hr, hrun]

theorem dropOverridden_concat (runs : List (List Rule)) (last : List Rule) :
    dropOverridden (runs ++ [last]) = (if overridesGroups last then [] else dropOverridden runs) ++ [last] := by
  induction runs with
  | nil => cases overridesGroups last <;> simp [dropOverridden]
  | cons run runs ih =>
    by_cases hlast : overridesGroups last = true
    · simp [dropOverridden, hlast, ih]
    · by_cases hruns : runs.any overridesGroups = true
      · simp [dropOverridden, hlast, hruns, ih]
      · simp [dropOverridden, hlast, hruns]

theorem overridesGroups_append {run : List Rule} (hrun : run ≠ []) (l : List Rule) :
    overridesGroups (run ++ l) = overridesGroups run := by
  cases run with
  | nil => exact absurd rfl hrun
  | cons r run => rfl

/-- The rules kept of the runs `init ++ [last]`: what the runs before `last`
keep, then what `last` keeps. -/
theorem overrideRules_eq {rules : List Rule} {init : List (List Rule)} {last : List Rule}
    (hs : groupRuns rules = init ++ [last]) :
    overrideRules rules =
      ((if overridesGroups last then [] else dropOverridden init).map keepRun).flatten ++ keepRun last := by
  rw [overrideRules, hs, dropOverridden_concat]
  simp

theorem keepRun_suffix : ∀ run : List Rule, keepRun run <:+ run
  | [] => List.suffix_refl _
  | r :: rest => by
    unfold keepRun
    split_ifs
    · exact (keepRun_suffix rest).trans (List.suffix_cons r rest)
    · exact List.suffix_refl _

theorem dropOverridden_suffix : ∀ runs : List (List Rule), dropOverridden runs <:+ runs
  | [] => List.suffix_refl _
  | run :: runs => by
    unfold dropOverridden
    split_ifs
    · exact (dropOverridden_suffix runs).trans (List.suffix_cons run runs)
    · exact List.suffix_refl _

/-- The kept rules keep their order. -/
theorem overrideRules_sublist (rules : List Rule) : (overrideRules rules).Sublist rules := by
  have hkeep : ∀ runs : List (List Rule), (runs.map keepRun).flatten.Sublist runs.flatten := by
    intro runs
    induction runs with
    | nil => exact List.Sublist.refl _
    | cons run runs ih => exact ((keepRun_suffix run).sublist).append ih
  have hdrop := (dropOverridden_suffix (groupRuns rules)).sublist.flatten
  rw [groupRuns, List.flatten_splitBy] at hdrop
  exact (hkeep _).trans hdrop

/-! ## The loop -/

/-- Before round `i` of the loop: `res` holds what the runs before the last
run of the first `i` rules keep, and `rules[j:i]` what the last run keeps,
all of whose rules are of the group of `rules[j]`. -/
def PrepareInv (rules : List Rule) (i : Nat) (st : List Rule × Nat) : Prop :=
  ∃ init last, groupRuns (rules.take i) = init ++ [last] ∧
    st.1 = ((if overridesGroups last then [] else dropOverridden init).map keepRun).flatten ∧
    (rules.drop st.2).take (i - st.2) = keepRun last ∧ st.2 < i ∧
    ∀ r ∈ last, r.groupID = (rules.getD st.2 default).groupID

theorem prepareInv_one {rules : List Rule} (hlen : 0 < rules.length) : PrepareInv rules 1 ([], 0) := by
  obtain ⟨r, rest, rfl⟩ := List.exists_cons_of_length_pos hlen
  refine ⟨[], [r], rfl, ?_, ?_, Nat.zero_lt_one, by simp⟩
  · cases overridesGroups [r] <;> rfl
  · simp [keepRun]

theorem take_drop_add_one {rules : List Rule} {i j : Nat} (hji : j ≤ i) (hi : i < rules.length) :
    (rules.drop j).take (i + 1 - j) = (rules.drop j).take (i - j) ++ [rules.getD i default] := by
  rw [show i + 1 - j = i - j + 1 by omega, List.take_add_one, List.getElem?_drop,
    show j + (i - j) = i by omega, List.getElem?_eq_getElem hi, List.getD_eq_getElem _ _ hi]
  rfl

theorem drop_take_one {rules : List Rule} {i : Nat} (hi : i < rules.length) :
    (rules.drop i).take 1 = [rules.getD i default] := by
  rw [List.getD_eq_getElem _ _ hi, List.drop_eq_getElem_cons hi]
  rfl

theorem prepareStep_of_new {rules res : List Rule} {i j : Nat}
    (h : (rules.getD j default).groupID ≠ (rules.getD i default).groupID) :
    prepareStep rules (res, j) i =
      (if (rules.getD i default).group.any (·.override) then [] else res ++ (rules.drop j).take (i - j), i) := by
  unfold prepareStep
  simp only [h, ne_eq, not_false_eq_true, if_true]
  split_ifs <;> rfl

theorem prepareStep_of_same {rules res : List Rule} {i j : Nat}
    (h : (rules.getD j default).groupID = (rules.getD i default).groupID) :
    prepareStep rules (res, j) i = (res, if (rules.getD i default).override then i else j) := by
  unfold prepareStep
  simp only [h, ne_eq, not_true_eq_false, if_false]

/-- One round of the loop keeps `PrepareInv`. A rule of another group starts a
run, after the last run's suffix or in place of every earlier run; an
overriding rule restarts its run's suffix. -/
theorem prepareInv_step {rules : List Rule} {i : Nat} {st : List Rule × Nat} (hi : i < rules.length)
    (hinv : PrepareInv rules i st) : PrepareInv rules (i + 1) (prepareStep rules st i) := by
  obtain ⟨res, j⟩ := st
  obtain ⟨init, last, hs, hres, hcur, hj, hgrp⟩ := hinv
  dsimp only at hres hcur hj hgrp
  have htake : rules.take (i + 1) = rules.take i ++ [rules.getD i default] := by
    rw [List.take_add_one, List.getElem?_eq_getElem hi, List.getD_eq_getElem _ _ hi]
    rfl
  have hlast : last ≠ [] := List.ne_nil_of_mem_splitBy (hs ▸ List.mem_append_right init (List.mem_singleton_self last))
  -- the last of the first `i` rules ends the last run
  have hgetLast : ∀ x ∈ (rules.take i).getLast?, x.groupID = (rules.getD j default).groupID := by
    intro x hx
    have hflat := List.flatten_splitBy sameGroup (rules.take i)
    rw [← groupRuns, hs, List.flatten_append, List.flatten_singleton] at hflat
    rw [← hflat, List.getLast?_append_of_ne_nil _ hlast] at hx
    exact hgrp x (List.mem_of_getLast? hx)
  by_cases hnew : (rules.getD j default).groupID ≠ (rules.getD i default).groupID
  · -- a new run
    have hruns : groupRuns (rules.take (i + 1)) = (init ++ [last]) ++ [[rules.getD i default]] := by
      rw [groupRuns, htake, List.splitBy_concat_of_not_rel fun x hx => by
        rw [sameGroup, hgetLast x hx, beq_eq_false_iff_ne]; exact hnew, ← groupRuns, hs]
    rw [prepareStep_of_new hnew]
    refine ⟨init ++ [last], [rules.getD i default], hruns, ?_, ?_, Nat.lt_succ_self i, by simp⟩
    · dsimp only
      have hg : overridesGroups [rules.getD i default] = (rules.getD i default).group.any (·.override) := rfl
      rw [dropOverridden_concat, hcur, hres, hg]
      split_ifs <;> simp
    · rw [Nat.add_sub_cancel_left, drop_take_one hi]
      simp [keepRun]
  · -- the same run
    rw [not_not] at hnew
    have hruns : groupRuns (rules.take (i + 1)) = init ++ [last ++ [rules.getD i default]] := by
      rw [groupRuns, htake]
      exact List.splitBy_concat_of_rel hs fun x hx => by rw [sameGroup, hgetLast x hx, hnew, beq_self_eq_true]
    rw [prepareStep_of_same hnew]
    refine ⟨init, last ++ [rules.getD i default], hruns, ?_, ?_, ?_, ?_⟩
    · rw [overridesGroups_append hlast]
      exact hres
    · dsimp only
      rw [keepRun_concat]
      split_ifs with hover
      · rw [Nat.add_sub_cancel_left, drop_take_one hi]
      · rw [take_drop_add_one (by omega) hi, hcur]
    · dsimp only
      split_ifs <;> omega
    · intro r hr
      dsimp only
      rcases List.mem_append.mp hr with hr | hr
      · split_ifs
        · rw [hgrp r hr, hnew]
        · exact hgrp r hr
      · rw [List.mem_singleton.mp hr]
        split_ifs
        · rfl
        · exact hnew.symm

/-- The loop keeps `PrepareInv` over every round. -/
theorem prepareInv_foldl {rules : List Rule} :
    ∀ k, k + 1 ≤ rules.length →
      PrepareInv rules (k + 1) ((List.range' 1 k).foldl (prepareStep rules) ([], 0))
  | 0, hk => prepareInv_one hk
  | k + 1, hk => by
    rw [List.range'_concat, List.foldl_append, List.foldl_cons, List.foldl_nil, Nat.one_mul, Nat.add_comm 1 k]
    exact prepareInv_step (by omega) (prepareInv_foldl k (by omega))

/-- `prepareRulesForApply` keeps the rules that overrides leave, in order. -/
theorem prepareRulesForApply_overrides (rules : List Rule) :
    prepareRulesForApply rules = overrideRules rules ∧ (prepareRulesForApply rules).Sublist rules := by
  suffices h : prepareRulesForApply rules = overrideRules rules from ⟨h, h ▸ overrideRules_sublist rules⟩
  cases hlen : rules.length with
  | zero =>
    rw [List.eq_nil_of_length_eq_zero hlen]
    rfl
  | succ n =>
    have hinv := @prepareInv_foldl rules n (by omega)
    rw [prepareRulesForApply, hlen, Nat.add_sub_cancel]
    generalize (List.range' 1 n).foldl (prepareStep rules) ([], 0) = st at hinv ⊢
    obtain ⟨res, j⟩ := st
    obtain ⟨init, last, hs, hres, hcur, hj, -⟩ := hinv
    dsimp only at hres hcur hj ⊢
    rw [List.take_of_length_le (l := rules) (by omega)] at hs
    rw [List.take_of_length_le (l := rules.drop j) (by simp; omega)] at hcur
    rw [overrideRules_eq hs, hres, hcur]

end MatrixCube.Prophet.Placement
