import MatrixCube.Prophet.Placement.Fit
import MatrixCube.Lib.ListWindow

/-! # The search of `FitResource`

`compareRuleFit` is the lexicographic order on the key `(peer count, peers
of a different role reversed, isolation score)`, and `CompareResourceFit`
compares lists of present rule fits lexicographically by their keys.
`enumPeers` hands each selection of `min(Count, len(candidates))` candidates
to `compareBest`, in the order of `combos`; `Explores` collects the selections
so tried for every rule, and `Assigns` the assignments of peers to rules among
which `FitResource` looks for a best fit.

A call of `fitRule` at `index` finds the stored rule fits from `index` on
either still the best (`Outcome.kept`) or replaced by those of an explored
selection with the greatest keys (`Outcome.improved`). It is proved by
induction on the rules left: one level is a fold of `compareBest` over the
selections of its rule, and `LevelInv` is what the fold keeps. With every
`Count` non-negative each rule has a selection to try; a negative `Count`
makes `enumPeers` try none.
-/

namespace MatrixCube.Prophet.Placement

/-! ## The order of rule fits -/

/-- What `compareRuleFit` compares, in order: more peers, fewer peers of a
different role, a greater isolation score. -/
abbrev FitKey := ℕ ×ₗ ℕᵒᵈ ×ₗ ℚ

def RuleFit.key (rf : RuleFit) : FitKey :=
  toLex (rf.peers.length, toLex (OrderDual.toDual rf.peersWithDifferentRole.length, rf.isolationScore))

theorem compareRuleFit_eq (a b : RuleFit) :
    compareRuleFit a b = if a.key < b.key then -1 else if b.key < a.key then 1 else 0 := by
  simp only [compareRuleFit, RuleFit.key, Prod.Lex.toLex_lt_toLex, OrderDual.toDual_lt_toDual,
    OrderDual.toDual_inj]
  generalize a.peers.length = a1, b.peers.length = b1, a.peersWithDifferentRole.length = a2,
    b.peersWithDifferentRole.length = b2, a.isolationScore = a3, b.isolationScore = b3
  rcases lt_trichotomy a1 b1 with h1 | rfl | h1
  · simp [h1, h1.ne]
  · rcases lt_trichotomy a2 b2 with h2 | rfl | h2
    · simp [h2, h2.ne, not_lt_of_gt h2]
    · rcases lt_trichotomy a3 b3 with h3 | rfl | h3
      · simp [h3]
      · simp
      · simp [h3]
    · simp [h2, h2.ne']
  · simp [h1, h1.ne', not_lt_of_gt h1]

/-- On rule fits that are all present, the loop of `CompareResourceFit`
compares their keys lexicographically. -/
theorem compareRuleFits_map_some :
    ∀ (X Y : List RuleFit), X.length = Y.length →
      compareRuleFits (X.map some) (Y.map some) =
        some (if X.map RuleFit.key < Y.map RuleFit.key then -1
          else if Y.map RuleFit.key < X.map RuleFit.key then 1 else 0)
  | [], [], _ => by simp [compareRuleFits]
  | [], _ :: _, h | _ :: _, [], h => by simp at h
  | x :: X, y :: Y, h => by
    have ih := compareRuleFits_map_some X Y (by simpa using h)
    simp only [List.map_cons, compareRuleFits, compareRuleFit_eq, List.cons_lt_cons_iff]
    rcases lt_trichotomy x.key y.key with hlt | heq | hgt
    · simp [hlt]
    · simp [heq, ih]
    · simp [hgt, not_lt_of_gt hgt, hgt.ne']

/-- The rule fits of the selections `E` for the rules from `index` on. -/
def fitsOf (rules : List Rule) (index : Nat) (E : List (List FitPeer)) : List RuleFit :=
  List.zipWith newRuleFit (rules.drop index) E

/-- What the search reads and never changes. -/
structure FitProblem where
  containers : List ContainerLabels
  peers : List FitPeer
  rules : List Rule

def FitWorker.problem (w : FitWorker) : FitProblem := ⟨w.containers, w.peers, w.rules⟩

/-- The candidates of a rule, as a worker on the problem finds them. -/
def FitProblem.candidates (pb : FitProblem) (path : List FitPeer) (rule : Rule) : List FitPeer :=
  FitWorker.candidates ⟨pb.containers, ⟨[], []⟩, pb.peers, pb.rules⟩ path rule

theorem FitWorker.candidates_eq (w : FitWorker) : w.candidates = w.problem.candidates := rfl

/-- The selections the search tries for the rules from `index` on, after the
peers `path`: for each rule, `min(Count, len(candidates))` of its candidates. -/
inductive Explores (pb : FitProblem) : List FitPeer → Nat → List (List FitPeer) → Prop
  | done {path : List FitPeer} {index : Nat} : pb.rules.length ≤ index → Explores pb path index []
  | pick {path : List FitPeer} {index : Nat} {rule : Rule} {sel : List FitPeer} {rest : List (List FitPeer)} :
      pb.rules[index]? = some rule → sel.Sublist (pb.candidates path rule) →
      (sel.length : Int) = min rule.count (pb.candidates path rule).length →
      Explores pb (path ++ sel) (index + 1) rest → Explores pb path index (sel :: rest)

/-- The enumeration of `enumPeers`: the selections that complete `selected`
to `count` peers, in the order it visits them. -/
def combos (count : Int) : List FitPeer → List FitPeer → List (List FitPeer)
  | candidates, selected =>
    if (selected.length : Int) = count then [selected]
    else
      match candidates with
      | [] => []
      | p :: rest => combos count rest (selected ++ [p]) ++ combos count rest selected

/-- One selection handed to `cb`, the improvements accumulated. -/
def cbStep (cb : FitWorker → List FitPeer → FitWorker × Bool) (r : FitWorker × Bool) (sel : List FitPeer) :
    FitWorker × Bool :=
  ((cb r.1 sel).1, (cb r.1 sel).2 || r.2)

theorem foldl_cbStep (cb : FitWorker → List FitPeer → FitWorker × Bool) :
    ∀ (L : List (List FitPeer)) (w : FitWorker) (b : Bool),
      L.foldl (cbStep cb) (w, b) = ((L.foldl (cbStep cb) (w, false)).1, (L.foldl (cbStep cb) (w, false)).2 || b)
  | [], _, _ => by simp
  | sel :: L, w, b => by
    simp only [List.foldl_cons, cbStep]
    rw [foldl_cbStep cb L _ ((cb w sel).2 || b), foldl_cbStep cb L _ ((cb w sel).2 || false)]
    simp [Bool.or_assoc]

/-- `enumPeers` hands each selection of `combos` to `cb`, in order. -/
theorem enumPeers_eq (cb : FitWorker → List FitPeer → FitWorker × Bool) (count : Int) :
    ∀ (candidates selected : List FitPeer) (w : FitWorker),
      enumPeers cb count w candidates selected = (combos count candidates selected).foldl (cbStep cb) (w, false)
  | candidates, selected, w => by
    unfold enumPeers combos
    split_ifs with h
    · simp [cbStep]
    · cases candidates with
      | nil => rfl
      | cons p rest =>
        simp only [List.foldl_append]
        rw [enumPeers_eq cb count rest (selected ++ [p]) w, foldl_cbStep cb (combos count rest selected),
          ← enumPeers_eq cb count rest selected]

theorem mem_combos (count : Int) :
    ∀ (candidates selected S : List FitPeer),
      S ∈ combos count candidates selected ↔
        ∃ T, T.Sublist candidates ∧ S = selected ++ T ∧ (S.length : Int) = count
  | candidates, selected, S => by
    unfold combos
    split_ifs with h
    · constructor
      · intro hS
        rw [List.mem_singleton] at hS
        exact ⟨[], List.nil_sublist _, by simp [hS], hS ▸ h⟩
      · rintro ⟨T, -, rfl, hlen⟩
        have hT : T = [] := List.eq_nil_of_length_eq_zero (by simp at hlen; omega)
        simp [hT]
    · cases candidates with
      | nil =>
        simp only [List.not_mem_nil, false_iff]
        rintro ⟨T, hT, rfl, hlen⟩
        rw [List.sublist_nil.mp hT, List.append_nil] at hlen
        exact h hlen
      | cons p rest =>
        rw [List.mem_append, mem_combos count rest (selected ++ [p]) S, mem_combos count rest selected S]
        constructor
        · rintro (⟨T, hT, rfl, hlen⟩ | ⟨T, hT, rfl, hlen⟩)
          · exact ⟨p :: T, hT.cons_cons p, by simp, by simpa using hlen⟩
          · exact ⟨T, hT.cons p, rfl, hlen⟩
        · rintro ⟨T, hT, rfl, hlen⟩
          rcases List.sublist_cons_iff.mp hT with hT | ⟨T', rfl, hT'⟩
          · exact .inr ⟨T, hT, rfl, hlen⟩
          · exact .inl ⟨T', hT', by simp, by simpa using hlen⟩

/-! ## What the search keeps -/

/-- The keys of the rule fits of `E` for the rules from `index` on. -/
def keysOf (rules : List Rule) (index : Nat) (E : List (List FitPeer)) : List FitKey :=
  (fitsOf rules index E).map RuleFit.key

/-- The rule fits from `index` on are all nil. -/
def Blank (w : FitWorker) (index : Nat) : Prop :=
  w.bestFit.ruleFits.drop index = List.replicate (w.rules.length - index) none

/-- The rule fits from `index` on are those of `V`. -/
def Stores (w : FitWorker) (index : Nat) (V : List RuleFit) : Prop :=
  w.bestFit.ruleFits.drop index = V.map some

/-- The orphans when the peers `flags` are selected. -/
def orphansOf (peers flags : List FitPeer) : List Peer :=
  (peers.filter fun p => p ∉ flags).map (·.peer)

/-- The worker after a strict improvement `rf` at `index`: the rule fits after
it are reset to nil. -/
def FitWorker.reset (w : FitWorker) (index : Nat) (rf : RuleFit) : FitWorker :=
  { w with bestFit.ruleFits := resetFrom (index + 1) (w.bestFit.ruleFits.set index (some rf)) }

/-- The worker holding the rule fits `fits` from `index` on, and the orphans of
the selected peers `flags`. -/
def FitWorker.install (w : FitWorker) (index : Nat) (fits : List RuleFit) (flags : List FitPeer) : FitWorker :=
  { w with bestFit := ⟨w.bestFit.ruleFits.take index ++ fits.map some, orphansOf w.peers flags⟩ }

/-- How `fitRule` at `index` after `path` leaves the worker `w` on the problem
`pb`: as it was, when no selection beats the stored rule fits; or holding the
rule fits and orphans of a selection with the greatest keys, which beats what
was stored. -/
inductive Outcome (pb : FitProblem) (w : FitWorker) (path : List FitPeer) (index : Nat) : FitWorker × Bool → Prop
  | kept {V : List RuleFit} : Stores w index V →
      (∀ E, Explores pb path index E → keysOf pb.rules index E ≤ V.map RuleFit.key) →
      Outcome pb w path index (w, false)
  | improved {E : List (List FitPeer)} : Explores pb path index E →
      (∀ E', Explores pb path index E' → keysOf pb.rules index E' ≤ keysOf pb.rules index E) →
      (index < pb.rules.length ∧ Blank w index ∨ ∃ V, Stores w index V ∧ V.map RuleFit.key < keysOf pb.rules index E) →
      Outcome pb w path index (w.install index (fitsOf pb.rules index E) (path ++ E.flatten), true)

/-- What `enumPeers` at `index` has found after trying the selections `L`,
from the worker `w` it started with. -/
def LevelInv (pb : FitProblem) (w : FitWorker) (path : List FitPeer) (index : Nat) (L : List (List FitPeer))
    (r : FitWorker × Bool) : Prop :=
  (r = (w, false) ∧ ∀ S ∈ L, ∀ E, Explores pb (path ++ S) (index + 1) E →
      ∃ V, Stores w index V ∧ keysOf pb.rules index (S :: E) ≤ V.map RuleFit.key) ∨
  (∃ S ∈ L, ∃ E, Explores pb (path ++ S) (index + 1) E ∧
      r = (w.install index (fitsOf pb.rules index (S :: E)) (path ++ (S :: E).flatten), true) ∧
      (∀ S' ∈ L, ∀ E', Explores pb (path ++ S') (index + 1) E' →
        keysOf pb.rules index (S' :: E') ≤ keysOf pb.rules index (S :: E)) ∧
      (Blank w index ∨ ∃ V, Stores w index V ∧ V.map RuleFit.key < keysOf pb.rules index (S :: E)))

/-- `next` searches the rules from `index` on, as `Outcome` says. -/
def Searches (pb : FitProblem) (next : FitWorker → List FitPeer → FitWorker × Bool) (index : Nat) : Prop :=
  ∀ (w : FitWorker) (path : List FitPeer), w.problem = pb → w.bestFit.ruleFits.length = pb.rules.length →
    (Blank w index ∨ ∃ V, Stores w index V) → Outcome pb w path index (next w path)

/-- An assignment of peers to the rules from `index` on, after the peers
`path` went to the rules before: each rule gets at most `Count` of the peers,
each matching its label constraints and loose role and taken by no earlier
rule. A set of peers is listed in the order of the worker's peers. -/
inductive Assigns (pb : FitProblem) : List FitPeer → Nat → List (List FitPeer) → Prop
  | done {path : List FitPeer} {index : Nat} : pb.rules.length ≤ index → Assigns pb path index []
  | pick {path : List FitPeer} {index : Nat} {rule : Rule} {sel : List FitPeer} {rest : List (List FitPeer)} :
      pb.rules[index]? = some rule → sel.Sublist pb.peers →
      (∀ p ∈ sel, matchOptLabelConstraints p.container rule.labelConstraints = true ∧
        p.matchRoleLoose rule.role = true ∧ p ∉ path) →
      (sel.length : Int) ≤ rule.count → Assigns pb (path ++ sel) (index + 1) rest → Assigns pb path index (sel :: rest)

section Search

variable {pb : FitProblem} {path : List FitPeer} {index : Nat}

theorem fitsOf_cons {rules : List Rule} {rule : Rule} (h : rules[index]? = some rule) (S : List FitPeer)
    (E : List (List FitPeer)) : fitsOf rules index (S :: E) = newRuleFit rule S :: fitsOf rules (index + 1) E := by
  obtain ⟨hlt, hget⟩ := List.getElem?_eq_some_iff.mp h
  rw [fitsOf, List.drop_eq_getElem_cons hlt, hget, List.zipWith_cons_cons]
  rfl

theorem keysOf_cons {rules : List Rule} {rule : Rule} (h : rules[index]? = some rule) (S : List FitPeer)
    (E : List (List FitPeer)) : keysOf rules index (S :: E) = (newRuleFit rule S).key :: keysOf rules (index + 1) E := by
  simp [keysOf, fitsOf_cons h]

theorem length_fitsOf {rules : List Rule} (E : List (List FitPeer)) :
    (fitsOf rules index E).length = min (rules.length - index) E.length := by
  simp [fitsOf]

theorem explores_at_end {E : List (List FitPeer)} (hle : pb.rules.length ≤ index) (h : Explores pb path index E) :
    E = [] := by
  cases h with
  | done => rfl
  | pick hrule => exact absurd (List.getElem?_eq_some_iff.mp hrule).1 (by omega)

/-- With counts not negative, every rule has a selection to try. -/
theorem explores_nonempty (hcount : ∀ r ∈ pb.rules, 0 ≤ r.count) :
    ∀ (m : Nat) (path : List FitPeer) (index : Nat), pb.rules.length - index = m → ∃ E, Explores pb path index E
  | 0, _, _, hm => ⟨[], .done (by omega)⟩
  | m + 1, path, index, hm => by
    obtain ⟨rule, hrule⟩ : ∃ rule, pb.rules[index]? = some rule :=
      ⟨pb.rules[index], List.getElem?_eq_getElem (by omega)⟩
    have hc := hcount rule (List.mem_of_getElem? hrule)
    -- the first `min(Count, len(candidates))` candidates
    obtain ⟨E, hE⟩ := explores_nonempty hcount m
      (path ++ (pb.candidates path rule).take (min rule.count (pb.candidates path rule).length).toNat) (index + 1)
      (by omega)
    refine ⟨_ :: E, .pick hrule (List.take_sublist _ _) ?_ hE⟩
    have h0 : 0 ≤ min rule.count ((pb.candidates path rule).length : Int) := le_min hc (Int.natCast_nonneg _)
    rw [List.length_take, Nat.cast_min, Int.toNat_of_nonneg h0]
    omega

/-! ### Assignments -/

theorem mem_candidates {rule : Rule} {p : FitPeer} (h : p ∈ pb.candidates path rule) :
    p ∈ pb.peers ∧ (matchOptLabelConstraints p.container rule.labelConstraints = true ∧
      p.matchRoleLoose rule.role = true ∧ p ∉ path) := by
  unfold FitProblem.candidates FitWorker.candidates at h
  split_ifs at h
  · simpa [List.mem_filter, and_assoc] using h
  · simp at h

theorem candidates_sublist (rule : Rule) : (pb.candidates path rule).Sublist pb.peers := by
  unfold FitProblem.candidates FitWorker.candidates
  split_ifs
  · exact List.filter_sublist
  · exact List.nil_sublist _

/-- The search tries assignments only. -/
theorem Explores.assigns {E : List (List FitPeer)} (h : Explores pb path index E) : Assigns pb path index E := by
  induction h with
  | done hle => exact .done hle
  | pick hrule hsub hlen _ ih =>
    refine .pick hrule (hsub.trans (candidates_sublist _)) (fun p hp => (mem_candidates (hsub.subset hp)).2) ?_ ih
    rw [hlen]
    exact min_le_left _ _

theorem Assigns.length_eq {A : List (List FitPeer)} (h : Assigns pb path index A) :
    A.length = pb.rules.length - index := by
  induction h with
  | done hle => simp; omega
  | pick hrule _ _ _ _ ih =>
    have := (List.getElem?_eq_some_iff.mp hrule).1
    simp [ih]; omega

theorem Explores.length_eq {E : List (List FitPeer)} (h : Explores pb path index E) :
    E.length = pb.rules.length - index :=
  h.assigns.length_eq

/-! ### The stored rule fits -/

variable {w : FitWorker}

theorem stores_install {F : List RuleFit} {flags : List FitPeer} (h : index ≤ w.bestFit.ruleFits.length) :
    Stores (w.install index F flags) index F := by
  simp [Stores, FitWorker.install, h]

theorem install_install {F F' : List RuleFit} {flags flags' : List FitPeer} (h : index ≤ w.bestFit.ruleFits.length) :
    (w.install index F flags).install index F' flags' = w.install index F' flags' := by
  simp [FitWorker.install, h]

theorem length_install {F : List RuleFit} {flags : List FitPeer} (h : index ≤ w.bestFit.ruleFits.length) :
    (w.install index F flags).bestFit.ruleFits.length = index + F.length := by
  simp [FitWorker.install, h]

theorem stores_cons {v : RuleFit} {V : List RuleFit} (h : Stores w index (v :: V)) :
    w.bestFit.ruleFits[index]? = some (some v) ∧ Stores w (index + 1) V := by
  unfold Stores at h ⊢
  constructor
  · have h0 : (w.bestFit.ruleFits.drop index)[0]? = some (some v) := by rw [h]; rfl
    simpa using h0
  · rw [← List.drop_drop, h]
    rfl

theorem stores_unique {V V' : List RuleFit} (h : Stores w index V) (h' : Stores w index V') : V = V' :=
  List.map_injective_iff.mpr (Option.some_injective _) (h.symm.trans h')

theorem not_blank_of_stores {V : List RuleFit} (hlt : index < w.rules.length) (hb : Blank w index)
    (hs : Stores w index V) : False := by
  unfold Blank Stores at *
  rw [hb] at hs
  obtain ⟨k, hk⟩ : ∃ k, w.rules.length - index = k + 1 := ⟨_, (Nat.succ_pred_eq_of_pos (by omega)).symm⟩
  cases V with
  | nil => simp [hk] at hs
  | cons v V => simp [hk, List.replicate_succ] at hs

theorem blank_get (hlt : index < w.rules.length) (hb : Blank w index) :
    w.bestFit.ruleFits[index]? = some none := by
  unfold Blank at hb
  obtain ⟨k, hk⟩ : ∃ k, w.rules.length - index = k + 1 := ⟨_, (Nat.succ_pred_eq_of_pos (by omega)).symm⟩
  have h0 : (w.bestFit.ruleFits.drop index)[0]? = some none := by rw [hb, hk]; rfl
  simpa using h0

theorem stores_at_end (hlen : w.bestFit.ruleFits.length = w.rules.length) : Stores w w.rules.length [] := by
  simp [Stores, hlen]

@[simp] theorem install_rules {F : List RuleFit} {flags : List FitPeer} :
    (w.install index F flags).rules = w.rules := rfl

theorem length_resetFrom {i : Nat} {fits : List (Option RuleFit)} (h : i ≤ fits.length) :
    (resetFrom i fits).length = fits.length := by
  simp [resetFrom]
  omega

theorem blank_reset {rf : RuleFit} (hlt : index < w.bestFit.ruleFits.length)
    (hlen : w.bestFit.ruleFits.length = w.rules.length) : Blank (w.reset index rf) (index + 1) := by
  unfold Blank FitWorker.reset resetFrom
  rw [List.drop_left' (by simp; omega), List.length_set, hlen]

theorem length_reset {rf : RuleFit} (hlt : index < w.bestFit.ruleFits.length) :
    (w.reset index rf).bestFit.ruleFits.length = w.bestFit.ruleFits.length := by
  rw [FitWorker.reset, length_resetFrom (by simp; omega), List.length_set]

theorem install_reset {rf : RuleFit} {F : List RuleFit} {flags : List FitPeer} (hlt : index < w.bestFit.ruleFits.length) :
    (w.reset index rf).install (index + 1) F flags = w.install index (rf :: F) flags := by
  unfold FitWorker.install FitWorker.reset resetFrom
  rw [List.take_add_one_set _ hlt, List.take_left' (by simp; omega)]
  simp

theorem set_install {rf : RuleFit} {F : List RuleFit} {flags : List FitPeer} (hlt : index < w.bestFit.ruleFits.length) :
    { w.install (index + 1) F flags with
        bestFit.ruleFits := (w.install (index + 1) F flags).bestFit.ruleFits.set index (some rf) } =
      w.install index (rf :: F) flags := by
  simp only [FitWorker.install]
  rw [List.set_append_left _ _ (by simp; omega), ← List.take_set, List.take_add_one_set _ hlt]
  simp

theorem updateOrphanPeers_install {F : List RuleFit} {flags : List FitPeer} (j : Nat) :
    (w.install index F flags).updateOrphanPeers flags j = w.install index F flags := by
  unfold FitWorker.updateOrphanPeers
  split_ifs <;> rfl

theorem updateOrphanPeers_at_end (hlen : w.bestFit.ruleFits.length = w.rules.length) (flags : List FitPeer) :
    w.updateOrphanPeers flags w.rules.length = w.install w.rules.length [] flags := by
  simp [FitWorker.updateOrphanPeers, FitWorker.install, ← hlen, orphansOf]

theorem updateOrphanPeers_of_ne {flags : List FitPeer} {j : Nat} (h : j ≠ w.rules.length) :
    w.updateOrphanPeers flags j = w := if_pos h

/-! ### One selection -/

variable {next : FitWorker → List FitPeer → FitWorker × Bool} {rule : Rule} {S : List FitPeer}

/-- A selection that beats the stored rule fit, or meets none, resets the rule
fits after it and searches on. -/
theorem compareBest_of_better
    (h : ∀ v, w.bestFit.ruleFits[index]? = some (some v) → compareRuleFit (newRuleFit rule S) v = 1) :
    w.compareBest next path S index rule =
      ((next (w.reset index (newRuleFit rule S)) (path ++ S)).1.updateOrphanPeers (path ++ S) (index + 1), true) := by
  unfold FitWorker.compareBest
  rcases hget : w.bestFit.ruleFits[index]? with _ | _ | v
  · rfl
  · rfl
  · simp [h v hget]
    rfl

/-- A selection as good as the stored rule fit is kept when the search after
it improves. -/
theorem compareBest_of_tie {v : RuleFit} (hget : w.bestFit.ruleFits[index]? = some (some v))
    (h : compareRuleFit (newRuleFit rule S) v = 0) :
    w.compareBest next path S index rule =
      if (next w (path ++ S)).2 then
        ({ (next w (path ++ S)).1 with
          bestFit.ruleFits := (next w (path ++ S)).1.bestFit.ruleFits.set index (some (newRuleFit rule S)) }, true)
      else ((next w (path ++ S)).1, false) := by
  unfold FitWorker.compareBest
  simp [hget, h]

theorem compareBest_of_worse {v : RuleFit} (hget : w.bestFit.ruleFits[index]? = some (some v))
    (h : compareRuleFit (newRuleFit rule S) v = -1) :
    w.compareBest next path S index rule = (w, false) := by
  unfold FitWorker.compareBest
  simp [hget, h]

/-- From rule fits that are nil from `index` on (after a strict improvement
before `index`, or at the start), whatever the search finds is installed, its
orphans included. -/
theorem outcome_of_blank {w' : FitWorker} {r : FitWorker × Bool} (hle : index ≤ pb.rules.length)
    (hr : w'.rules = pb.rules) (hlen : w'.bestFit.ruleFits.length = pb.rules.length)
    (hb : Blank w' index) (ho : Outcome pb w' path index r) :
    ∃ E, Explores pb path index E ∧
      (∀ E', Explores pb path index E' → keysOf pb.rules index E' ≤ keysOf pb.rules index E) ∧
      r.1.updateOrphanPeers path index = w'.install index (fitsOf pb.rules index E) (path ++ E.flatten) := by
  cases ho with
  | kept hs _ =>
    -- a blank tail stores rule fits only past the last rule
    have hend : index = pb.rules.length := by
      by_contra hne
      exact not_blank_of_stores (by rw [hr]; omega) hb hs
    refine ⟨[], .done (by omega), fun E' hE' => by rw [explores_at_end (by omega) hE'], ?_⟩
    rw [hend, ← hr, updateOrphanPeers_at_end (by rw [hlen, hr])]
    simp [fitsOf]
  | improved hE hmax _ =>
    refine ⟨_, hE, hmax, ?_⟩
    by_cases hend : index = pb.rules.length
    · obtain rfl := explores_at_end (by omega) hE
      simp only [List.flatten_nil, List.append_nil]
      exact updateOrphanPeers_install _
    · exact updateOrphanPeers_of_ne (by rw [install_rules, hr]; exact hend)

theorem levelInv_of_install {E : List (List FitPeer)} (hrule : pb.rules[index]? = some rule)
    (hE : Explores pb (path ++ S) (index + 1) E)
    (hmax : ∀ E', Explores pb (path ++ S) (index + 1) E' →
      keysOf pb.rules (index + 1) E' ≤ keysOf pb.rules (index + 1) E)
    (hbeat : Blank w index ∨ ∃ V, Stores w index V ∧ V.map RuleFit.key < keysOf pb.rules index (S :: E)) :
    LevelInv pb w path index [S]
      (w.install index (newRuleFit rule S :: fitsOf pb.rules (index + 1) E) (path ++ S ++ E.flatten), true) := by
  refine .inr ⟨S, List.mem_singleton_self S, E, hE, ?_, ?_, hbeat⟩
  · rw [fitsOf_cons hrule, List.flatten_cons, List.append_assoc]
  · intro S' hS' E' hE'
    rw [List.mem_singleton] at hS'
    subst hS'
    rw [keysOf_cons hrule, keysOf_cons hrule, List.lex_cons_le_cons_iff]
    exact .inr ⟨rfl, hmax E' hE'⟩

theorem levelInv_of_better (hw : w.problem = pb) (hrule : pb.rules[index]? = some rule)
    (hlen : w.bestFit.ruleFits.length = pb.rules.length) (hnext : Searches pb next (index + 1))
    (hbetter : ∀ v, w.bestFit.ruleFits[index]? = some (some v) → compareRuleFit (newRuleFit rule S) v = 1)
    (hbeat : Blank w index ∨ ∃ v V, Stores w index (v :: V) ∧ v.key < (newRuleFit rule S).key) :
    LevelInv pb w path index [S] (w.compareBest next path S index rule) := by
  have hr : w.rules = pb.rules := congrArg FitProblem.rules hw
  have hlt : index < w.bestFit.ruleFits.length := hlen ▸ (List.getElem?_eq_some_iff.mp hrule).1
  have hb : Blank (w.reset index (newRuleFit rule S)) (index + 1) := blank_reset hlt (by rw [hlen, hr])
  have hlen' : (w.reset index (newRuleFit rule S)).bestFit.ruleFits.length = pb.rules.length :=
    (length_reset hlt).trans hlen
  rw [compareBest_of_better hbetter]
  have ho := hnext (w.reset index (newRuleFit rule S)) (path ++ S) hw hlen' (.inl hb)
  obtain ⟨E, hE, hmax, heq⟩ := outcome_of_blank (by omega) (show (w.reset index _).rules = pb.rules from hr) hlen' hb ho
  rw [heq, install_reset hlt]
  refine levelInv_of_install hrule hE hmax ?_
  rcases hbeat with hb | ⟨v, V, hs, hv⟩
  · exact .inl hb
  · refine .inr ⟨v :: V, hs, ?_⟩
    rw [keysOf_cons hrule, List.map_cons, List.cons_lt_cons_iff]
    exact .inl hv

/-- One call of `compareBest` from a worker that stores rule fits from `index`
on, or none. -/
theorem compareBest_levelInv (hw : w.problem = pb) (hrule : pb.rules[index]? = some rule)
    (hlen : w.bestFit.ruleFits.length = pb.rules.length) (hstored : Blank w index ∨ ∃ V, Stores w index V)
    (hnext : Searches pb next (index + 1)) :
    LevelInv pb w path index [S] (w.compareBest next path S index rule) := by
  have hr : w.rules = pb.rules := congrArg FitProblem.rules hw
  have hlt : index < pb.rules.length := (List.getElem?_eq_some_iff.mp hrule).1
  rcases hstored with hb | ⟨_ | ⟨v, V⟩, hs⟩
  · -- nothing is stored, so the selection is better
    have hget := blank_get (hr ▸ hlt) hb
    exact levelInv_of_better hw hrule hlen hnext (fun v h => by simp [hget] at h) (.inl hb)
  · have := List.drop_eq_nil_iff.mp hs
    omega
  obtain ⟨hget, hs'⟩ := stores_cons hs
  have hcmp := compareRuleFit_eq (newRuleFit rule S) v
  rcases lt_trichotomy (newRuleFit rule S).key v.key with hworse | heq | hbetter
  · rw [if_pos hworse] at hcmp
    rw [compareBest_of_worse hget hcmp]
    refine .inl ⟨rfl, fun S' hS' E' _ => ⟨v :: V, hs, ?_⟩⟩
    rw [List.mem_singleton] at hS'
    subst hS'
    rw [keysOf_cons hrule, List.map_cons, List.lex_cons_le_cons_iff]
    exact .inl hworse
  · rw [heq, if_neg (lt_irrefl _), if_neg (lt_irrefl _)] at hcmp
    rw [compareBest_of_tie hget hcmp]
    have ho := hnext w (path ++ S) hw hlen (.inr ⟨V, hs'⟩)
    generalize next w (path ++ S) = nr at ho ⊢
    cases ho with
    | kept hsV hle =>
      refine .inl ⟨rfl, fun S' hS' E' hE' => ⟨v :: V, hs, ?_⟩⟩
      rw [List.mem_singleton] at hS'
      subst hS'
      rw [keysOf_cons hrule, List.map_cons, heq, List.lex_cons_le_cons_iff, stores_unique hs' hsV]
      exact .inr ⟨rfl, hle E' hE'⟩
    | improved hE hmax hbeat =>
      rw [if_pos rfl]
      dsimp only
      rw [set_install (by omega)]
      refine levelInv_of_install hrule hE hmax (.inr ⟨v :: V, hs, ?_⟩)
      rw [keysOf_cons hrule, List.map_cons, List.cons_lt_cons_iff, heq]
      rcases hbeat with ⟨hlt', hb⟩ | ⟨V', hsV', hV'⟩
      · exact (not_blank_of_stores (by rw [hr]; exact hlt') hb hs').elim
      · exact .inr ⟨rfl, stores_unique hs' hsV' ▸ hV'⟩
  · refine levelInv_of_better hw hrule hlen hnext (fun v' h => ?_) (.inr ⟨v, V, hs, hbetter⟩)
    rw [hget, Option.some_inj, Option.some_inj] at h
    subst h
    rw [hcmp, if_neg (not_lt_of_gt hbetter), if_pos hbetter]

/-! ### One level of the search -/

theorem levelInv_nil : LevelInv pb w path index [] (w, false) :=
  .inl ⟨rfl, by simp⟩

/-- The worker between two calls of `compareBest` is the one `enumPeers`
started with, or that worker holding a selection's rule fits. -/
theorem LevelInv.worker {L : List (List FitPeer)} {r : FitWorker × Bool} (hlt : index < pb.rules.length)
    (hw : w.problem = pb)
    (hlen : w.bestFit.ruleFits.length = pb.rules.length) (hstored : Blank w index ∨ ∃ V, Stores w index V)
    (hinv : LevelInv pb w path index L r) :
    r.1.problem = pb ∧ r.1.bestFit.ruleFits.length = pb.rules.length ∧ (Blank r.1 index ∨ ∃ V, Stores r.1 index V) := by
  rcases hinv with ⟨rfl, -⟩ | ⟨S, -, E, hE, rfl, -, -⟩
  · exact ⟨hw, hlen, hstored⟩
  · have hle : index ≤ w.bestFit.ruleFits.length := by omega
    refine ⟨hw, ?_, .inr ⟨_, stores_install hle⟩⟩
    rw [length_install hle, length_fitsOf, List.length_cons, hE.length_eq]
    omega

/-- The selections tried so far and one more: what the last call of
`compareBest` found combines with what the earlier ones did. -/
theorem levelInv_snoc {L : List (List FitPeer)} {r r' : FitWorker × Bool} (hlt : index < pb.rules.length)
    (hr : w.rules = pb.rules) (hlen : w.bestFit.ruleFits.length = pb.rules.length)
    (hinv : LevelInv pb w path index L r) (hS : LevelInv pb r.1 path index [S] r') :
    LevelInv pb w path index (L ++ [S]) (r'.1, r'.2 || r.2) := by
  have hle : index ≤ w.bestFit.ruleFits.length := by omega
  rcases hinv with ⟨rfl, hdom⟩ | ⟨S₀, hS₀, E₀, hE₀, rfl, hmax₀, hbeat₀⟩
  · rcases hS with ⟨rfl, hdomS⟩ | ⟨S', hS', E, hE, rfl, hmax, hbeat⟩
    · -- nothing beat the stored rule fits
      refine .inl ⟨rfl, fun S' hS' => ?_⟩
      rcases List.mem_append.mp hS' with hL | hS'
      · exact hdom S' hL
      · exact hdomS S' hS'
    · -- the first improvement
      refine .inr ⟨S', List.mem_append_right L hS', E, hE, rfl, fun S'' hS'' E' hE' => ?_, hbeat⟩
      rcases List.mem_append.mp hS'' with hL | hS''
      · obtain ⟨V, hs, hle'⟩ := hdom S'' hL E' hE'
        rcases hbeat with hb | ⟨V', hs', hlt'⟩
        · exact (not_blank_of_stores (by rw [hr]; exact hlt) hb hs).elim
        · rw [stores_unique hs hs'] at hle'
          exact hle'.trans hlt'.le
      · exact hmax S'' hS'' E' hE'
  · have hs₀ : Stores (w.install index (fitsOf pb.rules index (S₀ :: E₀)) (path ++ (S₀ :: E₀).flatten)) index
        (fitsOf pb.rules index (S₀ :: E₀)) := stores_install hle
    rcases hS with ⟨rfl, hdomS⟩ | ⟨S', hS', E, hE, rfl, hmax, hbeat⟩
    · -- the selection found before stays the best
      refine .inr ⟨S₀, List.mem_append_left [S] hS₀, E₀, hE₀, rfl, fun S'' hS'' E' hE' => ?_, hbeat₀⟩
      rcases List.mem_append.mp hS'' with hL | hS''
      · exact hmax₀ S'' hL E' hE'
      · obtain ⟨V, hs, hle'⟩ := hdomS S'' hS'' E' hE'
        rwa [stores_unique hs hs₀] at hle'
    · -- a later selection beats it
      have hlt' : (fitsOf pb.rules index (S₀ :: E₀)).map RuleFit.key < keysOf pb.rules index (S' :: E) := by
        rcases hbeat with hb | ⟨V, hs, hlt'⟩
        · exact (not_blank_of_stores (by rw [install_rules, hr]; exact hlt) hb hs₀).elim
        · rwa [stores_unique hs hs₀] at hlt'
      refine .inr ⟨S', List.mem_append_right L hS', E, hE, by rw [install_install hle]; rfl, fun S'' hS'' E' hE' => ?_, ?_⟩
      · rcases List.mem_append.mp hS'' with hL | hS''
        · exact (hmax₀ S'' hL E' hE').trans hlt'.le
        · exact hmax S'' hS'' E' hE'
      · rcases hbeat₀ with hb | ⟨V, hs, hV⟩
        · exact .inl hb
        · exact .inr ⟨V, hs, hV.trans hlt'⟩

/-- `enumPeers` at `index` keeps `LevelInv` over the selections it hands to
`cb`, given what one call of `cb` does. -/
theorem levelInv_foldl {cb : FitWorker → List FitPeer → FitWorker × Bool} (hlt : index < pb.rules.length)
    (hw : w.problem = pb) (hlen : w.bestFit.ruleFits.length = pb.rules.length)
    (hstored : Blank w index ∨ ∃ V, Stores w index V)
    (hcb : ∀ (S : List FitPeer) (w' : FitWorker), w'.problem = pb → w'.bestFit.ruleFits.length = pb.rules.length →
      (Blank w' index ∨ ∃ V, Stores w' index V) → LevelInv pb w' path index [S] (cb w' S)) :
    ∀ (L L₀ : List (List FitPeer)) (r : FitWorker × Bool), LevelInv pb w path index L₀ r →
      LevelInv pb w path index (L₀ ++ L) (L.foldl (cbStep cb) r)
  | [], L₀, r, hinv => by simpa using hinv
  | S :: L, L₀, r, hinv => by
    obtain ⟨hw', hlen', hstored'⟩ := hinv.worker hlt hw hlen hstored
    have hstep := levelInv_snoc hlt (congrArg FitProblem.rules hw) hlen hinv (hcb S r.1 hw' hlen' hstored')
    rw [List.foldl_cons, ← List.singleton_append, ← List.append_assoc]
    exact levelInv_foldl hlt hw hlen hstored hcb L (L₀ ++ [S]) _ hstep

theorem explores_cons_iff {rule : Rule} {E : List (List FitPeer)} (hrule : pb.rules[index]? = some rule) :
    Explores pb path index (S :: E) ↔
      S ∈ combos (min rule.count (pb.candidates path rule).length) (pb.candidates path rule) [] ∧
        Explores pb (path ++ S) (index + 1) E := by
  rw [mem_combos]
  constructor
  · rintro (_ | ⟨hrule', hsub, hlen, hE⟩)
    obtain rfl : rule = _ := Option.some_inj.mp (hrule.symm.trans hrule')
    exact ⟨⟨S, hsub, rfl, hlen⟩, hE⟩
  · rintro ⟨⟨T, hT, rfl, hlen⟩, hE⟩
    exact .pick hrule hT hlen hE

theorem Explores.exists_cons {E : List (List FitPeer)} (hlt : index < pb.rules.length)
    (h : Explores pb path index E) : ∃ S E', E = S :: E' := by
  cases h with
  | done hle => omega
  | pick => exact ⟨_, _, rfl⟩

/-- After every selection of a rule, `LevelInv` is the outcome of the rule. -/
theorem outcome_of_levelInv {rule : Rule} {r : FitWorker × Bool} (hcount : ∀ r ∈ pb.rules, 0 ≤ r.count)
    (hrule : pb.rules[index]? = some rule)
    (hinv : LevelInv pb w path index
      (combos (min rule.count (pb.candidates path rule).length) (pb.candidates path rule) []) r) :
    Outcome pb w path index r := by
  have hlt : index < pb.rules.length := (List.getElem?_eq_some_iff.mp hrule).1
  rcases hinv with ⟨rfl, hdom⟩ | ⟨S, hS, E, hE, rfl, hmax, hbeat⟩
  · -- some selection is tried, and it finds the rule fits stored
    obtain ⟨E₀, hE₀⟩ := explores_nonempty hcount _ path index rfl
    obtain ⟨S₀, E₀, rfl⟩ := hE₀.exists_cons hlt
    obtain ⟨hS₀, hE₀⟩ := (explores_cons_iff hrule).mp hE₀
    obtain ⟨V, hs, -⟩ := hdom S₀ hS₀ E₀ hE₀
    refine .kept hs fun E' hE' => ?_
    obtain ⟨S', E', rfl⟩ := hE'.exists_cons hlt
    obtain ⟨hS', hE'⟩ := (explores_cons_iff hrule).mp hE'
    obtain ⟨V', hs', hle⟩ := hdom S' hS' E' hE'
    rwa [stores_unique hs hs']
  · refine .improved ((explores_cons_iff hrule).mpr ⟨hS, hE⟩) (fun E' hE' => ?_) ?_
    · obtain ⟨S', E', rfl⟩ := hE'.exists_cons hlt
      obtain ⟨hS', hE'⟩ := (explores_cons_iff hrule).mp hE'
      exact hmax S' hS' E' hE'
    · rcases hbeat with hb | hV
      · exact .inl ⟨hlt, hb⟩
      · exact .inr hV

/-- `fitRule` over the `k` rules from `index` on searches them as `Outcome`
says. The induction is on `k`; each level is a fold of `compareBest` over the
selections of its rule, with the level below as `next`. -/
theorem fitRule_outcome (hcount : ∀ r ∈ pb.rules, 0 ≤ r.count) :
    ∀ (k index : Nat), index + k = pb.rules.length →
      Searches pb (fun w path => FitWorker.fitRule k w path index) index
  | 0, index, hk => by
    intro w path hw hlen _
    have hr : w.rules = pb.rules := congrArg FitProblem.rules hw
    refine .kept (V := []) ?_ fun E hE => ?_
    · rw [show index = w.rules.length by rw [hr]; omega]
      exact stores_at_end (by rw [hlen, hr])
    · rw [explores_at_end (by omega) hE]
      simp [keysOf, fitsOf]
  | k + 1, index, hk => by
    intro w path hw hlen hstored
    have hr : w.rules = pb.rules := congrArg FitProblem.rules hw
    obtain ⟨rule, hrule⟩ : ∃ rule, pb.rules[index]? = some rule :=
      ⟨pb.rules[index], List.getElem?_eq_getElem (by omega)⟩
    have hcand : w.candidates path rule = pb.candidates path rule := by rw [FitWorker.candidates_eq, hw]
    simp only [FitWorker.fitRule, hr, hrule, hcand]
    rw [enumPeers_eq]
    apply outcome_of_levelInv hcount hrule
    have hfold := levelInv_foldl (by omega) hw hlen hstored
      (fun S w' hw' hlen' hstored' => show LevelInv pb w' path index [S] _ from
        compareBest_levelInv hw' hrule hlen' hstored' (fitRule_outcome hcount k (index + 1) (by omega)))
      (combos (min rule.count (pb.candidates path rule).length) (pb.candidates path rule) []) [] (w, false)
      (show LevelInv pb w path index [] (w, false) from levelInv_nil)
    rw [List.nil_append] at hfold
    exact hfold

/-- `run` from nil rule fits: the rule fits and orphans of an explored
selection with the greatest keys. -/
theorem run_spec (hcount : ∀ r ∈ w.rules, 0 ≤ r.count) (hlen : w.bestFit.ruleFits.length = w.rules.length)
    (hb : Blank w 0) :
    ∃ E, Explores w.problem [] 0 E ∧
      (∀ E', Explores w.problem [] 0 E' → keysOf w.rules 0 E' ≤ keysOf w.rules 0 E) ∧
      w.run = w.install 0 (fitsOf w.rules 0 E) E.flatten := by
  have ho := fitRule_outcome hcount w.rules.length 0 (Nat.zero_add _) w [] rfl hlen (.inl hb)
  obtain ⟨E, hE, hmax, heq⟩ := outcome_of_blank (Nat.zero_le _) rfl hlen hb ho
  refine ⟨E, hE, hmax, ?_⟩
  rw [List.nil_append] at heq
  exact heq

end Search

end MatrixCube.Prophet.Placement
