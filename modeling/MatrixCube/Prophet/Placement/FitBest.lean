import MatrixCube.Prophet.Placement.FitSearch

/-! # `FitResource` returns a best fit

Every assignment of peers to the rules is dominated by a selection that the
search tries: a rule given fewer than `min(Count, len(candidates))` peers
loses on its peer count, and a full selection is among those tried. With the
peers of the resource distinct, two assignments with the same keys leave as
many orphans, so no assignment compares better under `CompareResourceFit`
than the fit returned.
-/

namespace MatrixCube.Prophet.Placement

/-- The `ResourceFit` of an assignment to all the rules. -/
def resourceFitOf (pb : FitProblem) (A : List (List FitPeer)) : ResourceFit :=
  ⟨(fitsOf pb.rules 0 A).map some, orphansOf pb.peers A.flatten⟩

section Best

variable {pb : FitProblem} {path : List FitPeer} {index : Nat} {S : List FitPeer}

/-- A selection of an assignment is one of the candidates: its first peer
lives in a container that matches the rule, so `checkRule` holds. -/
theorem sublist_candidates {rule : Rule} {sel : List FitPeer}
    (hcont : ∀ p ∈ pb.peers, ∀ c, p.container = some c → c ∈ pb.containers) (hsub : sel.Sublist pb.peers)
    (hsel : ∀ p ∈ sel, matchOptLabelConstraints p.container rule.labelConstraints = true ∧
      p.matchRoleLoose rule.role = true ∧ p ∉ path) :
    sel.Sublist (pb.candidates path rule) := by
  cases sel with
  | nil => exact List.nil_sublist _
  | cons p ps =>
    have hcheck : checkRule rule pb.containers = true := by
      obtain ⟨hm, -, -⟩ := hsel p List.mem_cons_self
      cases hc : p.container with
      | none => simp [matchOptLabelConstraints, hc] at hm
      | some c =>
        simp only [matchOptLabelConstraints, hc] at hm
        exact List.any_eq_true.mpr ⟨c, hcont p (hsub.subset List.mem_cons_self) c hc, hm⟩
    unfold FitProblem.candidates FitWorker.candidates
    rw [if_pos hcheck]
    have hfilter := hsub.filter fun p =>
      matchOptLabelConstraints p.container rule.labelConstraints && p.matchRoleLoose rule.role && decide (p ∉ path)
    rwa [List.filter_eq_self.mpr fun q hq => by simp [hsel q hq]] at hfilter

theorem Explores.length_head {rule : Rule} {E : List (List FitPeer)} (hrule : pb.rules[index]? = some rule)
    (h : Explores pb path index (S :: E)) :
    (S.length : Int) = min rule.count (pb.candidates path rule).length := by
  cases h with
  | pick hrule' _ hlen _ =>
    obtain rfl : rule = _ := Option.some_inj.mp (hrule.symm.trans hrule')
    exact hlen

theorem key_lt_of_length_lt {rule : Rule} {S' : List FitPeer} (h : S.length < S'.length) :
    (newRuleFit rule S).key < (newRuleFit rule S').key := by
  simp only [RuleFit.key, newRuleFit, List.length_map, Prod.Lex.toLex_lt_toLex]
  exact .inl h

/-- Every assignment has keys at most those of some selection the search
tries: a selection of fewer than `min(Count, len(candidates))` peers loses to
any of them on its peer count, and a full one is tried. -/
theorem Assigns.dominated (hcount : ∀ r ∈ pb.rules, 0 ≤ r.count)
    (hcont : ∀ p ∈ pb.peers, ∀ c, p.container = some c → c ∈ pb.containers) {A : List (List FitPeer)}
    (h : Assigns pb path index A) : ∃ E, Explores pb path index E ∧ keysOf pb.rules index A ≤ keysOf pb.rules index E := by
  induction h with
  | done hle => exact ⟨[], .done hle, le_rfl⟩
  | @pick path index rule sel rest hrule hsub hsel hle _ ih =>
    have hcands := sublist_candidates hcont hsub hsel
    by_cases hfull : (sel.length : Int) = min rule.count (pb.candidates path rule).length
    · obtain ⟨E, hE, hkeys⟩ := ih
      refine ⟨sel :: E, .pick hrule hcands hfull hE, ?_⟩
      rw [keysOf_cons hrule, keysOf_cons hrule, List.lex_cons_le_cons_iff]
      exact .inr ⟨rfl, hkeys⟩
    · obtain ⟨E, hE⟩ := explores_nonempty hcount _ path index rfl
      obtain ⟨S, E', rfl⟩ := hE.exists_cons (List.getElem?_eq_some_iff.mp hrule).1
      have hlenS := hE.length_head hrule
      have hsel_le : (sel.length : Int) ≤ (pb.candidates path rule).length := by
        exact_mod_cast hcands.length_le
      have hshorter : sel.length < S.length := by omega
      refine ⟨S :: E', hE, le_of_lt ?_⟩
      rw [keysOf_cons hrule, keysOf_cons hrule, List.cons_lt_cons_iff]
      exact .inl (key_lt_of_length_lt hshorter)

/-- The peers of an assignment are distinct peers of the worker, and none is
in `path`. -/
theorem Assigns.nodup (hnd : pb.peers.Nodup) {A : List (List FitPeer)} (h : Assigns pb path index A) :
    path.Nodup → (path ++ A.flatten).Nodup := by
  induction h with
  | done => simp
  | @pick path _ _ sel _ _ hsub hsel _ _ ih =>
    intro hpath
    have hsel' : (path ++ sel).Nodup := List.nodup_append.mpr
      ⟨hpath, hnd.sublist hsub, fun a ha b hb hab => (hsel b hb).2.2 (hab ▸ ha)⟩
    simpa [List.flatten_cons, List.append_assoc] using ih hsel'

theorem Assigns.flatten_subset {A : List (List FitPeer)} (h : Assigns pb path index A) : A.flatten ⊆ pb.peers := by
  induction h with
  | done => simp
  | pick _ hsub _ _ _ ih => exact List.append_subset.mpr ⟨hsub.subset, ih⟩

/-- The peer counts in the keys of an assignment add up to the peers it
assigns. -/
theorem sum_keysOf {rules : List Rule} :
    ∀ (index : Nat) (E : List (List FitPeer)), E.length ≤ rules.length - index →
      ((keysOf rules index E).map fun k => (ofLex k).1).sum = E.flatten.length
  | _, [], _ => by simp [keysOf, fitsOf]
  | index, S :: E, hlen => by
    have hlt : index < rules.length := by simp at hlen; omega
    rw [keysOf_cons (List.getElem?_eq_getElem hlt), List.map_cons, List.sum_cons,
      sum_keysOf (index + 1) E (by simp at hlen; omega)]
    simp [RuleFit.key, newRuleFit]

theorem length_orphansOf {peers flags : List FitPeer} (hnd : peers.Nodup) (hfl : flags.Nodup)
    (hsub : flags ⊆ peers) : (orphansOf peers flags).length + flags.length = peers.length := by
  have hperm : (peers.filter fun p => decide (p ∈ flags)).Perm flags :=
    (List.perm_ext_iff_of_nodup (hnd.filter _) hfl).mpr fun a => by
      simp only [List.mem_filter, decide_eq_true_eq]
      exact ⟨fun h => h.2, fun h => ⟨hsub h, h⟩⟩
  have hsplit : peers.length = (peers.filter fun p => decide (p ∈ flags)).length +
      (peers.filter fun p => !decide (p ∈ flags)).length := List.length_eq_length_filter_add _
  rw [orphansOf, List.length_map, ← hperm.length_eq]
  simp only [decide_not]
  omega

/-- Two assignments to all the rules with the same keys leave as many orphans. -/
theorem length_orphans_of_keys (hnd : pb.peers.Nodup) {A A' : List (List FitPeer)} (h : Assigns pb [] 0 A)
    (h' : Assigns pb [] 0 A') (hkeys : keysOf pb.rules 0 A = keysOf pb.rules 0 A') :
    (orphansOf pb.peers A.flatten).length = (orphansOf pb.peers A'.flatten).length := by
  have hsum : A.flatten.length = A'.flatten.length := by
    rw [← sum_keysOf 0 A (by rw [h.length_eq]), ← sum_keysOf 0 A' (by rw [h'.length_eq]), hkeys]
  have ho := length_orphansOf hnd (by simpa using h.nodup hnd List.nodup_nil) h.flatten_subset
  have ho' := length_orphansOf hnd (by simpa using h'.nodup hnd List.nodup_nil) h'.flatten_subset
  omega

end Best

/-! ## `FitResource` -/

section Resource

variable {containers : ContainerSet} {res : CachedResource} {rules : List Rule}

@[simp] theorem newFitWorker_rules : (newFitWorker containers res rules).rules = rules := rfl

theorem mem_newFitWorker_peers {q : FitPeer} :
    q ∈ (newFitWorker containers res rules).peers ↔
      q.peer ∈ res.meta_.peers ∧
        q = ⟨q.peer, getContainer containers q.peer.containerID, (res.leader.getD {}).id == q.peer.id⟩ := by
  simp only [newFitWorker, List.mem_mergeSort, List.mem_map]
  constructor
  · rintro ⟨p, hp, rfl⟩
    exact ⟨hp, rfl⟩
  · rintro ⟨hp, hq⟩
    exact ⟨q.peer, hp, hq.symm⟩

theorem nodup_newFitWorker_peers (hids : (res.meta_.peers.map (·.id)).Nodup) :
    (newFitWorker containers res rules).peers.Nodup := by
  unfold newFitWorker
  dsimp only
  rw [(List.mergeSort_perm _ _).nodup_iff]
  exact (List.Nodup.of_map _ hids).map fun a b h => congrArg FitPeer.peer h

theorem container_mem_newFitWorker {q : FitPeer} (hq : q ∈ (newFitWorker containers res rules).peers)
    {c : ContainerLabels} (hc : q.container = some c) : c ∈ (newFitWorker containers res rules).containers := by
  rw [mem_newFitWorker_peers] at hq
  rw [hq.2] at hc
  simp only [getContainer, Option.map_eq_some_iff] at hc
  obtain ⟨x, hx, rfl⟩ := hc
  exact List.mem_map_of_mem (List.mem_of_find?_eq_some hx)

/-- The orphans of a selection of the worker's peers are the peers of the
resource that no selection holds. -/
theorem mem_orphans_newFitWorker {E : List (List FitPeer)} (hE : E.flatten ⊆ (newFitWorker containers res rules).peers)
    (p : Peer) :
    p ∈ orphansOf (newFitWorker containers res rules).peers E.flatten ↔
      p ∈ res.meta_.peers ∧ ∀ S ∈ E, ∀ q ∈ S, q.peer ≠ p := by
  simp only [orphansOf, List.mem_map, List.mem_filter, decide_not, Bool.not_eq_true', decide_eq_false_iff_not]
  constructor
  · rintro ⟨q, ⟨hq, hnot⟩, rfl⟩
    refine ⟨(mem_newFitWorker_peers.mp hq).1, fun S hS q' hq' hpeer => hnot ?_⟩
    -- a peer of the worker is determined by its `Peer`
    have hq'mem : q' ∈ E.flatten := List.mem_flatten.mpr ⟨S, hS, hq'⟩
    have h₁ := (mem_newFitWorker_peers.mp (hE hq'mem)).2
    have h₂ := (mem_newFitWorker_peers.mp hq).2
    rw [hpeer] at h₁
    rwa [h₂, ← h₁]
  · rintro ⟨hp, hnot⟩
    refine ⟨⟨p, getContainer containers p.containerID, (res.leader.getD {}).id == p.id⟩,
      ⟨mem_newFitWorker_peers.mpr ⟨hp, rfl⟩, fun hmem => ?_⟩, rfl⟩
    obtain ⟨S, hS, hq⟩ := List.mem_flatten.mp hmem
    exact hnot S hS _ hq rfl

end Resource

theorem fitResource_best (containers : ContainerSet) (res : CachedResource) (rules : List Rule)
    (hids : (res.meta_.peers.map (·.id)).Nodup) (hcount : ∀ r ∈ rules, 0 ≤ r.count) :
    ∃ E, Assigns (newFitWorker containers res rules).problem [] 0 E ∧
      fitResource containers res rules = resourceFitOf (newFitWorker containers res rules).problem E ∧
      (∀ p, p ∈ (fitResource containers res rules).orphanPeers ↔
        p ∈ res.meta_.peers ∧ ∀ S ∈ E, ∀ q ∈ S, q.peer ≠ p) ∧
      ∀ A, Assigns (newFitWorker containers res rules).problem [] 0 A →
        ∃ c ≤ 0, compareResourceFit (resourceFitOf (newFitWorker containers res rules).problem A)
          (fitResource containers res rules) = some c := by
  obtain ⟨E, hE, hmax, hrun⟩ := run_spec (w := newFitWorker containers res rules) hcount
    (by simp [newFitWorker]) (by simp [Blank, newFitWorker])
  have hfit : fitResource containers res rules = resourceFitOf (newFitWorker containers res rules).problem E := by
    rw [fitResource, hrun]
    simp [FitWorker.install, resourceFitOf, FitWorker.problem]
  have hnd : (newFitWorker containers res rules).peers.Nodup := nodup_newFitWorker_peers hids
  refine ⟨E, hE.assigns, hfit, fun p => ?_, fun A hA => ?_⟩
  · rw [hfit]
    exact @mem_orphans_newFitWorker containers res rules E hE.assigns.flatten_subset p
  · obtain ⟨E₁, hE₁, hle₁⟩ := hA.dominated hcount fun q hq c hc =>
      @container_mem_newFitWorker containers res rules q hq c hc
    have hle : keysOf rules 0 A ≤ keysOf rules 0 E := hle₁.trans (hmax E₁ hE₁)
    rw [hfit]
    simp only [compareResourceFit, resourceFitOf]
    rw [compareRuleFits_map_some _ _ (by rw [length_fitsOf, length_fitsOf, hA.length_eq, hE.assigns.length_eq])]
    rcases hle.lt_or_eq with hlt | heq
    · -- a lesser assignment compares as worse
      refine ⟨-1, by decide, ?_⟩
      simp only [keysOf] at hlt
      simp [FitWorker.problem, hlt]
    · -- an equal one leaves as many orphans
      have horph : (orphansOf (newFitWorker containers res rules).peers A.flatten).length =
          (orphansOf (newFitWorker containers res rules).peers E.flatten).length :=
        @length_orphans_of_keys (newFitWorker containers res rules).problem hnd A E hA hE.assigns heq
      refine ⟨0, le_rfl, ?_⟩
      simp only [keysOf] at heq
      simp [FitWorker.problem, heq, horph]

theorem fitResource_best_two_peers :
    ∃ E, Assigns (newFitWorker [(1, [])] { meta_ := { peers := [{ id := 1, containerID := 1 }, { id := 2, containerID := 1 }] } }
        [{ role := voter, count := 1 }]).problem [] 0 E ∧
      fitResource [(1, [])] { meta_ := { peers := [{ id := 1, containerID := 1 }, { id := 2, containerID := 1 }] } }
        [{ role := voter, count := 1 }] =
      resourceFitOf (newFitWorker [(1, [])] { meta_ := { peers := [{ id := 1, containerID := 1 }, { id := 2, containerID := 1 }] } }
        [{ role := voter, count := 1 }]).problem E :=
  let ⟨E, hE, hfit, _⟩ := fitResource_best [(1, [])]
    { meta_ := { peers := [{ id := 1, containerID := 1 }, { id := 2, containerID := 1 }] } }
    [{ role := voter, count := 1 }] (by decide) (by decide)
  ⟨E, hE, hfit⟩

/-- A rule with a negative `Count` gets a nil rule fit, and the peer it leaves
is no orphan either. -/
theorem fitResource_negative_count :
    fitResource [(1, [])] { meta_ := { peers := [{ id := 1, containerID := 1 }] } } [{ role := voter, count := -1 }] =
      ⟨[none], []⟩ := by
  decide +kernel

end MatrixCube.Prophet.Placement
