import MatrixCube.Prophet.Schedule.Builder

/-! # The step planner ends

Every plan that `peerPlan` returns takes each of its peers from the pending map
of its kind: the replacing plans from the four maps, the others from one. The
body of the loop of `buildStepsWithoutJointConsensus` executes each of them,
and each execution deletes its peer's container from that map. A non-empty
plan so shrinks the pending maps, an empty one ends the loop with an error,
and the loop runs at most as many times as there are pending entries.
-/

namespace MatrixCube.Prophet.Schedule

namespace Builder

variable {b : Builder}

/-- The peers a plan names are pending, each in the map of its kind. -/
structure Pending (b : Builder) (p : StepPlan) : Prop where
  add : ∀ a ∈ p.add, a ∈ b.toAdd.items
  remove : ∀ r ∈ p.remove, r ∈ b.toRemove.items
  promote : ∀ x ∈ p.promote, x ∈ b.toPromote.items
  demote : ∀ d ∈ p.demote, d ∈ b.toDemote.items

theorem pending_empty : b.Pending {} := ⟨by simp, by simp, by simp, by simp⟩

/-- The leaders of a plan do not matter. -/
theorem Pending.withLeaders {p : StepPlan} (h : b.Pending p) (l l' : UInt64) :
    b.Pending { p with leaderBeforeAdd := l, leaderBeforeRemove := l' } :=
  ⟨h.add, h.remove, h.promote, h.demote⟩

theorem Pending.comparePlan {best next : StepPlan} (hb : b.Pending best) (hn : b.Pending next) :
    b.Pending (b.comparePlan best next) := by
  unfold Builder.comparePlan
  split
  · exact hn
  · exact BestOf.prefer_of_both _ hb hn

theorem Pending.replaceLeadersFrom {best next : StepPlan} (hb : b.Pending best) (hn : b.Pending next) :
    b.Pending (b.replaceLeadersFrom best next) := by
  apply List.foldl_invariant _ hb
  intro acc leader _ hacc
  unfold tryLeaderBeforeRemove
  split
  · exact hacc.comparePlan (hn.withLeaders _ _)
  · exact hacc

theorem Pending.planReplaceLeaders {best next : StepPlan} (hb : b.Pending best) (hn : b.Pending next) :
    b.Pending (b.planReplaceLeaders best next) := by
  apply List.foldl_invariant _ hb
  intro acc leader _ hacc
  split
  · exact hacc.replaceLeadersFrom (hn.withLeaders _ _)
  · exact hacc

/-- The four replacing plans pair pending peers. -/
theorem pending_planReplace : b.Pending b.planReplace := by
  unfold planReplace
  dsimp only
  -- add voter + demote voter + remove learner
  refine List.foldl_invariant _ ?_ fun acc demote hdemote hacc => ?_
  rotate_left
  · refine List.foldl_invariant _ hacc fun acc remove hremove hacc => ?_
    split
    · refine List.foldl_invariant _ hacc fun acc add hadd hacc => ?_
      split
      · exact hacc.planReplaceLeaders ⟨by simpa, by simpa, by simp, by simpa⟩
      · exact hacc
    · exact hacc
  -- add learner + promote learner + remove voter
  refine List.foldl_invariant _ ?_ fun acc promote hpromote hacc => ?_
  rotate_left
  · refine List.foldl_invariant _ hacc fun acc add hadd hacc => ?_
    split
    · refine List.foldl_invariant _ hacc fun acc remove hremove hacc => ?_
      split
      · exact hacc.planReplaceLeaders ⟨by simpa, by simpa, by simpa, by simp⟩
      · exact hacc
    · exact hacc
  -- add voter + remove voter, or add learner + remove learner
  refine List.foldl_invariant _ ?_ fun acc add hadd hacc => ?_
  rotate_left
  · refine List.foldl_invariant _ hacc fun acc remove hremove hacc => ?_
    split
    · exact hacc.planReplaceLeaders ⟨by simpa, by simpa, by simp, by simp⟩
    · exact hacc
  -- promote learner + demote voter
  refine List.foldl_invariant _ pending_empty fun acc demote hdemote hacc => ?_
  refine List.foldl_invariant _ hacc fun acc promote hpromote hacc => ?_
  exact hacc.planReplaceLeaders ⟨by simp, by simp, by simpa, by simpa⟩

theorem pending_planPromotePeer : b.Pending b.planPromotePeer := by
  unfold planPromotePeer
  split
  · rename_i peer rest hitems
    exact ⟨by simp, by simp, by simp [hitems], by simp⟩
  · exact pending_empty

theorem pending_planDemotePeer : b.Pending b.planDemotePeer := by
  refine List.foldl_invariant _ pending_empty fun acc d hd hacc => ?_
  refine List.foldl_invariant _ hacc fun acc leader _ hacc => ?_
  split
  · exact hacc.comparePlan ⟨by simp, by simp, by simp, by simpa⟩
  · exact hacc

theorem pending_planRemovePeer : b.Pending b.planRemovePeer := by
  refine List.foldl_invariant _ pending_empty fun acc r hr hacc => ?_
  refine List.foldl_invariant _ hacc fun acc leader _ hacc => ?_
  split
  · exact hacc.comparePlan ⟨by simp, by simpa, by simp, by simp⟩
  · exact hacc

theorem pending_planAddPeer : b.Pending b.planAddPeer := by
  refine List.foldl_invariant _ pending_empty fun acc a ha hacc => ?_
  refine List.foldl_invariant _ hacc fun acc leader _ hacc => ?_
  split
  · exact hacc.comparePlan ⟨by simpa, by simp, by simp, by simp⟩
  · exact hacc

/-- Every plan of `peerPlan` names pending peers only. -/
theorem pending_peerPlan : b.Pending b.peerPlan := by
  unfold peerPlan
  split_ifs
  · exact pending_planReplace
  · exact pending_planPromotePeer
  · exact pending_planDemotePeer
  · exact pending_planRemovePeer
  · exact pending_planAddPeer
  · exact pending_empty

end Builder

/-- A leader transfer leaves the pending maps alone. -/
theorem pending_transferIfNeeded (leader : UInt64) (s : OpKind × Builder) :
    (transferIfNeeded leader s).2.toAdd = s.2.toAdd ∧ (transferIfNeeded leader s).2.toRemove = s.2.toRemove ∧
      (transferIfNeeded leader s).2.toPromote = s.2.toPromote ∧ (transferIfNeeded leader s).2.toDemote = s.2.toDemote := by
  unfold transferIfNeeded
  split <;> exact ⟨rfl, rfl, rfl, rfl⟩

/-- The body of the loop deletes the plan's peers from their pending maps. -/
theorem execPlan_pending (plan : StepPlan) (s : OpKind × Builder) :
    (execPlan plan s).2.toAdd = plan.add.elim s.2.toAdd (fun a => s.2.toAdd.deleteID a.containerID) ∧
    (execPlan plan s).2.toRemove = plan.remove.elim s.2.toRemove (fun a => s.2.toRemove.deleteID a.containerID) ∧
    (execPlan plan s).2.toPromote = plan.promote.elim s.2.toPromote (fun a => s.2.toPromote.deleteID a.containerID) ∧
    (execPlan plan s).2.toDemote = plan.demote.elim s.2.toDemote (fun a => s.2.toDemote.deleteID a.containerID) := by
  obtain ⟨la, lr, add, remove, promote, demote⟩ := plan
  cases add <;> cases promote <;> cases demote <;> cases remove <;>
    simp [execPlan, pending_transferIfNeeded, Builder.execAddPeer, Builder.execPromoteLearner,
      Builder.execDemoteFollower, Builder.execRemovePeer]

/-- Deleting the plan's peer of one map, if it names one, drops one entry. -/
theorem len_elim_deleteID {pm : PeersMap} {o : Option Peer} (h : ∀ a ∈ o, a ∈ pm.items) :
    (o.elim pm fun a => pm.deleteID a.containerID).len + o.elim 0 (fun _ => 1) = pm.len := by
  cases o with
  | none => rfl
  | some a => exact OrderedSet.len_delete_of_mem (h a rfl)

namespace Builder

theorem hasPending_iff (b : Builder) : b.hasPending = true ↔ 0 < b.pendingLen := by
  simp only [hasPending, pendingLen, Bool.or_eq_true, decide_eq_true_eq]
  omega

theorem hasPending_eq_false_iff (b : Builder) : b.hasPending = false ↔ b.pendingLen = 0 := by
  rw [← Bool.not_eq_true, hasPending_iff]
  omega

/-- A non-empty plan of pending peers takes at least one entry off the pending
maps. -/
theorem pendingLen_execPlan {b : Builder} {plan : StepPlan} (kind : OpKind) (hp : b.Pending plan)
    (hne : plan.isEmpty = false) : (execPlan plan (kind, b)).2.pendingLen < b.pendingLen := by
  obtain ⟨hA, hR, hP, hD⟩ := execPlan_pending plan (kind, b)
  dsimp only at hA hR hP hD
  have eA := len_elim_deleteID hp.add
  have eR := len_elim_deleteID hp.remove
  have eP := len_elim_deleteID hp.promote
  have eD := len_elim_deleteID hp.demote
  -- the plan names some peer
  have hsome : 0 < plan.add.elim 0 (fun _ => 1) + plan.remove.elim 0 (fun _ => 1) +
      plan.promote.elim 0 (fun _ => 1) + plan.demote.elim 0 (fun _ => 1) := by
    revert hne
    unfold StepPlan.isEmpty
    cases plan.add <;> cases plan.remove <;> cases plan.promote <;> cases plan.demote <;> simp
  unfold pendingLen
  rw [hA, hR, hP, hD]
  omega

end Builder

/-! ## The loop -/

/-- With as much fuel as pending entries, the loop returns. -/
theorem buildStepsLoop_isSome (kind : OpKind) (b : Builder) (n : Nat) (h : b.pendingLen ≤ n) :
    (buildStepsLoop kind b n).isSome := by
  induction n generalizing kind b with
  | zero =>
    have hp : b.hasPending = false := b.hasPending_eq_false_iff.mpr (Nat.le_zero.mp h)
    simp [buildStepsLoop, hp]
  | succ n ih =>
    unfold buildStepsLoop
    split
    · split
      · rfl
      · rename_i hne
        have hlt := Builder.pendingLen_execPlan kind Builder.pending_peerPlan (by simpa using hne)
        exact ih _ _ (by omega)
    · rfl

/-- Fuel beyond the pending entries changes nothing. -/
theorem buildStepsLoop_succ (kind : OpKind) (b : Builder) (n : Nat) (h : b.pendingLen ≤ n) :
    buildStepsLoop kind b (n + 1) = buildStepsLoop kind b n := by
  induction n generalizing kind b with
  | zero =>
    have hp : b.hasPending = false := b.hasPending_eq_false_iff.mpr (Nat.le_zero.mp h)
    simp [buildStepsLoop, hp]
  | succ n ih =>
    by_cases hp : b.hasPending
    · simp only [buildStepsLoop, hp, if_true]
      split
      · rfl
      · rename_i hne
        have hlt := Builder.pendingLen_execPlan kind Builder.pending_peerPlan (by simpa using hne)
        exact ih _ _ (by omega)
    · simp [buildStepsLoop, hp]

/-- The loop of `buildStepsWithoutJointConsensus` runs at most as many times as
there are pending entries: with that much fuel it returns, and more fuel gives
the same answer; each non-empty plan takes an entry off the pending maps, and
an empty plan ends the loop with an error. -/
theorem buildStepsLoop_terminates (b : Builder) (kind : OpKind) :
    (buildStepsLoop kind b b.pendingLen).isSome ∧
      (∀ fuel, b.pendingLen ≤ fuel → buildStepsLoop kind b fuel = buildStepsLoop kind b b.pendingLen) ∧
      (b.peerPlan.isEmpty = false → (execPlan b.peerPlan (kind, b)).2.pendingLen < b.pendingLen) ∧
      (b.hasPending = true → b.peerPlan.isEmpty = true → ∀ fuel, buildStepsLoop kind b (fuel + 1) =
        some (.error "fail to build operator: plan is empty, maybe no valid leader")) := by
  refine ⟨buildStepsLoop_isSome kind b _ le_rfl, ?_, ?_, ?_⟩
  · intro fuel hfuel
    induction fuel, hfuel using Nat.le_induction with
    | base => rfl
    | succ n hn ih => rw [buildStepsLoop_succ kind b n hn, ih]
  · exact Builder.pendingLen_execPlan kind Builder.pending_peerPlan
  · intro hp hempty fuel
    simp [buildStepsLoop, hp, hempty]

end MatrixCube.Prophet.Schedule
