import MatrixCube.Prophet.Schedule.Operator
import MatrixCube.Lib.Binary64

/-! # The waiting operators

`RandBuckets` (`schedule/waiting_operator.go`) keeps the operators waiting to
be promoted in one bucket per priority level, weighted by `PriorityWeight`.
`GetOperator` draws a bucket with a probability proportional to its weight
among the non-empty buckets and takes the operator at its front, together
with the next one when it is a merge operator: the two operators of a merge
are put one after the other and leave together. A bucket is thus a sequence
of waiting units (`units`).

The weights are `float64`. They are rationals here, and every `+`, `-` and
`/` on them is rounded as binary64 (`Binary64`): the total weight stays an
exact sum of bucket weights, and the rounded proportions of the non-empty
buckets add up to exactly one, so a draw in `[0, 1)` always lands in a
bucket. Both facts are checked for each of the seven sets of non-empty
buckets.
-/

namespace MatrixCube.Prophet.Schedule

/-- `PriorityWeight`. -/
def priorityWeight : Fin 3 → ℚ
  | 0 => 1
  | 1 => 4
  | 2 => 9

/-- `RandBuckets`: the total weight and the operators of the bucket of each
level; the weight of a bucket is `priorityWeight` of its level. -/
structure RandBuckets where
  totalWeight : ℚ
  buckets : Fin 3 → List Operator

/-- `NewRandBuckets`. -/
def newRandBuckets : RandBuckets := ⟨0, fun _ => []⟩

namespace RandBuckets

/-- `PutOperator`. -/
def putOperator (b : RandBuckets) (op : Operator) : RandBuckets :=
  let bucket := b.buckets op.level
  { totalWeight := if bucket.length = 0 then Binary64.add b.totalWeight (priorityWeight op.level) else b.totalWeight
    buckets := Function.update b.buckets op.level (bucket ++ [op]) }

/-- `ListOperator`: the operators of the buckets in level order. -/
def listOperator (b : RandBuckets) : List Operator := (List.finRange 3).flatMap b.buckets

/-- The front that `GetOperator` takes from a non-empty bucket, and what
stays: a merge operator with the operator after it (`none`, the index out of
range, when there is none), any other operator alone. -/
def takeUnit : List Operator → Option (List Operator × List Operator)
  | [] => none
  | op :: rest =>
    if op.isMerge then
      match rest with
      | [] => none
      | op' :: rest' => some ([op, op'], rest')
    else some ([op], rest)

/-- The branch of `GetOperator` that takes the front of the bucket of level
`i`, and drops the bucket's weight from the total when it empties. -/
def takeFrom (b : RandBuckets) (i : Fin 3) : Option (RandBuckets × List Operator) :=
  (takeUnit (b.buckets i)).map fun (res, rest) =>
    ({ totalWeight := if rest.length = 0 then Binary64.sub b.totalWeight (priorityWeight i) else b.totalWeight
       buckets := Function.update b.buckets i rest }, res)

/-- The loop of `GetOperator` over the buckets of `levels`, where `sum` is the
sum of the proportions of the non-empty buckets passed; `none` is a run-time
panic and `[]` is nil. -/
def getOperatorLoop (b : RandBuckets) (r : ℚ) : ℚ → List (Fin 3) → Option (RandBuckets × List Operator)
  | _, [] => some (b, [])
  | sum, i :: levels =>
    if (b.buckets i).length = 0 then getOperatorLoop b r sum levels
    else
      let proportion := Binary64.div (priorityWeight i) b.totalWeight
      if sum ≤ r ∧ r < Binary64.add sum proportion then b.takeFrom i
      else getOperatorLoop b r (Binary64.add sum proportion) levels

/-- `GetOperator` for the draw `r` of `rand.Float64()`. -/
def getOperator (b : RandBuckets) (r : ℚ) : Option (RandBuckets × List Operator) :=
  if b.totalWeight = 0 then some (b, []) else getOperatorLoop b r 0 (List.finRange 3)

end RandBuckets

/-! ## Waiting units -/

/-- The waiting units of a bucket, front first, as `GetOperator` takes them. -/
def units : List Operator → List (List Operator)
  | [] => []
  | [op] => [[op]]
  | op :: op' :: rest => if op.isMerge then [op, op'] :: units rest else [op] :: units (op' :: rest)

/-- A waiting unit: an operator that is not a merge, or the two operators of a
merge, which share their description and priority level. -/
def IsUnit : List Operator → Prop
  | [op] => op.isMerge = false
  | [a, b] => a.isMerge = true ∧ b.isMerge = true ∧ a.desc = b.desc ∧ a.level = b.level
  | _ => False

theorem units_cons_of_not_merge {op : Operator} {l : List Operator} (h : op.isMerge = false) :
    units (op :: l) = [op] :: units l := by
  cases l with
  | nil => rfl
  | cons op' rest => simp [units, h]

theorem units_cons_cons_of_merge {op op' : Operator} {rest : List Operator} (h : op.isMerge = true) :
    units (op :: op' :: rest) = [op, op'] :: units rest := by
  simp [units, h]

theorem IsUnit.ne_nil {u : List Operator} (h : IsUnit u) : u ≠ [] := by
  rintro rfl
  exact h

/-- The operators of a unit share one level. -/
theorem IsUnit.levels : ∀ {u : List Operator}, IsUnit u → ∃ level, ∀ op ∈ u, op.level = level
  | [op], _ => ⟨op.level, by simp⟩
  | [a, b], ⟨_, _, _, hl⟩ => ⟨a.level, by simp [hl]⟩

@[simp] theorem flatten_units : ∀ l : List Operator, (units l).flatten = l
  | [] => rfl
  | [op] => rfl
  | op :: op' :: rest => by
    unfold units
    split_ifs
    · simp [flatten_units rest]
    · simp only [List.flatten_cons, flatten_units (op' :: rest), List.singleton_append]

/-- A sequence of whole units parses back into them. -/
theorem units_flatten : ∀ {us : List (List Operator)}, (∀ u ∈ us, IsUnit u) → units us.flatten = us
  | [], _ => rfl
  | u :: us, h => by
    have ih := units_flatten fun v hv => h v (List.mem_cons_of_mem _ hv)
    have hu := h u List.mem_cons_self
    match u, hu with
    | [op], hop =>
      -- a lone operator that is not a merge is a unit of its own
      cases us with
      | nil => rfl
      | cons v vs =>
        have hop' : op.isMerge = false := hop
        obtain ⟨x, xs, hv⟩ := List.exists_cons_of_ne_nil (h v (by simp)).ne_nil
        simp only [List.flatten_cons, hv, List.cons_append, List.nil_append] at ih ⊢
        rw [units_cons_of_not_merge hop', ih]
    | [a, b], ⟨ha, _, _, _⟩ =>
      simp only [List.flatten_cons, List.cons_append, List.nil_append]
      rw [units_cons_cons_of_merge ha, ih]

/-- Putting a whole unit behind whole units adds it as the last unit. -/
theorem units_append {l u : List Operator} (hl : ∀ v ∈ units l, IsUnit v) (hu : IsUnit u) :
    units (l ++ u) = units l ++ [u] := by
  have hall : ∀ v ∈ units l ++ [u], IsUnit v := by
    intro v hv
    rcases List.mem_append.mp hv with hv | hv
    · exact hl v hv
    · rw [List.mem_singleton.mp hv]; exact hu
  rw [show l ++ u = (units l ++ [u]).flatten by simp]
  exact units_flatten hall

/-- The front of a bucket of whole units is its first unit. -/
theorem takeUnit_eq {l u : List Operator} {us : List (List Operator)} (h : units l = u :: us)
    (hu : IsUnit u) : RandBuckets.takeUnit l = some (u, us.flatten) := by
  have hl : l = u ++ us.flatten := by rw [← flatten_units l, h, List.flatten_cons]
  subst hl
  match u, hu with
  | [op], hop =>
    have hop' : op.isMerge = false := hop
    simp [RandBuckets.takeUnit, hop']
  | [a, b], ⟨ha, _, _, _⟩ => simp [RandBuckets.takeUnit, ha]

/-! ## The weights in binary64 -/

/-- The exact weight of the buckets marked non-empty. -/
def weightOf (nonempty : Fin 3 → Bool) : ℚ :=
  (((List.finRange 3).filter nonempty).map priorityWeight).sum

/-- The sum of the proportions of the marked buckets among `levels`, from
`sum`, rounded as `GetOperator` accumulates it. -/
def proportionSum (nonempty : Fin 3 → Bool) (total : ℚ) : ℚ → List (Fin 3) → ℚ
  | sum, [] => sum
  | sum, i :: levels =>
    if nonempty i then proportionSum nonempty total (Binary64.add sum (Binary64.div (priorityWeight i) total)) levels
    else proportionSum nonempty total sum levels

/-- A mask of the buckets is its three entries. -/
theorem mask_eq (m : Fin 3 → Bool) : m = ![m 0, m 1, m 2] := by
  funext i
  fin_cases i <;> rfl

/-- Adding the weight of a bucket that fills is exact. -/
theorem add_weightOf {m : Fin 3 → Bool} {i : Fin 3} (h : m i = false) :
    Binary64.add (weightOf m) (priorityWeight i) = weightOf (Function.update m i true) := by
  have key : ∀ a b c : Bool, ∀ i : Fin 3, ![a, b, c] i = false →
      Binary64.add (weightOf ![a, b, c]) (priorityWeight i) = weightOf (Function.update ![a, b, c] i true) := by
    decide +kernel
  rw [mask_eq m] at h ⊢
  exact key _ _ _ i h

/-- Subtracting the weight of a bucket that empties is exact. -/
theorem sub_weightOf {m : Fin 3 → Bool} {i : Fin 3} (h : m i = true) :
    Binary64.sub (weightOf m) (priorityWeight i) = weightOf (Function.update m i false) := by
  have key : ∀ a b c : Bool, ∀ i : Fin 3, ![a, b, c] i = true →
      Binary64.sub (weightOf ![a, b, c]) (priorityWeight i) = weightOf (Function.update ![a, b, c] i false) := by
    decide +kernel
  rw [mask_eq m] at h ⊢
  exact key _ _ _ i h

/-- The weight is zero exactly when no bucket is marked. -/
theorem weightOf_eq_zero_iff {m : Fin 3 → Bool} : weightOf m = 0 ↔ ∀ i, m i = false := by
  have key : ∀ a b c : Bool, weightOf ![a, b, c] = 0 ↔ ∀ i, ![a, b, c] i = false := by decide +kernel
  rw [mask_eq m]
  exact key _ _ _

/-- The rounded proportions of the non-empty buckets add up to exactly one. -/
theorem proportionSum_weightOf {m : Fin 3 → Bool} (h : ∃ i, m i = true) :
    proportionSum m (weightOf m) 0 (List.finRange 3) = 1 := by
  have key : ∀ a b c : Bool, (∃ i, ![a, b, c] i = true) →
      proportionSum ![a, b, c] (weightOf ![a, b, c]) 0 (List.finRange 3) = 1 := by
    decide +kernel
  rw [mask_eq m] at h ⊢
  exact key _ _ _ h

/-! ## The invariant of the buckets -/

namespace RandBuckets

/-- Which buckets hold an operator. -/
def nonempty (b : RandBuckets) (i : Fin 3) : Bool := (b.buckets i).length != 0

/-- The buckets hold whole waiting units, each operator in the bucket of its
level, and the total weight is the exact weight of the non-empty buckets. -/
structure Inv (b : RandBuckets) : Prop where
  whole : ∀ i, ∀ u ∈ units (b.buckets i), IsUnit u
  level : ∀ i, ∀ op ∈ b.buckets i, op.level = i
  totalWeight : b.totalWeight = weightOf b.nonempty

theorem inv_newRandBuckets : newRandBuckets.Inv where
  whole _ u hu := by simp [newRandBuckets, units] at hu
  level _ op hop := by simp [newRandBuckets] at hop
  totalWeight := by decide +kernel

variable {b : RandBuckets}

theorem nonempty_of_buckets_eq {b' : RandBuckets} {i : Fin 3} {l : List Operator}
    (h : b'.buckets = Function.update b.buckets i l) :
    b'.nonempty = Function.update b.nonempty i (l.length != 0) := by
  funext j
  by_cases hj : j = i
  · subst hj
    simp [nonempty, h]
  · simp [nonempty, h, Function.update_of_ne hj]

/-- `PutOperator` appends to the bucket of the operator's level and keeps the
total weight exact. -/
theorem totalWeight_putOperator (hw : b.totalWeight = weightOf b.nonempty) (op : Operator) :
    (b.putOperator op).totalWeight = weightOf (b.putOperator op).nonempty := by
  have hne : (b.putOperator op).nonempty = Function.update b.nonempty op.level true := by
    rw [nonempty_of_buckets_eq (l := b.buckets op.level ++ [op]) rfl]
    simp
  rw [hne]
  simp only [putOperator]
  split_ifs with hlen
  · -- the bucket fills: its weight joins the total
    rw [hw, add_weightOf (by simp [nonempty, hlen])]
  · -- the bucket was already counted
    rw [hw, Function.update_eq_self_iff.mpr (by simpa [nonempty] using hlen)]

/-- Putting the operators of a waiting unit of one level, one after the
other, keeps the invariant and appends the unit to the bucket of its level. -/
theorem Inv.putUnit (hb : b.Inv) {u : List Operator} (hu : IsUnit u) {level : Fin 3}
    (hlevel : ∀ op ∈ u, op.level = level) :
    (u.foldl putOperator b).Inv ∧
      (u.foldl putOperator b).buckets = Function.update b.buckets level (b.buckets level ++ u) := by
  have hbuckets : ∀ (u : List Operator) (b : RandBuckets), (∀ op ∈ u, op.level = level) →
      (u.foldl putOperator b).buckets = Function.update b.buckets level (b.buckets level ++ u) := by
    intro u
    induction u with
    | nil => intro b _; simp
    | cons op u ih =>
      intro b hl
      rw [List.foldl_cons, ih _ fun op' h => hl op' (List.mem_cons_of_mem _ h)]
      simp only [putOperator, hl op List.mem_cons_self, Function.update_self, Function.update_idem,
        List.append_assoc, List.singleton_append]
  have hweight : ∀ (u : List Operator) (b : RandBuckets), b.totalWeight = weightOf b.nonempty →
      (u.foldl putOperator b).totalWeight = weightOf (u.foldl putOperator b).nonempty := by
    intro u
    induction u with
    | nil => intro b hw; exact hw
    | cons op u ih => intro b hw; exact ih _ (totalWeight_putOperator hw op)
  have hb' := hbuckets u b hlevel
  refine ⟨⟨fun i v hv => ?_, fun i op hop => ?_, hweight u b hb.totalWeight⟩, hb'⟩
  · rw [hb'] at hv
    by_cases hi : i = level
    · -- the bucket of the unit: its units are the old ones and `u`
      subst hi
      rw [Function.update_self, units_append (hb.whole i) hu] at hv
      rcases List.mem_append.mp hv with hv | hv
      · exact hb.whole i v hv
      · rw [List.mem_singleton.mp hv]; exact hu
    · rw [Function.update_of_ne hi] at hv
      exact hb.whole i v hv
  · rw [hb'] at hop
    by_cases hi : i = level
    · subst hi
      rw [Function.update_self] at hop
      rcases List.mem_append.mp hop with hop | hop
      · exact hb.level i op hop
      · exact hlevel op hop
    · rw [Function.update_of_ne hi] at hop
      exact hb.level i op hop

/-! ## Taking a waiting unit -/

/-- Where the loop of `GetOperator` ends: it takes from a non-empty bucket of
`levels`, or falls through with the draw below `sum` or at or above the sum
of all the proportions. -/
theorem getOperatorLoop_cases (b : RandBuckets) (r : ℚ) : ∀ (levels : List (Fin 3)) (sum : ℚ),
    (b.getOperatorLoop r sum levels = some (b, []) ∧
        (r < sum ∨ proportionSum b.nonempty b.totalWeight sum levels ≤ r)) ∨
      ∃ i ∈ levels, b.nonempty i = true ∧ b.getOperatorLoop r sum levels = b.takeFrom i
  | [], sum => .inl ⟨rfl, (lt_or_ge r sum).imp id id⟩
  | i :: levels, sum => by
    by_cases hlen : (b.buckets i).length = 0
    · -- an empty bucket is skipped
      have hfalse : b.nonempty i = false := by simp [nonempty, hlen]
      have hloop : b.getOperatorLoop r sum (i :: levels) = b.getOperatorLoop r sum levels := by
        rw [getOperatorLoop, if_pos hlen]
      have hprop : proportionSum b.nonempty b.totalWeight sum (i :: levels) =
          proportionSum b.nonempty b.totalWeight sum levels := by
        rw [proportionSum, hfalse, if_neg Bool.false_ne_true]
      rw [hloop, hprop]
      rcases getOperatorLoop_cases b r levels sum with h | ⟨j, hj, hjne, h⟩
      · exact .inl h
      · exact .inr ⟨j, List.mem_cons_of_mem _ hj, hjne, h⟩
    · have htrue : b.nonempty i = true := by simp [nonempty, hlen]
      by_cases hdraw : sum ≤ r ∧ r < Binary64.add sum (Binary64.div (priorityWeight i) b.totalWeight)
      · have hloop : b.getOperatorLoop r sum (i :: levels) = b.takeFrom i := by
          rw [getOperatorLoop, if_neg hlen]
          exact if_pos hdraw
        exact .inr ⟨i, List.mem_cons_self, htrue, hloop⟩
      · -- the draw lies past this bucket
        have hloop : b.getOperatorLoop r sum (i :: levels) =
            b.getOperatorLoop r (Binary64.add sum (Binary64.div (priorityWeight i) b.totalWeight)) levels := by
          rw [getOperatorLoop, if_neg hlen]
          exact if_neg hdraw
        have hprop : proportionSum b.nonempty b.totalWeight sum (i :: levels) =
            proportionSum b.nonempty b.totalWeight
              (Binary64.add sum (Binary64.div (priorityWeight i) b.totalWeight)) levels := by
          rw [proportionSum, if_pos htrue]
        rw [hloop, hprop]
        rcases getOperatorLoop_cases b r levels _ with ⟨h, hr⟩ | ⟨j, hj, hjne, h⟩
        · refine .inl ⟨h, hr.imp (fun hlt => ?_) id⟩
          by_contra hge
          exact hdraw ⟨not_lt.mp hge, hlt⟩
        · exact .inr ⟨j, List.mem_cons_of_mem _ hj, hjne, h⟩

/-- Taking the first unit of a bucket keeps the invariant. -/
theorem Inv.takeFrom (hb : b.Inv) {i : Fin 3} {u : List Operator} {us : List (List Operator)}
    (hunits : Schedule.units (b.buckets i) = u :: us) :
    ∃ b', b.takeFrom i = some (b', u) ∧ b'.Inv ∧ b'.buckets = Function.update b.buckets i us.flatten := by
  have hu := hb.whole i u (by rw [hunits]; exact List.mem_cons_self)
  have hus : ∀ v ∈ us, IsUnit v := fun v hv => hb.whole i v (by rw [hunits]; exact List.mem_cons_of_mem _ hv)
  have hsub : ∀ op ∈ us.flatten, op ∈ b.buckets i := by
    intro op hop
    rw [← flatten_units (b.buckets i), hunits, List.flatten_cons]
    exact List.mem_append_right _ hop
  refine ⟨_, by rw [RandBuckets.takeFrom, takeUnit_eq hunits hu]; rfl, ⟨fun j v hv => ?_, fun j op hop => ?_, ?_⟩, rfl⟩
  · by_cases hj : j = i
    · subst hj
      simp only [Function.update_self, units_flatten hus] at hv
      exact hus v hv
    · simp only [Function.update_of_ne hj] at hv
      exact hb.whole j v hv
  · by_cases hj : j = i
    · subst hj
      simp only [Function.update_self] at hop
      exact hb.level j op (hsub op hop)
    · simp only [Function.update_of_ne hj] at hop
      exact hb.level j op hop
  · have hfull : b.nonempty i = true := by
      have := congrArg List.length (flatten_units (b.buckets i))
      rw [hunits, List.flatten_cons, List.length_append] at this
      have hpos := List.length_pos_of_ne_nil hu.ne_nil
      simp only [nonempty, bne_iff_ne, ne_eq]
      omega
    rw [nonempty_of_buckets_eq (l := us.flatten) rfl]
    dsimp only
    split_ifs with hrest
    · -- the bucket empties: its weight leaves the total
      rw [hb.totalWeight, sub_weightOf hfull]
      simp [hrest]
    · rw [hb.totalWeight, show (us.flatten.length != 0) = true by simpa using hrest, Function.update_eq_self_iff.mpr hfull.symm]

/-- `GetOperator`, for a draw in `[0, 1)`, returns nil exactly when no
operator is waiting, and otherwise the first waiting unit of one bucket,
which leaves it. -/
theorem getOperator_spec (hb : b.Inv) {r : ℚ} (hr0 : 0 ≤ r) (hr1 : r < 1) :
    ∃ b' res, b.getOperator r = some (b', res) ∧ b'.Inv ∧
      (res = [] ↔ ∀ i, b.buckets i = []) ∧
      (res = [] → b' = b) ∧
      (res ≠ [] → ∃ i us, units (b.buckets i) = res :: us ∧ IsUnit res ∧
        b'.buckets = Function.update b.buckets i us.flatten) := by
  by_cases hempty : ∀ i, b.buckets i = []
  · -- nothing waits: the total weight is zero
    have hzero : b.totalWeight = 0 := by
      rw [hb.totalWeight, weightOf_eq_zero_iff]
      intro i
      simp [nonempty, hempty i]
    exact ⟨b, [], by simp [getOperator, hzero], hb, iff_of_true rfl hempty, fun _ => rfl, fun h => absurd rfl h⟩
  · obtain ⟨j, hj⟩ := not_forall.mp hempty
    have hsome : ∃ i, b.nonempty i = true := ⟨j, by simpa [nonempty] using hj⟩
    have hpos : b.totalWeight ≠ 0 := by
      rw [hb.totalWeight, Ne, weightOf_eq_zero_iff]
      obtain ⟨i, hi⟩ := hsome
      exact fun h => absurd (h i) (by simp [hi])
    have hsum := proportionSum_weightOf hsome
    rw [← hb.totalWeight] at hsum
    rcases getOperatorLoop_cases b r (List.finRange 3) 0 with ⟨-, hr⟩ | ⟨i, -, hi, h⟩
    · -- the proportions cover `[0, 1)`
      rw [hsum] at hr
      exact absurd hr (not_or.mpr ⟨not_lt.mpr hr0, not_le.mpr hr1⟩)
    · obtain ⟨u, us, hunits⟩ := List.exists_cons_of_ne_nil (fun hnil : units (b.buckets i) = [] => by
        have := congrArg List.flatten hnil
        rw [flatten_units] at this
        simp [nonempty, this] at hi)
      obtain ⟨b', htake, hb', hbuckets⟩ := hb.takeFrom hunits
      have hu := hb.whole i u (by rw [hunits]; exact List.mem_cons_self)
      refine ⟨b', u, by rw [getOperator, if_neg hpos, h, htake], hb', ?_, fun h => absurd h hu.ne_nil,
        fun _ => ⟨i, us, hunits, hu, hbuckets⟩⟩
      exact iff_of_false hu.ne_nil fun hall => hj (hall j)

/-! ## The waiting units of each description -/

@[simp] theorem mem_listOperator {op : Operator} : op ∈ b.listOperator ↔ ∃ i, op ∈ b.buckets i := by
  simp [listOperator]

theorem listOperator_eq_nil_iff : b.listOperator = [] ↔ ∀ i, b.buckets i = [] := by
  simp [listOperator, List.flatMap_eq_nil_iff]

/-- Changing one bucket changes the waiting operators by the bucket's old and
new contents, counted with multiplicity. -/
theorem listOperator_perm_of_buckets_eq {b' : RandBuckets} {i : Fin 3} {l : List Operator}
    (h : b'.buckets = Function.update b.buckets i l) :
    (b.listOperator ++ l).Perm (b'.listOperator ++ b.buckets i) := by
  have hlist : ∀ c : RandBuckets, c.listOperator = c.buckets 0 ++ (c.buckets 1 ++ c.buckets 2) := by
    intro c
    simp [listOperator, List.finRange_succ]
  rw [hlist, hlist, h, List.perm_iff_count]
  intro a
  fin_cases i <;> simp [Function.update, List.count_append] <;> omega

/-- Putting a unit adds its operators to the waiting ones. -/
theorem listOperator_putUnit (hb : b.Inv) {u : List Operator} (hu : IsUnit u) {level : Fin 3}
    (hlevel : ∀ op ∈ u, op.level = level) :
    (u.foldl putOperator b).listOperator.Perm (b.listOperator ++ u) := by
  have hperm := listOperator_perm_of_buckets_eq (hb.putUnit hu hlevel).2
  rw [List.perm_iff_count] at hperm ⊢
  intro a
  have hcount := hperm a
  simp only [List.count_append] at hcount ⊢
  omega

/-- Taking the first unit of a bucket removes its operators from the waiting
ones. -/
theorem listOperator_take {b' : RandBuckets} {i : Fin 3} {u : List Operator} {us : List (List Operator)}
    (hunits : units (b.buckets i) = u :: us) (h : b'.buckets = Function.update b.buckets i us.flatten) :
    b.listOperator.Perm (b'.listOperator ++ u) := by
  have hperm := listOperator_perm_of_buckets_eq h
  rw [← flatten_units (b.buckets i), hunits, List.flatten_cons] at hperm
  rw [List.perm_iff_count] at hperm ⊢
  intro a
  have hcount := hperm a
  simp only [List.count_append] at hcount ⊢
  omega

/-- The waiting units of all buckets whose first operator has description `d`. -/
def unitCount (b : RandBuckets) (d : String) : Nat :=
  ((List.finRange 3).map fun i => (units (b.buckets i)).countP fun u => u.head?.map (·.desc) == some d).sum

/-- Changing one bucket changes its own term of the sum. -/
theorem sum_finRange_update (f : Fin 3 → Nat) (i : Fin 3) (v : Nat) :
    ((List.finRange 3).map (Function.update f i v)).sum + f i = ((List.finRange 3).map f).sum + v := by
  fin_cases i <;> simp [List.finRange, Function.update] <;> omega

theorem unitCount_of_buckets_eq {b' : RandBuckets} {i : Fin 3} {l : List Operator}
    (h : b'.buckets = Function.update b.buckets i l) (d : String) :
    b'.unitCount d + (units (b.buckets i)).countP (fun u => u.head?.map (·.desc) == some d) =
      b.unitCount d + (units l).countP (fun u => u.head?.map (·.desc) == some d) := by
  have hfun : (fun j => (units (b'.buckets j)).countP fun u => u.head?.map (·.desc) == some d) =
      Function.update (fun j => (units (b.buckets j)).countP fun u => u.head?.map (·.desc) == some d) i
        ((units l).countP fun u => u.head?.map (·.desc) == some d) := by
    funext j
    by_cases hj : j = i
    · subst hj
      simp [h]
    · simp [h, Function.update_of_ne hj]
  rw [unitCount, unitCount, hfun]
  exact sum_finRange_update _ i _

/-- Putting a unit adds one unit of its description. -/
theorem unitCount_putUnit (hb : b.Inv) {u : List Operator} (hu : IsUnit u) {level : Fin 3}
    (hlevel : ∀ op ∈ u, op.level = level) (d : String) :
    (u.foldl putOperator b).unitCount d =
      b.unitCount d + if u.head?.map (·.desc) = some d then 1 else 0 := by
  have hcount := unitCount_of_buckets_eq (hb.putUnit hu hlevel).2 d
  rw [units_append (hb.whole level) hu, List.countP_append] at hcount
  by_cases hd : u.head?.map (·.desc) = some d
  · simp_all
    omega
  · simp_all

/-- Taking a unit removes one unit of its description. -/
theorem unitCount_take {b' : RandBuckets} {i : Fin 3} {u : List Operator} {us : List (List Operator)}
    (hb : b.Inv) (hunits : units (b.buckets i) = u :: us) (h : b'.buckets = Function.update b.buckets i us.flatten)
    (d : String) :
    b'.unitCount d + (if u.head?.map (·.desc) = some d then 1 else 0) = b.unitCount d := by
  have hus : ∀ v ∈ us, IsUnit v := fun v hv => hb.whole i v (by rw [hunits]; exact List.mem_cons_of_mem _ hv)
  have hcount := unitCount_of_buckets_eq h d
  rw [hunits, units_flatten hus, List.countP_cons] at hcount
  by_cases hd : u.head?.map (·.desc) = some d
  · simp_all
    omega
  · simp_all

end RandBuckets

end MatrixCube.Prophet.Schedule
