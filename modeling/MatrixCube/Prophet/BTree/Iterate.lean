import MatrixCube.Prophet.BTree.Tree
import MatrixCube.Lib.Feed

/-! # Iteration: `AscendRange` to `Descend`

The eight iteration functions of `BTree` run `node.iterate` from the root with
a start, a stop and whether to include the start item. Ascending, each node
starts its loop at the first item not below the start, visiting the child
before each item and then the item; descending, at the last item not above the
start, visiting each item and then the child before it, with a `hit` flag that
lets the start item through only while no item has been met.

The callback is a step on its own state, so an iteration is an early-exit walk
`List.feed`. On a good subtree with sorted items, `iterate` is the walk of one
step per item over the subtree in order (`iterate_ascend_eq`) or backwards
(`iterate_descend_eq`): the loops walk `ascendList` and `descendList`, which
are the subtree's items from the start on. Past the items below (above) the
start, that step is the callback behind the stop (`feed_ascendStep`,
`feed_descendStep`), so on a tree that holds the sorted set `s`, each function
calls the callback on the items of its range in order until it returns false.
-/

namespace MatrixCube.Prophet.Btree

variable {α : Type*}

namespace Node

section Steps

variable {K : Type*} [LinearOrder K] (key : α → K) {σ : Type*}

/-- Whether an item lies below the start of an iteration. -/
def belowStart (start : Option α) (x : α) : Bool :=
  match start with
  | some s => decide (key x < key s)
  | none => false

/-- Whether an item lies above the start of an iteration. -/
def aboveStart (start : Option α) (x : α) : Bool :=
  match start with
  | some s => decide (key s < key x)
  | none => false

/-- Whether ascending `iterate` stops at an item: one not below the stop. -/
def ascendStop (stop : Option α) (x : α) : Bool :=
  match stop with
  | some s => !decide (key x < key s)
  | none => false

/-- Whether descending `iterate` stops at an item: one not above the stop. -/
def descendStop (stop : Option α) (x : α) : Bool :=
  match stop with
  | some s => !decide (key s < key x)
  | none => false

/-- What ascending `iterate` does at one item of a subtree, in order: an item
below the start is never reached, and any other gets the loop's body. -/
def ascendStep (start stop : Option α) (includeStart : Bool) (iter : σ → α → σ × Bool) (b : Bool × σ)
    (x : α) :
    (Bool × σ) × Bool :=
  if belowStart key start x then (b, true) else ascendItem key start stop includeStart iter b.1 b.2 x

/-- What descending `iterate` does at one item of a subtree, going down: the
loop passes over it, or gives it its body. -/
def descendStep (start stop : Option α) (includeStart : Bool) (iter : σ → α → σ × Bool) (b : Bool × σ)
    (x : α) :
    (Bool × σ) × Bool :=
  if descendSkip key start includeStart b.1 x then (b, true) else descendItem key stop iter b.1 b.2 x

/-- A walk's end in the order `iterate` returns it: whether an item was met,
whether to go on, and the iterator's state. -/
def walked (r : (Bool × σ) × Bool) : Bool × Bool × σ := (r.1.1, r.2, r.1.2)

variable {start stop : Option α} {includeStart : Bool} {iter : σ → α → σ × Bool}

/-- The ascending walk passes over an item below the start. -/
theorem ascendStep_of_below {x : α} (h : belowStart key start x = true) (b : Bool × σ) :
    ascendStep key start stop includeStart iter b x = (b, true) := by
  simp [ascendStep, h]

/-- The descending walk passes over an item above the start. -/
theorem descendStep_of_above {x : α} (h : aboveStart key start x = true) (b : Bool × σ) :
    descendStep key start stop includeStart iter b x = (b, true) := by
  cases start with
  | none => simp [aboveStart] at h
  | some s =>
    simp only [aboveStart, decide_eq_true_eq] at h
    simp [descendStep, descendSkip, not_lt_of_gt h, h]

/-- Above the start, the descending walk passes over every item beyond one not
below it. -/
theorem descendStep_above {s x y : α} (hsx : ¬ key x < key s) (hxy : key x < key y) (b : Bool × σ) :
    descendStep key (some s) stop includeStart iter b y = (b, true) := by
  have hsy : key s < key y := lt_of_le_of_lt (not_lt.mp hsx) hxy
  simp [descendStep, descendSkip, not_lt_of_gt hsy, hsy]

theorem ascendStop_mono {a b : α} (hab : key a < key b) (ha : ascendStop key stop a = true) :
    ascendStop key stop b = true := by
  cases stop with
  | none => simp [ascendStop] at ha
  | some s =>
    simp only [ascendStop, Bool.not_eq_true', decide_eq_false_iff_not, not_lt] at ha ⊢
    exact le_of_lt (lt_of_le_of_lt ha hab)

theorem descendStop_mono {a b : α} (hab : key b < key a) (ha : descendStop key stop a = true) :
    descendStop key stop b = true := by
  cases stop with
  | none => simp [descendStop] at ha
  | some s =>
    simp only [descendStop, Bool.not_eq_true', decide_eq_false_iff_not, not_lt] at ha ⊢
    exact le_of_lt (lt_of_lt_of_le hab ha)

/-- When the start item is included or there is no start, the loop's body at
an item calls the iterator unless the item is past the stop. -/
theorem ascendItem_eq (hinc : includeStart = true ∨ start = none) (hit : Bool) (st : σ) (x : α) :
    ascendItem key start stop includeStart iter hit st x =
      if ascendStop key stop x then ((true, st), false) else ((true, (iter st x).1), (iter st x).2) := by
  rcases hinc with rfl | rfl
  · cases start <;> rfl
  · rfl

/-- Past the items below the start, when the start item is included or there
is no start, an ascending step is the iterator behind the stop. -/
theorem ascendStep_of_not_below (hinc : includeStart = true ∨ start = none) {x : α}
    (hx : belowStart key start x = false) (b : Bool × σ) :
    (ascendStep key start stop includeStart iter b x).1.2 = (List.stopWhen (ascendStop key stop) iter b.2 x).1 ∧
      (ascendStep key start stop includeStart iter b x).2 = (List.stopWhen (ascendStop key stop) iter b.2 x).2 := by
  rw [ascendStep, hx, if_neg Bool.false_ne_true, ascendItem_eq key hinc, List.stopWhen]
  split_ifs <;> exact ⟨rfl, rfl⟩

/-- Where the descending loop does not pass over an item, its step is the
iterator behind the stop. -/
theorem descendStep_of_no_skip {b : Bool × σ} {x : α} (h : descendSkip key start includeStart b.1 x = false) :
    (descendStep key start stop includeStart iter b x).1.2 = (List.stopWhen (descendStop key stop) iter b.2 x).1 ∧
      (descendStep key start stop includeStart iter b x).2 = (List.stopWhen (descendStop key stop) iter b.2 x).2 := by
  unfold descendStep descendItem List.stopWhen
  rw [h]
  cases stop with
  | none => simp [descendStop]
  | some s => by_cases h : key s < key x <;> simp [descendStop, h]

/-- An ascending walk over sorted items calls the iterator on those from the
start to before the stop. -/
theorem feed_ascendStep {L : List α} (hs : L.Pairwise fun a b => key a < key b)
    (hinc : includeStart = true ∨ start = none) (b : Bool × σ) :
    (List.feed (ascendStep key start stop includeStart iter) L b).1.2 =
      (List.feed iter (L.filter fun x => !ascendStop key stop x && !belowStart key start x) b.2).1 := by
  have hmono : (L.filter fun x => !belowStart key start x).Pairwise
      fun a b => ascendStop key stop a = true → ascendStop key stop b = true :=
    (hs.filter _).imp fun hab => ascendStop_mono key hab
  rw [List.feed_filter (fun x => !belowStart key start x)
      fun x _ hx b => ascendStep_of_below key (by simpa using hx) b,
    (List.feed_map Prod.snd (fun x hx b => ascendStep_of_not_below key hinc
      (by simpa using (List.mem_filter.mp hx).2) b) b).1,
    List.feed_stopWhen _ hmono, List.filter_filter]

/-- A descending walk over sorted items, from no item met, calls the iterator
on those from the start down to above the stop. -/
theorem feed_descendStep {L : List α} (hs : L.Pairwise fun a b => key a < key b)
    (hinc : includeStart = true ∨ start = none) (st : σ) :
    (List.feed (descendStep key start stop includeStart iter) L.reverse (false, st)).1.2 =
      (List.feed iter (L.filter fun x => !descendStop key stop x && !aboveStart key start x).reverse st).1 := by
  rw [List.feed_filter (fun x => !aboveStart key start x)
      fun x _ hx b => descendStep_of_above key (by simpa using hx) b,
    ← List.filter_filter, List.filter_reverse]
  have hA : (L.filter fun x => !aboveStart key start x).Pairwise fun a b => key a < key b := hs.filter _
  have hnot : ∀ x ∈ L.filter (fun x => !aboveStart key start x), aboveStart key start x = false :=
    fun x hx => by simpa using (List.mem_filter.mp hx).2
  generalize L.filter (fun x => !aboveStart key start x) = A at hA hnot
  have hrev : A.reverse.Pairwise fun a b => key b < key a := List.pairwise_reverse.mpr hA
  rw [← List.filter_reverse, ← List.feed_stopWhen _ (hrev.imp fun hab => descendStop_mono key hab)]
  cases hAr : A.reverse with
  | nil => rfl
  | cons y R =>
    rw [hAr] at hrev
    have hy : aboveStart key start y = false := hnot y (List.mem_reverse.mp (hAr ▸ List.mem_cons_self))
    -- the first item is reached with no item met, so even the start item is not passed over
    have hhead : descendSkip key start includeStart false y = false := by
      rcases hinc with rfl | rfl
      · cases start with
        | none => rfl
        | some s =>
          have hsy : ¬ key s < key y := by simpa [aboveStart] using hy
          simp [descendSkip, hsy]
      · rfl
    -- the items after it lie below the start
    have hrest : ∀ x ∈ R, ∀ b : Bool × σ, descendSkip key start includeStart b.1 x = false := by
      intro x hx b
      cases start with
      | none => rfl
      | some s =>
        have hxs : key x < key s :=
          lt_of_lt_of_le (List.rel_of_pairwise_cons hrev hx) (by simpa [aboveStart] using hy)
        simp [descendSkip, hxs]
    obtain ⟨h1, h2⟩ : (descendStep key start stop includeStart iter (false, st) y).1.2 =
          (List.stopWhen (descendStop key stop) iter st y).1 ∧
        (descendStep key start stop includeStart iter (false, st) y).2 =
          (List.stopWhen (descendStop key stop) iter st y).2 :=
      descendStep_of_no_skip key hhead
    rw [List.feed_cons, List.feed_cons, ← h2, ← h1]
    split_ifs
    · exact (List.feed_map Prod.snd (fun x hx b => descendStep_of_no_skip key (hrest x hx b)) _).1
    · rfl

end Steps

section Loops

variable {σ : Type*}

/-- The items of child `i` of a node as a walk takes them, none in a leaf. -/
def childWalk (F : Node α → List α) (n : Node α) (i : Nat) : List α :=
  if n.children ≠ [] then F (n.children.getD i default) else []

theorem lt_length_children {n : Node α} (hshape : n.children = [] ∨ n.children.length = n.items.length + 1)
    {i : Nat} (hi : i ≤ n.items.length) : n.children ≠ [] → i < n.children.length := by
  intro hc
  rcases hshape with h | h
  · exact absurd h hc
  · omega

theorem visitChild_eq {step : Bool × σ → α → (Bool × σ) × Bool} {F : Node α → List α}
    {rec : Node α → Bool → σ → Option (Bool × Bool × σ)} {n : Node α}
    (hrec : ∀ c ∈ n.children, ∀ hit st, rec c hit st = some (walked (List.feed step (F c) (hit, st))))
    {i : Nat} (hi : n.children ≠ [] → i < n.children.length) (hit : Bool) (st : σ) :
    visitChild rec n i hit st = some (walked (List.feed step (childWalk F n i) (hit, st))) := by
  unfold visitChild childWalk
  split_ifs with hc
  · rw [List.getD_eq_getElem _ _ (hi hc)]
    exact hrec _ (List.getElem_mem _) hit st
  · rfl

theorem mem_childWalk_reverse {n : Node α} {i : Nat} {y : α} :
    y ∈ childWalk (fun c => (flat c).reverse) n i ↔ y ∈ childWalk flat n i := by
  unfold childWalk
  split_ifs <;> simp

variable [Inhabited α] {K : Type*} [LinearOrder K] (key : α → K)

/-- What the ascending loop walks from item `i` with `count` items left. -/
def ascendList (n : Node α) : Nat → Nat → List α
  | _, 0 => childWalk flat n (n.children.length - 1)
  | i, count + 1 => childWalk flat n i ++ n.items.getD i default :: ascendList n (i + 1) count

/-- What the descending loop walks with `i` items left, going down. -/
def descendList (n : Node α) : Nat → List α
  | 0 => childWalk (fun c => (flat c).reverse) n 0
  | i + 1 => childWalk (fun c => (flat c).reverse) n (i + 1) ++ n.items.getD i default :: descendList n i

variable {start stop : Option α} {includeStart : Bool} {iter : σ → α → σ × Bool}

/-- The ascending loop walks `ascendList`, when none of its items lies below
the start. -/
theorem ascendLoop_eq {rec : Node α → Bool → σ → Option (Bool × Bool × σ)} {n : Node α}
    (hrec : ∀ c ∈ n.children, ∀ hit st,
      rec c hit st = some (walked (List.feed (ascendStep key start stop includeStart iter) (flat c) (hit, st))))
    (hshape : n.children = [] ∨ n.children.length = n.items.length + 1) :
    ∀ (count i : Nat) (hit : Bool) (st : σ), i + count = n.items.length →
      (∀ j, i ≤ j → j < n.items.length → belowStart key start (n.items.getD j default) = false) →
      ascendLoop key rec start stop includeStart iter n i count hit st =
        some (walked (List.feed (ascendStep key start stop includeStart iter) (ascendList n i count) (hit, st)))
  | 0, i, hit, st, _, _ => by
    have hlast : n.children ≠ [] → n.children.length - 1 < n.children.length := fun hc =>
      Nat.sub_lt (List.length_pos_of_ne_nil hc) Nat.one_pos
    rw [ascendLoop, ascendList.eq_1, visitChild_eq hrec hlast]
  | count + 1, i, hit, st, hcount, hbelow => by
    rw [ascendLoop, visitChild_eq hrec (lt_length_children hshape (by omega)), ascendList.eq_2, List.feed_append]
    generalize List.feed (ascendStep key start stop includeStart iter) (childWalk flat n i) (hit, st) = r
    obtain ⟨⟨hit₁, st₁⟩, _ | _⟩ := r
    · rfl
    · simp only [walked, if_true, List.feed_cons, ascendStep, hbelow i le_rfl (by omega)]
      generalize ascendItem key start stop includeStart iter hit₁ st₁ (n.items.getD i default) = q
      obtain ⟨⟨hit₂, st₂⟩, _ | _⟩ := q
      · rfl
      · exact ascendLoop_eq hrec hshape count (i + 1) hit₂ st₂ (by omega)
          fun j hj hjn => hbelow j (by omega) hjn

/-- The descending loop walks `descendList`, when the items of each child lie
above the item before it. -/
theorem descendLoop_eq {rec : Node α → Bool → σ → Option (Bool × Bool × σ)} {n : Node α}
    (hrec : ∀ c ∈ n.children, ∀ hit st, rec c hit st =
      some (walked (List.feed (descendStep key start stop includeStart iter) (flat c).reverse (hit, st))))
    (hshape : n.children = [] ∨ n.children.length = n.items.length + 1)
    (hsort : ∀ j, j < n.items.length → ∀ y ∈ childWalk flat n (j + 1), key (n.items.getD j default) < key y) :
    ∀ (i : Nat) (hit : Bool) (st : σ), i ≤ n.items.length →
      descendLoop key rec start stop includeStart iter n i hit st =
        some (walked (List.feed (descendStep key start stop includeStart iter) (descendList n i) (hit, st)))
  | 0, hit, st, _ => by
    rw [descendLoop, descendList.eq_1, visitChild_eq hrec (lt_length_children hshape (Nat.zero_le _))]
  | i + 1, hit, st, hi => by
    rw [descendLoop, descendList.eq_2, List.feed_append]
    -- the item is never passed over, or the child after it is passed over whole
    have hcases : (∀ h', descendSkip key start includeStart h' (n.items.getD i default) = false) ∨
        ∀ y ∈ childWalk (fun c => (flat c).reverse) n (i + 1), ∀ b,
          descendStep key start stop includeStart iter b y = (b, true) := by
      cases start with
      | none => exact .inl fun _ => rfl
      | some s =>
        by_cases hxs : key (n.items.getD i default) < key s
        · exact .inl fun _ => by simp only [descendSkip, hxs, decide_true, Bool.not_true, Bool.false_and]
        · exact .inr fun y hy b => descendStep_above key hxs (hsort i (by omega) y (mem_childWalk_reverse.mp hy)) b
    by_cases hskip : descendSkip key start includeStart hit (n.items.getD i default) = true
    · have hpass := hcases.resolve_left fun h => by rw [h hit] at hskip; exact Bool.false_ne_true hskip
      rw [if_pos hskip, List.feed_of_pass hpass, if_pos rfl, List.feed_cons, descendStep, if_pos hskip, if_pos rfl]
      exact descendLoop_eq hrec hshape hsort i hit st (by omega)
    · rw [if_neg hskip, visitChild_eq hrec (lt_length_children hshape (by omega))]
      generalize hr : List.feed (descendStep key start stop includeStart iter)
        (childWalk (fun c => (flat c).reverse) n (i + 1)) (hit, st) = r
      obtain ⟨⟨hit₁, st₁⟩, _ | _⟩ := r
      · rfl
      · have hskip₁ : descendSkip key start includeStart hit₁ (n.items.getD i default) = false := by
          rcases hcases with h | hpass
          · exact h hit₁
          · rw [List.feed_of_pass hpass] at hr
            obtain ⟨rfl, -⟩ := Prod.mk.inj (Prod.mk.inj hr).1
            simpa using hskip
        simp only [walked, if_true, List.feed_cons, descendStep, hskip₁]
        generalize descendItem key stop iter hit₁ st₁ (n.items.getD i default) = q
        obtain ⟨⟨hit₂, st₂⟩, _ | _⟩ := q
        · rfl
        · exact descendLoop_eq hrec hshape hsort i hit₂ st₂ (by omega)

end Loops

section Lists

variable [Inhabited α]

theorem ascendList_leaf (indices : List Int) :
    ∀ X Y : List α, ascendList (mk (X ++ Y) [] indices) X.length Y.length = Y
  | X, [] => by simp [ascendList, childWalk]
  | X, y :: Y => by
    have h := ascendList_leaf indices (X ++ [y]) Y
    rw [List.append_assoc, List.singleton_append, List.length_append, List.length_singleton] at h
    rw [List.length_cons, ascendList.eq_2, h]
    simp [childWalk]

theorem ascendList_internal (indices : List Int) :
    ∀ (X Y : List α) (A B : List (Node α)) (c : Node α), A.length = X.length → B.length = Y.length →
      ascendList (mk (X ++ Y) (A ++ c :: B) indices) X.length Y.length = flat c ++ post Y B
  | X, [], A, [], c, hA, _ => by
    simp [ascendList, childWalk, post, ← hA]
  | X, y :: Y, A, d :: B, c, hA, hB => by
    have h := ascendList_internal indices (X ++ [y]) Y (A ++ [c]) B d (by simp [hA]) (by simpa using hB)
    simp only [List.append_assoc, List.singleton_append, List.length_append, List.length_singleton] at h
    rw [List.length_cons, ascendList.eq_2, h]
    simp [childWalk, ← hA]

theorem descendList_leaf (indices : List Int) (X : List α) :
    ∀ Y : List α, descendList (mk (X ++ Y) [] indices) X.length = X.reverse := by
  induction X using List.reverseRecOn with
  | nil => intro Y; simp [descendList, childWalk]
  | append_singleton X x ih =>
    intro Y
    rw [List.append_assoc, List.singleton_append, List.length_append, List.length_singleton, descendList.eq_2,
      ih (x :: Y)]
    simp [childWalk]

theorem descendList_internal (indices : List Int) (X : List α) :
    ∀ (Y : List α) (A B : List (Node α)) (c : Node α), A.length = X.length →
      descendList (mk (X ++ Y) (A ++ c :: B) indices) X.length = (pre A X ++ flat c).reverse := by
  induction X using List.reverseRecOn with
  | nil =>
    intro Y A B c hA
    rw [List.eq_nil_of_length_eq_zero hA]
    simp [descendList, childWalk]
  | append_singleton X x ih =>
    intro Y A B c hA
    obtain ⟨A, a, rfl⟩ : ∃ A' a, A = A' ++ [a] := by
      rcases List.eq_nil_or_concat A with rfl | ⟨A', a, rfl⟩
      · simp at hA
      · exact ⟨A', a, List.concat_eq_append⟩
    have hA' : A.length = X.length := by simpa using hA
    have hchild : (A ++ a :: c :: B).getD (X.length + 1) default = c := by
      rw [show A ++ a :: c :: B = (A ++ [a]) ++ c :: B by simp, show X.length + 1 = (A ++ [a]).length by simp [hA'],
        List.getD_append_length]
    rw [List.append_assoc, List.singleton_append, List.length_append, List.length_singleton,
      List.append_assoc, List.singleton_append, descendList.eq_2, ih (x :: Y) A (c :: B) a hA',
      pre_append hA' [a] [x]]
    simp [childWalk, -List.getD_eq_getElem?_getD, hchild, List.getD_append_length]

end Lists

section Nodes

variable {K : Type*} [LinearOrder K] (key : α → K) {σ : Type*}
  {start stop : Option α} {includeStart : Bool} {iter : σ → α → σ × Bool} {minItems maxItems : Nat}

theorem sorted_of_mem_children {h lo : Nat} {n c : Node α} (hg : Good minItems maxItems (h + 1) lo n)
    (hs : (flat n).Pairwise fun a b => key a < key b) (hc : c ∈ n.children) :
    (flat c).Pairwise fun a b => key a < key b := by
  obtain ⟨items, children, indices⟩ := n
  obtain ⟨A, B, rfl⟩ := List.append_of_mem hc
  have hlen := hg.1
  simp only [children_mk, items_mk, List.length_append, List.length_cons] at hlen
  have hA : A.length = (items.take A.length).length := by simp; omega
  rw [← List.take_append_drop A.length items, flat_window hA] at hs
  exact hs.sublist (List.infix_append _ _ _).sublist

/-- What lies before the child at the start is below it. -/
theorem below_of_mem_pre {A : List (Node α)} {P L : List α} (hA : A.length = P.length)
    (hP : ∀ x ∈ P, belowStart key start x = true) (hs : (pre A P ++ L).Pairwise fun a b => key a < key b) :
    ∀ e ∈ pre A P, belowStart key start e = true := by
  cases start with
  | none =>
    obtain rfl : P = [] := List.eq_nil_iff_forall_not_mem.mpr fun x hx => by simpa [belowStart] using hP x hx
    obtain rfl : A = [] := List.eq_nil_of_length_eq_zero hA
    simp
  | some s =>
    intro e he
    simpa [belowStart] using lt_of_mem_pre key hs hA (fun x hx => by simpa [belowStart] using hP x hx) e he

/-- What lies after the child at the start is above it. -/
theorem above_of_mem_post {Y : List α} {B : List (Node α)} {L : List α} (hB : Y.length = B.length)
    (hY : ∀ y ∈ Y, aboveStart key start y = true) (hs : (L ++ post Y B).Pairwise fun a b => key a < key b) :
    ∀ e ∈ post Y B, aboveStart key start e = true := by
  cases start with
  | none =>
    obtain rfl : Y = [] := List.eq_nil_iff_forall_not_mem.mpr fun y hy => by simpa [aboveStart] using hY y hy
    obtain rfl : B = [] := List.eq_nil_of_length_eq_zero hB.symm
    simp [post]
  | some s =>
    intro e he
    simpa [aboveStart] using lt_of_mem_post key hs hB (fun y hy => by simpa [aboveStart] using hY y hy) e he

variable [Inhabited α]

/-- The items of the child after item `j` lie above it. -/
theorem lt_of_mem_childWalk {n : Node α} (hshape : n.children = [] ∨ n.children.length = n.items.length + 1)
    (hs : (flat n).Pairwise fun a b => key a < key b) {j : Nat} (hj : j < n.items.length) {y : α}
    (hy : y ∈ childWalk flat n (j + 1)) : key (n.items.getD j default) < key y := by
  obtain ⟨items, children, indices⟩ := n
  unfold childWalk at hy
  split_ifs at hy with hne
  · have hc : children.length = items.length + 1 := hshape.resolve_left hne
    obtain ⟨X, x, Y, rfl, hX⟩ := List.exists_append_cons_of_lt hj
    obtain ⟨A, c, R, rfl, hA⟩ := List.exists_append_cons_of_lt (show X.length < children.length by
      simp only [List.length_append, List.length_cons] at hc; omega)
    obtain ⟨d, B, rfl⟩ : ∃ d B, R = d :: B := by
      cases R with
      | nil => simp at hc; omega
      | cons d B => exact ⟨d, B, rfl⟩
    rw [flat_window_pair hA] at hs
    have hs' : ((pre A X ++ flat c ++ [x]) ++ (flat d ++ post Y B)).Pairwise fun a b => key a < key b := by
      simpa only [List.append_assoc, List.cons_append, List.singleton_append, List.nil_append] using hs
    have hd : (A ++ c :: d :: B).getD (j + 1) default = d := by
      rw [show A ++ c :: d :: B = (A ++ [c]) ++ d :: B by simp, show j + 1 = (A ++ [c]).length by simp [hA, hX],
        List.getD_append_length]
    simp only [children_mk, hd] at hy
    rw [items_mk, ← hX, List.getD_append_length]
    exact hs'.rel_of_mem_append (by simp) (List.mem_append_left _ hy)
  · simp at hy

/-- Ascending, `iterate` goes to the first item not below the start. -/
theorem ascend_cut {items : List α} (hs : items.Pairwise fun a b => key a < key b) (start : Option α) :
    ∃ P Q, items = P ++ Q ∧ (∀ x ∈ P, belowStart key start x = true) ∧
      (∀ x ∈ Q, belowStart key start x = false) ∧
        (start.elim 0 fun s => (findItem key items s).1) = P.length := by
  cases start with
  | none => exact ⟨[], items, rfl, by simp, fun _ _ => rfl, rfl⟩
  | some s =>
    obtain ⟨P, Q, hPQ, hP, hQ⟩ := exists_cut key .removeItem s hs
    refine ⟨P, Q, hPQ, fun x hx => by simpa [belowStart] using hP x hx,
      fun x hx => by simpa [belowStart] using hQ x hx, findItem_fst key hs hPQ hP hQ⟩

/-- Descending, `iterate` counts the items not above the start. -/
theorem descend_cut {items : List α} (hs : items.Pairwise fun a b => key a < key b) (start : Option α) :
    ∃ X Y, items = X ++ Y ∧ (∀ y ∈ Y, aboveStart key start y = true) ∧
      (start.elim items.length fun s =>
        if (findItem key items s).2 then (findItem key items s).1 + 1 else (findItem key items s).1) = X.length := by
  cases start with
  | none => exact ⟨items, [], by simp, by simp, rfl⟩
  | some s =>
    rcases findItem_cases key hs s with ⟨A, y, B, hAB, hy, hf⟩ | ⟨A, B, hAB, -, hB, hf⟩
    · have hB := (OrderedSet.lt_window (hAB ▸ hs)).2
      exact ⟨A ++ [y], B, by simp [hAB], fun b hb => by simpa [aboveStart, ← hy] using hB b hb, by simp [hf]⟩
    · exact ⟨A, B, hAB, fun b hb => by simpa [aboveStart] using hB b hb, by simp [hf]⟩

/-- Ascending, `iterate` runs its loop from the first item not below the start. -/
theorem iterate_ascend_unfold (f : Nat) (n : Node α) (hit : Bool) (st : σ) :
    n.iterate key .ascend start stop includeStart iter (f + 1) hit st =
      ascendLoop key (iterate key .ascend start stop includeStart iter f) start stop includeStart iter n
        (start.elim 0 fun s => (findItem key n.items s).1)
        (n.items.length - start.elim 0 fun s => (findItem key n.items s).1) hit st := by
  cases start <;> rfl

/-- Descending, `iterate` runs its loop from the last item not above the start. -/
theorem iterate_descend_unfold (f : Nat) (n : Node α) (hit : Bool) (st : σ) :
    n.iterate key .descend start stop includeStart iter (f + 1) hit st =
      descendLoop key (iterate key .descend start stop includeStart iter f) start stop includeStart iter n
        (start.elim n.items.length fun s =>
          if (findItem key n.items s).2 then (findItem key n.items s).1 + 1 else (findItem key n.items s).1)
        hit st := by
  cases start <;> rfl

/-- One level of ascending `iterate`: the loop from the first item not below
the start walks the subtree in order, given that each child is walked so. -/
theorem iterate_ascend_succ {f : Nat} {n : Node α}
    (hshape : n.children = [] ∨ n.children.length = n.items.length + 1)
    (hs : (flat n).Pairwise fun a b => key a < key b)
    (hrec : ∀ c ∈ n.children, ∀ hit st, c.iterate key .ascend start stop includeStart iter f hit st =
      some (walked (List.feed (ascendStep key start stop includeStart iter) (flat c) (hit, st))))
    (hit : Bool) (st : σ) :
    n.iterate key .ascend start stop includeStart iter (f + 1) hit st =
      some (walked (List.feed (ascendStep key start stop includeStart iter) (flat n) (hit, st))) := by
  obtain ⟨items, children, indices⟩ := n
  have hitems : items.Pairwise fun a b => key a < key b := hs.sublist (sublist_flat hshape)
  obtain ⟨P, Q, rfl, hP, hQ, hidx⟩ := ascend_cut key hitems start
  have hQ' : ∀ j, P.length ≤ j → j < (P ++ Q).length →
      belowStart key start ((P ++ Q).getD j default) = false := by
    intro j hj hjn
    rw [List.getD_append_right _ _ _ _ hj, List.getD_eq_getElem _ _ (by simp at hjn; omega)]
    exact hQ _ (List.getElem_mem _)
  rw [iterate_ascend_unfold, items_mk, hidx, show (P ++ Q).length - P.length = Q.length by simp,
    ascendLoop_eq key hrec hshape Q.length P.length hit st (by simp) hQ']
  rcases hshape with hc | hc
  · -- a leaf: the items below the start are passed over
    simp only [children_mk] at hc
    subst hc
    rw [ascendList_leaf, flat_leaf, List.feed_append_of_pass fun x hx b => ascendStep_of_below key (hP x hx) b]
  · -- an internal node: so is everything before the child at the start
    simp only [children_mk, items_mk, List.length_append] at hc
    obtain ⟨A, c, B, rfl, hA⟩ := List.exists_append_cons_of_lt (show P.length < children.length by omega)
    have hB : B.length = Q.length := by simp at hc; omega
    rw [flat_window hA] at hs ⊢
    have hpre := below_of_mem_pre key hA hP (by simpa only [List.append_assoc] using hs)
    rw [ascendList_internal _ P Q A B c hA hB, List.append_assoc,
      List.feed_append_of_pass fun x hx b => ascendStep_of_below key (hpre x hx) b]

/-- Ascending `iterate` walks the subtree in order, the loop's body at every
item not below the start. -/
theorem iterate_ascend_eq : ∀ {h lo fuel : Nat} {n : Node α}, Good minItems maxItems h lo n →
    (flat n).Pairwise (fun a b => key a < key b) → h < fuel → ∀ (hit : Bool) (st : σ),
      n.iterate key .ascend start stop includeStart iter fuel hit st =
        some (walked (List.feed (ascendStep key start stop includeStart iter) (flat n) (hit, st)))
  | _, _, 0, _, _, _, hf => absurd hf (Nat.not_lt_zero _)
  | 0, _, _ + 1, _, hg, hs, _ => iterate_ascend_succ key hg.shape hs fun c hc => absurd hc (by simp [hg.1])
  | _ + 1, _, _ + 1, _, hg, hs, hf => iterate_ascend_succ key hg.shape hs fun c hc =>
    iterate_ascend_eq (hg.child hc) (sorted_of_mem_children key hg hs hc) (by omega)

/-- One level of descending `iterate`: the loop from the last item not above
the start walks the subtree backwards, given that each child is walked so. -/
theorem iterate_descend_succ {f : Nat} {n : Node α}
    (hshape : n.children = [] ∨ n.children.length = n.items.length + 1)
    (hs : (flat n).Pairwise fun a b => key a < key b)
    (hrec : ∀ c ∈ n.children, ∀ hit st, c.iterate key .descend start stop includeStart iter f hit st =
      some (walked (List.feed (descendStep key start stop includeStart iter) (flat c).reverse (hit, st))))
    (hit : Bool) (st : σ) :
    n.iterate key .descend start stop includeStart iter (f + 1) hit st =
      some (walked (List.feed (descendStep key start stop includeStart iter) (flat n).reverse (hit, st))) := by
  have hsort := fun j hj y hy => lt_of_mem_childWalk key hshape hs (j := j) hj (y := y) hy
  obtain ⟨items, children, indices⟩ := n
  have hitems : items.Pairwise fun a b => key a < key b := hs.sublist (sublist_flat hshape)
  obtain ⟨X, Y, rfl, hY, hidx⟩ := descend_cut key hitems start
  rw [iterate_descend_unfold, items_mk, hidx,
    descendLoop_eq key hrec hshape hsort X.length hit st (by simp)]
  rcases hshape with hc | hc
  · -- a leaf: the items above the start are passed over
    simp only [children_mk] at hc
    subst hc
    rw [descendList_leaf, flat_leaf, List.reverse_append,
      List.feed_append_of_pass fun y hy b => descendStep_of_above key (hY y (List.mem_reverse.mp hy)) b]
  · -- an internal node: so is everything after the child at the start
    simp only [children_mk, items_mk, List.length_append] at hc
    obtain ⟨A, c, B, rfl, hA⟩ := List.exists_append_cons_of_lt (show X.length < children.length by omega)
    have hB : Y.length = B.length := by simp at hc; omega
    rw [flat_window hA] at hs ⊢
    have hpost := above_of_mem_post key hB hY hs
    rw [descendList_internal _ X Y A B c hA, @List.reverse_append _ (pre A X ++ flat c) (post Y B),
      List.feed_append_of_pass fun y hy b => descendStep_of_above key (hpost y (List.mem_reverse.mp hy)) b]

/-- Descending `iterate` walks the subtree backwards, the loop's body at every
item not passed over. -/
theorem iterate_descend_eq : ∀ {h lo fuel : Nat} {n : Node α}, Good minItems maxItems h lo n →
    (flat n).Pairwise (fun a b => key a < key b) → h < fuel → ∀ (hit : Bool) (st : σ),
      n.iterate key .descend start stop includeStart iter fuel hit st =
        some (walked (List.feed (descendStep key start stop includeStart iter) (flat n).reverse (hit, st)))
  | _, _, 0, _, _, _, hf => absurd hf (Nat.not_lt_zero _)
  | 0, _, _ + 1, _, hg, hs, _ => iterate_descend_succ key hg.shape hs fun c hc => absurd hc (by simp [hg.1])
  | _ + 1, _, _ + 1, _, hg, hs, hf => iterate_descend_succ key hg.shape hs fun c hc =>
    iterate_descend_eq (hg.child hc) (sorted_of_mem_children key hg hs hc) (by omega)

end Nodes

end Node

namespace BTree

open Node

variable [Inhabited α] {K : Type*} [LinearOrder K] {key : α → K} {σ : Type*} {t : BTree α} {s : OrderedSet key}

/-- Ascending from the root of a tree that holds `s`, when the start item is
included or there is no start, calls the iterator on the items of `s` from the
start to before the stop, in order. -/
theorem Holds.iterateRoot_ascend (ht : Holds key t s) {start stop : Option α} {includeStart : Bool}
    (hinc : includeStart = true ∨ start = none) (iter : σ → α → σ × Bool) (st : σ) :
    t.iterateRoot key .ascend start stop includeStart iter st =
      some (List.feed iter (s.items.filter fun x => !ascendStop key stop x && !belowStart key start x) st).1 := by
  have hroot := ht.root
  cases hr : t.root with
  | none =>
    rw [hr] at hroot
    simp [iterateRoot, hr, show s.items = [] from hroot]
  | some root =>
    rw [hr] at hroot
    obtain ⟨h, hg, -, hflat⟩ := hroot
    have hs : (flat root).Pairwise fun a b => key a < key b := hflat ▸ s.sorted
    simp only [iterateRoot, hr]
    rw [iterate_ascend_eq key hg hs (by rw [hg.height]; omega), Option.map_some, ← hflat]
    exact congrArg some (feed_ascendStep key hs hinc (false, st))

/-- Descending from the root of a tree that holds `s`, when the start item is
included or there is no start, calls the iterator on the items of `s` from the
start down to above the stop. -/
theorem Holds.iterateRoot_descend (ht : Holds key t s) {start stop : Option α} {includeStart : Bool}
    (hinc : includeStart = true ∨ start = none) (iter : σ → α → σ × Bool) (st : σ) :
    t.iterateRoot key .descend start stop includeStart iter st =
      some (List.feed iter (s.items.filter fun x => !descendStop key stop x && !aboveStart key start x).reverse
        st).1 := by
  have hroot := ht.root
  cases hr : t.root with
  | none =>
    rw [hr] at hroot
    simp [iterateRoot, hr, show s.items = [] from hroot]
  | some root =>
    rw [hr] at hroot
    obtain ⟨h, hg, -, hflat⟩ := hroot
    have hs : (flat root).Pairwise fun a b => key a < key b := hflat ▸ s.sorted
    simp only [iterateRoot, hr]
    rw [iterate_descend_eq key hg hs (by rw [hg.height]; omega), Option.map_some, ← hflat]
    exact congrArg some (feed_descendStep key hs hinc st)

theorem Holds.ascendRange_eq (ht : Holds key t s) (greaterOrEqual lessThan : α) (iter : σ → α → σ × Bool)
    (st : σ) :
    t.ascendRange key greaterOrEqual lessThan iter st =
      some (List.feed iter (s.items.filter fun x => key greaterOrEqual ≤ key x ∧ key x < key lessThan) st).1 := by
  rw [ascendRange, ht.iterateRoot_ascend (.inl rfl)]
  congr 3
  exact List.filter_congr fun x _ => by rw [Bool.eq_iff_iff]; simp [ascendStop, belowStart, and_comm]

theorem Holds.ascendLessThan_eq (ht : Holds key t s) (pivot : α) (iter : σ → α → σ × Bool) (st : σ) :
    t.ascendLessThan key pivot iter st = some (List.feed iter (s.items.filter fun x => key x < key pivot) st).1 := by
  rw [ascendLessThan, ht.iterateRoot_ascend (.inr rfl)]
  congr 3
  exact List.filter_congr fun x _ => by rw [Bool.eq_iff_iff]; simp [ascendStop, belowStart]

theorem Holds.ascendGreaterOrEqual_eq (ht : Holds key t s) (pivot : α) (iter : σ → α → σ × Bool) (st : σ) :
    t.ascendGreaterOrEqual key pivot iter st =
      some (List.feed iter (s.items.filter fun x => key pivot ≤ key x) st).1 := by
  rw [ascendGreaterOrEqual, ht.iterateRoot_ascend (.inl rfl)]
  congr 3
  exact List.filter_congr fun x _ => by rw [Bool.eq_iff_iff]; simp [ascendStop, belowStart]

theorem Holds.ascend_eq (ht : Holds key t s) (iter : σ → α → σ × Bool) (st : σ) :
    t.ascend key iter st = some (List.feed iter s.items st).1 := by
  rw [ascend, ht.iterateRoot_ascend (.inr rfl)]
  simp [ascendStop, belowStart]

theorem Holds.descendRange_eq (ht : Holds key t s) (lessOrEqual greaterThan : α) (iter : σ → α → σ × Bool)
    (st : σ) :
    t.descendRange key lessOrEqual greaterThan iter st =
      some (List.feed iter (s.items.filter fun x => key greaterThan < key x ∧ key x ≤ key lessOrEqual).reverse
        st).1 := by
  rw [descendRange, ht.iterateRoot_descend (.inl rfl)]
  congr 4
  exact List.filter_congr fun x _ => by rw [Bool.eq_iff_iff]; simp [descendStop, aboveStart]

theorem Holds.descendLessOrEqual_eq (ht : Holds key t s) (pivot : α) (iter : σ → α → σ × Bool) (st : σ) :
    t.descendLessOrEqual key pivot iter st =
      some (List.feed iter (s.items.filter fun x => key x ≤ key pivot).reverse st).1 := by
  rw [descendLessOrEqual, ht.iterateRoot_descend (.inl rfl)]
  congr 4
  exact List.filter_congr fun x _ => by rw [Bool.eq_iff_iff]; simp [descendStop, aboveStart]

theorem Holds.descendGreaterThan_eq (ht : Holds key t s) (pivot : α) (iter : σ → α → σ × Bool) (st : σ) :
    t.descendGreaterThan key pivot iter st =
      some (List.feed iter (s.items.filter fun x => key pivot < key x).reverse st).1 := by
  rw [descendGreaterThan, ht.iterateRoot_descend (.inr rfl)]
  congr 4
  exact List.filter_congr fun x _ => by rw [Bool.eq_iff_iff]; simp [descendStop, aboveStart]

theorem Holds.descend_eq (ht : Holds key t s) (iter : σ → α → σ × Bool) (st : σ) :
    t.descend key iter st = some (List.feed iter s.items.reverse st).1 := by
  rw [descend, ht.iterateRoot_descend (.inr rfl)]
  simp [descendStop, aboveStart]

variable (key) in
theorem run_ascend {d : Nat} (hd : 2 ≤ d) (ops : List (Op α)) :
    ∃ t, ((new d : Option (BTree α)).bind fun t => t.run key ops) = some t ∧
      ∀ (greaterOrEqual lessThan : α) (iter : σ → α → σ × Bool) (st : σ),
        t.ascendRange key greaterOrEqual lessThan iter st =
          some (List.feed iter ((runSet (OrderedSet.empty key) ops).items.filter
            fun x => key greaterOrEqual ≤ key x ∧ key x < key lessThan) st).1 ∧
        t.ascendLessThan key lessThan iter st =
          some (List.feed iter ((runSet (OrderedSet.empty key) ops).items.filter
            fun x => key x < key lessThan) st).1 ∧
        t.ascendGreaterOrEqual key greaterOrEqual iter st =
          some (List.feed iter ((runSet (OrderedSet.empty key) ops).items.filter
            fun x => key greaterOrEqual ≤ key x) st).1 ∧
        t.ascend key iter st = some (List.feed iter (runSet (OrderedSet.empty key) ops).items st).1 := by
  obtain ⟨t, hrun, ht⟩ := new_run_holds key hd ops
  exact ⟨t, hrun, fun greaterOrEqual lessThan iter st =>
    ⟨ht.ascendRange_eq greaterOrEqual lessThan iter st, ht.ascendLessThan_eq lessThan iter st,
      ht.ascendGreaterOrEqual_eq greaterOrEqual iter st, ht.ascend_eq iter st⟩⟩

theorem run_ascend_two : 2 ≤ 2 ∧
    ∃ t, ((new 2 : Option (BTree Nat)).bind fun t =>
        t.run id [.replaceOrInsert 3, .replaceOrInsert 1, .deleteMin]) = some t ∧
      ∀ (greaterOrEqual lessThan : Nat) (iter : List Nat → Nat → List Nat × Bool) (st : List Nat),
        t.ascendRange id greaterOrEqual lessThan iter st =
          some (List.feed iter ((runSet (OrderedSet.empty id)
            [.replaceOrInsert 3, .replaceOrInsert 1, .deleteMin]).items.filter
              fun x => id greaterOrEqual ≤ id x ∧ id x < id lessThan) st).1 ∧
        t.ascendLessThan id lessThan iter st =
          some (List.feed iter ((runSet (OrderedSet.empty id)
            [.replaceOrInsert 3, .replaceOrInsert 1, .deleteMin]).items.filter
              fun x => id x < id lessThan) st).1 ∧
        t.ascendGreaterOrEqual id greaterOrEqual iter st =
          some (List.feed iter ((runSet (OrderedSet.empty id)
            [.replaceOrInsert 3, .replaceOrInsert 1, .deleteMin]).items.filter
              fun x => id greaterOrEqual ≤ id x) st).1 ∧
        t.ascend id iter st = some (List.feed iter (runSet (OrderedSet.empty id)
          [.replaceOrInsert 3, .replaceOrInsert 1, .deleteMin]).items st).1 :=
  ⟨le_rfl, run_ascend id (by decide) _⟩

variable (key) in
theorem run_descend {d : Nat} (hd : 2 ≤ d) (ops : List (Op α)) :
    ∃ t, ((new d : Option (BTree α)).bind fun t => t.run key ops) = some t ∧
      ∀ (lessOrEqual greaterThan : α) (iter : σ → α → σ × Bool) (st : σ),
        t.descendRange key lessOrEqual greaterThan iter st =
          some (List.feed iter ((runSet (OrderedSet.empty key) ops).items.filter
            fun x => key greaterThan < key x ∧ key x ≤ key lessOrEqual).reverse st).1 ∧
        t.descendLessOrEqual key lessOrEqual iter st =
          some (List.feed iter ((runSet (OrderedSet.empty key) ops).items.filter
            fun x => key x ≤ key lessOrEqual).reverse st).1 ∧
        t.descendGreaterThan key greaterThan iter st =
          some (List.feed iter ((runSet (OrderedSet.empty key) ops).items.filter
            fun x => key greaterThan < key x).reverse st).1 ∧
        t.descend key iter st = some (List.feed iter (runSet (OrderedSet.empty key) ops).items.reverse st).1 := by
  obtain ⟨t, hrun, ht⟩ := new_run_holds key hd ops
  exact ⟨t, hrun, fun lessOrEqual greaterThan iter st =>
    ⟨ht.descendRange_eq lessOrEqual greaterThan iter st, ht.descendLessOrEqual_eq lessOrEqual iter st,
      ht.descendGreaterThan_eq greaterThan iter st, ht.descend_eq iter st⟩⟩

theorem run_descend_two : 2 ≤ 2 ∧
    ∃ t, ((new 2 : Option (BTree Nat)).bind fun t =>
        t.run id [.replaceOrInsert 3, .replaceOrInsert 1, .deleteMin]) = some t ∧
      ∀ (lessOrEqual greaterThan : Nat) (iter : List Nat → Nat → List Nat × Bool) (st : List Nat),
        t.descendRange id lessOrEqual greaterThan iter st =
          some (List.feed iter ((runSet (OrderedSet.empty id)
            [.replaceOrInsert 3, .replaceOrInsert 1, .deleteMin]).items.filter
              fun x => id greaterThan < id x ∧ id x ≤ id lessOrEqual).reverse st).1 ∧
        t.descendLessOrEqual id lessOrEqual iter st =
          some (List.feed iter ((runSet (OrderedSet.empty id)
            [.replaceOrInsert 3, .replaceOrInsert 1, .deleteMin]).items.filter
              fun x => id x ≤ id lessOrEqual).reverse st).1 ∧
        t.descendGreaterThan id greaterThan iter st =
          some (List.feed iter ((runSet (OrderedSet.empty id)
            [.replaceOrInsert 3, .replaceOrInsert 1, .deleteMin]).items.filter
              fun x => id greaterThan < id x).reverse st).1 ∧
        t.descend id iter st = some (List.feed iter (runSet (OrderedSet.empty id)
          [.replaceOrInsert 3, .replaceOrInsert 1, .deleteMin]).items.reverse st).1 :=
  ⟨le_rfl, run_descend id (by decide) _⟩

end BTree

end MatrixCube.Prophet.Btree
