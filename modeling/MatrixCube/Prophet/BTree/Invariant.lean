import MatrixCube.Prophet.BTree.Indices
import MatrixCube.Lib.ListWindow
import MatrixCube.Lib.OrderedSet

/-! # What a node of the indexed B-tree holds

The denotation of a node is `flat`, its items in order: a leaf's items, or
the first child's followed, for each further child, by the item before it and
that child's. Seen at child `i`, an internal node is `pre` of the children
and items before it, the child, and `post` of the items and children after it
(`flat_window`); the operations that work on one child are proved through
that view.

`Good` is the shape every tree keeps: all leaves at the same depth, node
sizes within bounds, one child more than items in internal nodes, and the
`indices` of each internal node the ranks of its items. Under it `length`
counts the items of the subtree (`Good.length_eq`). `findItem_cases` reads
`items.find` on sorted items as a cut.
-/

namespace MatrixCube.Prophet.Btree

variable {α : Type*}

namespace Node

mutual
/-- The items of a subtree in order. -/
def flat : Node α → List α
  | mk items [] _ => items
  | mk items (c :: cs) _ => flat c ++ post items cs

/-- Each item followed by the subtree to its right. -/
def post : List α → List (Node α) → List α
  | x :: xs, c :: cs => x :: (flat c ++ post xs cs)
  | _, _ => []
end

/-- Each subtree followed by the item to its right. -/
def pre : List (Node α) → List α → List α
  | c :: cs, x :: xs => flat c ++ x :: pre cs xs
  | _, _ => []

/-- The sizes of subtrees, as `indices` counts them. -/
def sizes (cs : List (Node α)) : List Int := cs.map fun c => ((flat c).length : Int)

@[simp] theorem items_mk (items : List α) (children : List (Node α)) (indices : List Int) :
    (mk items children indices).items = items := rfl

@[simp] theorem children_mk (items : List α) (children : List (Node α)) (indices : List Int) :
    (mk items children indices).children = children := rfl

@[simp] theorem indices_mk (items : List α) (children : List (Node α)) (indices : List Int) :
    (mk items children indices).indices = indices := rfl

@[simp] theorem flat_leaf (items : List α) (indices : List Int) : flat (mk items [] indices) = items := by
  simp [flat]

theorem flat_cons (items : List α) (c : Node α) (cs : List (Node α)) (indices : List Int) :
    flat (mk items (c :: cs) indices) = flat c ++ post items cs := by
  simp [flat]

@[simp] theorem post_cons (y : α) (Y : List α) (c : Node α) (B : List (Node α)) :
    post (y :: Y) (c :: B) = y :: (flat c ++ post Y B) := by
  simp [post]

@[simp] theorem pre_cons (c : Node α) (A : List (Node α)) (x : α) (X : List α) :
    pre (c :: A) (x :: X) = flat c ++ x :: pre A X := rfl

@[simp] theorem pre_nil (X : List α) : pre [] X = [] := rfl

@[simp] theorem sizes_nil : sizes ([] : List (Node α)) = [] := rfl

@[simp] theorem sizes_cons (c : Node α) (cs : List (Node α)) :
    sizes (c :: cs) = ((flat c).length : Int) :: sizes cs := rfl

@[simp] theorem sizes_append (A B : List (Node α)) : sizes (A ++ B) = sizes A ++ sizes B := by
  simp [sizes]

@[simp] theorem length_sizes (cs : List (Node α)) : (sizes cs).length = cs.length := by
  simp [sizes]

theorem pre_append {A : List (Node α)} {X : List α} (h : A.length = X.length) (A' : List (Node α)) (X' : List α) :
    pre (A ++ A') (X ++ X') = pre A X ++ pre A' X' := by
  induction A generalizing X with
  | nil => cases X with
    | nil => rfl
    | cons _ _ => simp at h
  | cons a A ih => cases X with
    | nil => simp at h
    | cons x X =>
      simp only [List.cons_append, pre_cons, ih (by simpa using h), List.append_assoc]

theorem post_cons_window {A : List (Node α)} {X : List α} (h : A.length = X.length) (x : α) (Y : List α)
    (c : Node α) (B : List (Node α)) :
    post (x :: (X ++ Y)) (A ++ c :: B) = x :: (pre A X ++ flat c ++ post Y B) := by
  induction A generalizing x X with
  | nil => cases X with
    | nil => simp
    | cons _ _ => simp at h
  | cons a A ih => cases X with
    | nil => simp at h
    | cons x' X =>
      simp only [List.cons_append, post_cons, ih (by simpa using h), pre_cons, List.append_assoc]

/-- An internal node seen at its child `A.length`: the subtrees and items
before it, the child, and the items and subtrees after it. -/
theorem flat_window {A : List (Node α)} {X : List α} (h : A.length = X.length) (Y : List α) (c : Node α)
    (B : List (Node α)) (indices : List Int) :
    flat (mk (X ++ Y) (A ++ c :: B) indices) = pre A X ++ flat c ++ post Y B := by
  cases A with
  | nil => cases X with
    | nil => simp [flat]
    | cons _ _ => simp at h
  | cons a A => cases X with
    | nil => simp at h
    | cons x X =>
      simp only [List.cons_append, flat, post_cons_window (by simpa using h), pre_cons, List.append_assoc]

/-- The item after child `X.length` of a node lies in its subtree between a
fixed part before it and a fixed part after it, whatever the item is. -/
theorem flat_item_window {X Y : List α} {children : List (Node α)} (indices : List Int)
    (hc : children = [] ∨ children.length = X.length + Y.length + 2) :
    ∃ P Q, ∀ z, flat (mk (X ++ z :: Y) children indices) = P ++ z :: Q := by
  rcases hc with rfl | hc
  · exact ⟨X, Y, fun z => by simp⟩
  · obtain ⟨A, c, C, rfl, hA⟩ := List.exists_append_cons_of_lt (show X.length < children.length by omega)
    obtain ⟨d, B, rfl⟩ : ∃ d B, C = d :: B := by
      cases C with
      | nil => simp at hc; omega
      | cons d B => exact ⟨d, B, rfl⟩
    exact ⟨pre A X ++ flat c, flat d ++ post Y B, fun z => by rw [flat_window hA, post_cons]⟩

theorem length_pre : ∀ {A : List (Node α)} {X : List α}, A.length = X.length →
    ((pre A X).length : Int) = (sizes A).sum + A.length
  | [], [], _ => by simp
  | a :: A, x :: X, h => by
    simp only [pre_cons, List.length_append, List.length_cons, sizes_cons, List.sum_cons]
    have := length_pre (A := A) (X := X) (by simpa using h)
    omega

theorem length_post : ∀ {Y : List α} {B : List (Node α)}, Y.length = B.length →
    ((post Y B).length : Int) = (sizes B).sum + B.length
  | [], [], _ => by simp [post]
  | y :: Y, b :: B, h => by
    simp only [post_cons, List.length_cons, List.length_append, sizes_cons, List.sum_cons]
    have := length_post (Y := Y) (B := B) (by simpa using h)
    omega

/-- A subtree of height `h`: all leaves at depth `h`, at most `maxItems`
items in every node, at least `lo` in this one and `minItems` in every node
below, one child more than items in every internal node, whose `indices` are
the ranks of its items. -/
def Good (minItems maxItems : Nat) : Nat → Nat → Node α → Prop
  | 0, lo, n => n.children = [] ∧ n.indices = [] ∧ lo ≤ n.items.length ∧ n.items.length ≤ maxItems
  | h + 1, lo, n =>
    n.children.length = n.items.length + 1 ∧ n.indices = sizeIndices (sizes n.children) ∧
      lo ≤ n.items.length ∧ n.items.length ≤ maxItems ∧ ∀ c ∈ n.children, Good minItems maxItems h minItems c

/-- An internal node holds the items of its children and one item between
each two of them. -/
theorem length_flat_internal {items : List α} {children : List (Node α)} (indices : List Int)
    (hlen : children.length = items.length + 1) :
    ((flat (mk items children indices)).length : Int) = (sizes children).sum + children.length - 1 := by
  obtain ⟨A, c, B, rfl, hA⟩ := List.exists_append_cons_of_lt (show items.length < children.length by omega)
  -- the last child closes the node
  have hB : B = [] := List.eq_nil_of_length_eq_zero (by simp at hlen; omega)
  subst hB
  have hflat := flat_window (Y := []) (B := []) hA c indices
  rw [List.append_nil] at hflat
  have hpre := length_pre hA
  rw [hflat]
  simp only [sizes_append, sizes_cons, sizes_nil, List.sum_append, List.sum_cons, List.sum_nil,
    List.length_append, List.length_cons, List.length_nil, post]
  omega

section Good

variable {minItems maxItems : Nat}

theorem Good.lo_le {h lo : Nat} {n : Node α} (hg : Good minItems maxItems h lo n) : lo ≤ n.items.length := by
  cases h <;> exact hg.2.2.1

theorem Good.le_max {h lo : Nat} {n : Node α} (hg : Good minItems maxItems h lo n) :
    n.items.length ≤ maxItems := by
  cases h with
  | zero => exact hg.2.2.2
  | succ h => exact hg.2.2.2.1

theorem Good.mono {h lo lo' : Nat} {n : Node α} (hg : Good minItems maxItems h lo n) (hlo : lo' ≤ lo) :
    Good minItems maxItems h lo' n := by
  cases h with
  | zero => exact ⟨hg.1, hg.2.1, Nat.le_trans hlo hg.2.2.1, hg.2.2.2⟩
  | succ h => exact ⟨hg.1, hg.2.1, Nat.le_trans hlo hg.2.2.1, hg.2.2.2⟩

/-- The bound at the top is any count up to the node's items. -/
theorem Good.with_lo {h lo lo' : Nat} {n : Node α} (hg : Good minItems maxItems h lo n)
    (hlo : lo' ≤ n.items.length) : Good minItems maxItems h lo' n := by
  cases h with
  | zero => exact ⟨hg.1, hg.2.1, hlo, hg.2.2.2⟩
  | succ h => exact ⟨hg.1, hg.2.1, hlo, hg.2.2.2.1, hg.2.2.2.2⟩

theorem Good.height : ∀ {h lo : Nat} {n : Node α}, Good minItems maxItems h lo n → n.height = h
  | 0, _, mk _ _ _, hg => by
    obtain ⟨hc, -⟩ := hg
    simp only [children] at hc
    simp [Node.height, hc]
  | h + 1, _, mk items children indices, hg => by
    obtain ⟨hlen, -, -, -, hcs⟩ := hg
    cases children with
    | nil => simp [Node.children] at hlen
    | cons c cs =>
      simp only [Node.height, Good.height (hcs c List.mem_cons_self)]

/-- `length`, read off `indices`, is the number of items of the subtree. -/
theorem Good.length_eq : ∀ {h lo : Nat} {n : Node α}, Good minItems maxItems h lo n →
    n.length = (flat n).length
  | 0, _, mk items children indices, hg => by
    obtain ⟨hc, hi, -⟩ := hg
    simp only [Node.children, Node.indices] at hc hi
    subst hc hi
    simp [Node.length, Node.indices, Node.items]
  | h + 1, _, mk items children indices, hg => by
    obtain ⟨hlen, hi, -⟩ := hg
    simp only [Node.children, Node.indices, Node.items] at hlen hi
    subst hi
    rw [length_flat_internal _ hlen]
    obtain ⟨A, c, rfl⟩ : ∃ A c, children = A ++ [c] := by
      rcases List.eq_nil_or_concat children with rfl | ⟨A, c, rfl⟩
      · simp at hlen
      · exact ⟨A, c, List.concat_eq_append⟩
    simp only [Node.length, Node.indices, sizes_append, sizes_cons, sizes_nil, getLast?_sizeIndices,
      List.sum_append, List.sum_cons, List.sum_nil, List.length_append, List.length_singleton, length_sizes]
    omega

/-- A well-formed internal node whose items are cut in two, seen at the child
between the two parts. -/
theorem Good.window {h lo : Nat} {X Y : List α} {children : List (Node α)} {indices : List Int}
    (hg : Good minItems maxItems (h + 1) lo (mk (X ++ Y) children indices)) :
    ∃ A c B, children = A ++ c :: B ∧ A.length = X.length ∧ B.length = Y.length := by
  have hlen : children.length = X.length + Y.length + 1 := by
    simpa [Node.children, Node.items] using hg.1
  obtain ⟨A, c, B, rfl, hA⟩ := List.exists_append_cons_of_lt (show X.length < children.length by omega)
  refine ⟨A, c, B, rfl, hA, ?_⟩
  simp only [List.length_append, List.length_cons] at hlen
  omega

theorem good_leaf {lo : Nat} {items : List α} (hlo : lo ≤ items.length) (hmax : items.length ≤ maxItems) :
    Good minItems maxItems 0 lo (mk items [] []) :=
  ⟨rfl, rfl, hlo, hmax⟩

/-- An internal node whose `indices` are `initSize`'s, built from good children. -/
theorem good_internal {h lo : Nat} {items : List α} {children : List (Node α)}
    (hlen : children.length = items.length + 1) (hlo : lo ≤ items.length) (hmax : items.length ≤ maxItems)
    (hcs : ∀ c ∈ children, Good minItems maxItems h minItems c) :
    Good minItems maxItems (h + 1) lo (mk items children (sizeIndices (sizes children))) :=
  ⟨hlen, rfl, hlo, hmax, hcs⟩

/-- Under the invariant, `initSize` reads the sizes of the children. -/
theorem map_length_eq_sizes {h lo : Nat} {cs : List (Node α)}
    (hcs : ∀ c ∈ cs, Good minItems maxItems h lo c) : cs.map Node.length = sizes cs := by
  simp only [sizes, List.map_inj_left]
  exact fun c hc => (hcs c hc).length_eq

/-- The invariant counts items and does not look at them. -/
theorem Good.replace_item {h lo : Nat} {X Y : List α} {y z : α} {children : List (Node α)}
    {indices : List Int} (hg : Good minItems maxItems h lo (mk (X ++ y :: Y) children indices)) :
    Good minItems maxItems h lo (mk (X ++ z :: Y) children indices) := by
  cases h <;> simpa [Good, Node.items, Node.children, Node.indices] using hg

/-- A child replaced by a good one of the same height, with the ranks recomputed. -/
theorem Good.set_child {h lo : Nat} {items : List α} {A B : List (Node α)} {c c' : Node α}
    {indices : List Int} (hg : Good minItems maxItems (h + 1) lo (mk items (A ++ c :: B) indices))
    (hc' : Good minItems maxItems h minItems c') :
    Good minItems maxItems (h + 1) lo (mk items (A ++ c' :: B) (sizeIndices (sizes (A ++ c' :: B)))) := by
  obtain ⟨hlen, -, hlo, hmax, hcs⟩ := hg
  refine good_internal (by simpa [Node.children, Node.items] using hlen) hlo hmax fun e he => ?_
  rcases List.mem_append.mp he with he | he
  · exact hcs e (List.mem_append_left _ he)
  · rcases List.mem_cons.mp he with rfl | he
    · exact hc'
    · exact hcs e (List.mem_append_right _ (List.mem_cons_of_mem _ he))

theorem Good.child {h lo : Nat} {n c : Node α} (hg : Good minItems maxItems (h + 1) lo n) (hc : c ∈ n.children) :
    Good minItems maxItems h minItems c :=
  hg.2.2.2.2 c hc

/-- A leaf, or one child more than items. -/
theorem Good.shape {h lo : Nat} {n : Node α} (hg : Good minItems maxItems h lo n) :
    n.children = [] ∨ n.children.length = n.items.length + 1 := by
  cases h with
  | zero => exact .inl hg.1
  | succ h => exact .inr hg.1

end Good

theorem sublist_post : ∀ {Y : List α} {B : List (Node α)}, Y.length = B.length → Y.Sublist (post Y B)
  | [], [], _ => List.nil_sublist _
  | y :: Y, b :: B, h => by
    rw [post_cons]
    exact (List.Sublist.trans (sublist_post (by simpa using h)) (List.sublist_append_right _ _)).cons_cons y

/-- The items of a node appear in its subtree in order. -/
theorem sublist_flat : ∀ {items : List α} {children : List (Node α)} {indices : List Int},
    (children = [] ∨ children.length = items.length + 1) → items.Sublist (flat (mk items children indices))
  | items, [], _, _ => by simp
  | items, c :: cs, _, h => by
    have hlen : items.length = cs.length := by simp at h; omega
    rw [flat]
    exact (sublist_post hlen).trans (List.sublist_append_right _ _)

section Sorted

variable {K : Type*} [LinearOrder K] (key : α → K)

/-- In a sorted subtree, what lies before child `A.length` is below the key
bound of the items before it. -/
theorem lt_of_mem_pre : ∀ {A : List (Node α)} {X L : List α} {k : K},
    (pre A X ++ L).Pairwise (fun a b => key a < key b) → A.length = X.length → (∀ x ∈ X, key x < k) →
      ∀ e ∈ pre A X, key e < k
  | [], [], _, _, _, _, _, e, he => by simp at he
  | a :: A, x :: X, L, k, hs, hAX, hX, e, he => by
    rw [pre_cons, List.append_assoc, List.cons_append] at hs
    have hx : key x < k := hX x List.mem_cons_self
    rw [pre_cons, List.mem_append, List.mem_cons] at he
    rcases he with he | rfl | he
    · -- an item of the first subtree lies before `x`
      exact lt_trans ((List.pairwise_append.mp hs).2.2 e he x List.mem_cons_self) hx
    · exact hx
    · have hs' := (List.pairwise_append.mp hs).2.1
      exact lt_of_mem_pre (List.pairwise_cons.mp hs').2 (by simpa using hAX)
        (fun x' hx' => hX x' (List.mem_cons_of_mem _ hx')) e he

/-- In a sorted subtree, what lies after child `B.length` from the end is above
the key bound of the items after it. -/
theorem lt_of_mem_post : ∀ {Y : List α} {B : List (Node α)} {L : List α} {k : K},
    (L ++ post Y B).Pairwise (fun a b => key a < key b) → Y.length = B.length → (∀ y ∈ Y, k < key y) →
      ∀ e ∈ post Y B, k < key e
  | [], [], _, _, _, _, _, e, he => by simp [post] at he
  | y :: Y, b :: B, L, k, hs, hYB, hY, e, he => by
    have hy : k < key y := hY y List.mem_cons_self
    have hs' := (List.pairwise_append.mp hs).2.1
    rw [post_cons, List.pairwise_cons] at hs'
    rw [post_cons, List.mem_cons, List.mem_append] at he
    rcases he with rfl | he | he
    · exact hy
    · exact lt_trans hy (hs'.1 e (List.mem_append_left _ he))
    · have hs'' : ((L ++ y :: flat b) ++ post Y B).Pairwise (fun a b => key a < key b) := by
        simpa only [List.append_assoc, List.cons_append, post_cons] using hs
      exact lt_of_mem_post hs'' (by simpa using hYB) (fun y' hy' => hY y' (List.mem_cons_of_mem _ hy'))
        e he

end Sorted

end Node

section Find

variable {K : Type*} [LinearOrder K] (key : α → K) [Inhabited α]

/-- `items.find` on items sorted by key: either an item of the key of `x` and
its position, or the cut between the items below `x` and those above it. -/
theorem findItem_cases {s : List α} (hs : s.Pairwise fun a b => key a < key b) (x : α) :
    (∃ A y B, s = A ++ y :: B ∧ key y = key x ∧ findItem key s x = (A.length, true)) ∨
      ∃ A B, s = A ++ B ∧ (∀ a ∈ A, key a < key x) ∧ (∀ b ∈ B, key x < key b) ∧
        findItem key s x = (A.length, false) := by
  have hpair : s.Pairwise fun a b => decide (key x < key a) = true → decide (key x < key b) = true :=
    hs.imp fun hab h => by simp only [decide_eq_true_eq] at h ⊢; exact lt_trans h hab
  obtain ⟨hbelow, habove⟩ := BinarySearch.search_take_drop s default hpair
  simp only [decide_eq_false_iff_not, not_lt, decide_eq_true_eq] at hbelow habove
  set i := BinarySearch.search s.length fun j => decide (key x < key (s.getD j default))
  have hi : i ≤ s.length := (BinarySearch.search_inv (BinarySearch.upwardClosed_of_pairwise s default hpair)).2.1
  have hfind : findItem key s x =
      if 0 < i ∧ ¬ key (s.getD (i - 1) default) < key x then (i - 1, true) else (i, false) := rfl
  by_cases hfound : 0 < i ∧ ¬ key (s.getD (i - 1) default) < key x
  · -- the item just before the cut has the key of `x`
    left
    obtain ⟨hpos, hnlt⟩ := hfound
    have hlt : i - 1 < s.length := by omega
    have hsplit : s = s.take (i - 1) ++ s[i - 1] :: s.drop i := by
      conv_lhs => rw [← List.take_append_drop (i - 1) s, List.drop_eq_getElem_cons hlt]
      rw [show i - 1 + 1 = i by omega]
    rw [List.getD_eq_getElem _ _ hlt] at hnlt
    have hle : key s[i - 1] ≤ key x := by
      refine hbelow _ (List.mem_iff_getElem.mpr ⟨i - 1, by simp; omega, ?_⟩)
      rw [List.getElem_take]
    refine ⟨s.take (i - 1), s[i - 1], s.drop i, hsplit, le_antisymm hle (not_lt.mp hnlt), ?_⟩
    rw [hfind, if_pos ⟨hpos, by rwa [List.getD_eq_getElem _ _ hlt]⟩, List.length_take_of_le (by omega)]
  · -- the cut itself: every item before it is below `x`
    right
    refine ⟨s.take i, s.drop i, (List.take_append_drop i s).symm, fun a ha => ?_, habove, ?_⟩
    · have hpos : 0 < i := by
        rcases Nat.eq_zero_or_pos i with h0 | h0
        · simp [h0] at ha
        · exact h0
      have hlt : i - 1 < s.length := by omega
      have hlast : key s[i - 1] < key x := by
        by_contra hge
        exact hfound ⟨hpos, by rwa [List.getD_eq_getElem _ _ hlt]⟩
      obtain ⟨j, hj, rfl⟩ := List.mem_iff_getElem.mp ha
      simp only [List.length_take] at hj
      rw [List.getElem_take]
      rcases Nat.lt_or_ge j (i - 1) with hji | hji
      · exact lt_trans (List.pairwise_iff_getElem.mp hs j (i - 1) (by omega) hlt hji) hlast
      · obtain rfl : j = i - 1 := by omega
        exact hlast
    · rw [hfind, if_neg hfound, List.length_take_of_le hi]

/-- The position `items.find` reports for an absent key is the cut. -/
theorem findItem_of_absent {s A B : List α} {x : α} (hs : s.Pairwise fun a b => key a < key b)
    (hAB : s = A ++ B) (hA : ∀ a ∈ A, key a < key x) (hB : ∀ b ∈ B, key x < key b) :
    findItem key s x = (A.length, false) := by
  rcases findItem_cases key hs x with ⟨A', y, B', hs', hy, -⟩ | ⟨A', B', hs', hA', hB', hf⟩
  · have hmem : y ∈ A ++ B := hAB ▸ hs' ▸ List.mem_append_right _ List.mem_cons_self
    rcases List.mem_append.mp hmem with hm | hm
    · exact absurd hy (ne_of_lt (hA y hm))
    · exact absurd hy.symm (ne_of_lt (hB y hm))
  · have hcut : A' = A := by
      rw [← OrderedSet.filter_lt_append hA' fun b hb => not_lt_of_gt (hB' b hb), ← hs', hAB,
        OrderedSet.filter_lt_append hA fun b hb => not_lt_of_gt (hB b hb)]
    rw [hf, hcut]

/-- The position `items.find` reports for a present key is that of its item. -/
theorem findItem_of_present {s A B : List α} {x y : α} (hs : s.Pairwise fun a b => key a < key b)
    (hAB : s = A ++ y :: B) (hy : key y = key x) : findItem key s x = (A.length, true) := by
  obtain ⟨hA, hB⟩ := OrderedSet.lt_window (hAB ▸ hs)
  rw [hy] at hA hB
  rcases findItem_cases key hs x with ⟨A', y', B', hs', hy', hf⟩ | ⟨A', B', hs', hA', hB', -⟩
  · obtain ⟨hA', hB'⟩ := OrderedSet.lt_window (hs' ▸ hs)
    rw [hy'] at hA' hB'
    -- both cuts are the items below `x`
    have hcut : A' = A := by
      have hrest : ∀ {C : List α} {z : α}, key z = key x → (∀ b ∈ C, key x < key b) →
          ∀ b ∈ z :: C, ¬ key b < key x := fun hz hC b hb => by
        rcases List.mem_cons.mp hb with rfl | hb
        · exact not_lt_of_ge (le_of_eq hz.symm)
        · exact not_lt_of_gt (hC b hb)
      rw [← OrderedSet.filter_lt_append hA' (hrest hy' hB'), ← hs', hAB, OrderedSet.filter_lt_append hA (hrest hy hB)]
    rw [hf, hcut]
  · have hmem : y ∈ A' ++ B' := hs' ▸ hAB ▸ List.mem_append_right _ List.mem_cons_self
    rcases List.mem_append.mp hmem with hm | hm
    · exact absurd hy (ne_of_lt (hA' y hm))
    · exact absurd hy.symm (ne_of_lt (hB' y hm))

end Find

end MatrixCube.Prophet.Btree
