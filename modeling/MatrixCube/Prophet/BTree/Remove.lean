import MatrixCube.Prophet.BTree.Invariant

/-! # Removal from the indexed B-tree

`remove` goes down to the child that holds what it removes, and first makes
sure that child has an item to spare: when it has only `minItems`,
`growChildAndRemove` takes an item from a sibling that has one to spare, or
merges it with a sibling, and calls `remove` again on the same node. The
specification of one removal is `removed`, on the items of the subtree in
order: the items with that key, the least or the greatest taken out. Where
`remove` goes down is a cut of the node's items (`Cut`, `target_fst`); each
branch of `growChild` is proved in the window of the two children it works on
(`growChild_stealLeft`, `growChild_stealRight`, `growChild_merge`), and
`growChild_eq` shows the child `remove` then enters has an item to spare, so
that the second call never grows again. That is why fuel twice the height is
enough (`remove_eq`).
-/

namespace MatrixCube.Prophet.Btree

variable {α : Type*}

namespace Node

section Shape

variable {minItems maxItems : Nat}

/-- An internal node seen at its last child. -/
theorem flat_snoc {X : List α} {C : List (Node α)} (hC : C.length = X.length + 1) (x : α) (c : Node α)
    (indices indices' : List Int) :
    flat (mk (X ++ [x]) (C ++ [c]) indices) = flat (mk X C indices') ++ x :: flat c := by
  obtain ⟨C0, cl, rfl⟩ : ∃ C0 cl, C = C0 ++ [cl] := by
    rcases List.eq_nil_or_concat C with rfl | ⟨C0, cl, rfl⟩
    · simp at hC
    · exact ⟨C0, cl, List.concat_eq_append⟩
  have h0 : C0.length = X.length := by simpa using hC
  have hlast := flat_window (Y := []) (B := []) h0 cl indices'
  rw [List.append_nil] at hlast
  rw [List.append_assoc, List.singleton_append, flat_window h0, hlast, post_cons]
  simp [post]

/-- An internal node seen at its first child. -/
theorem flat_cons_cons {X : List α} {C : List (Node α)} (hC : C ≠ []) (x : α) (c : Node α)
    (indices indices' : List Int) :
    flat (mk (x :: X) (c :: C) indices) = flat c ++ x :: flat (mk X C indices') := by
  obtain ⟨d, D, rfl⟩ := List.exists_cons_of_ne_nil hC
  rw [flat_cons, post_cons, flat_cons]

/-- Two nodes joined by an item between them. -/
theorem flat_join {X Y : List α} {C D : List (Node α)}
    (hC : C = [] ∧ D = [] ∨ C.length = X.length + 1 ∧ D.length = Y.length + 1) (x : α)
    (indices ci di : List Int) :
    flat (mk (X ++ x :: Y) (C ++ D) indices) = flat (mk X C ci) ++ x :: flat (mk Y D di) := by
  rcases hC with ⟨rfl, rfl⟩ | ⟨hC, hD⟩
  · simp
  · obtain ⟨C0, cl, rfl⟩ : ∃ C0 cl, C = C0 ++ [cl] := by
      rcases List.eq_nil_or_concat C with rfl | ⟨C0, cl, rfl⟩
      · simp at hC
      · exact ⟨C0, cl, List.concat_eq_append⟩
    obtain ⟨d, D, rfl⟩ : ∃ d D', D = d :: D' := by
      cases D with
      | nil => simp at hD
      | cons d D' => exact ⟨d, D', rfl⟩
    have h0 : C0.length = X.length := by simpa using hC
    have hlast := flat_window (Y := []) (B := []) h0 cl ci
    rw [List.append_nil] at hlast
    rw [List.append_assoc, List.singleton_append, flat_window h0, hlast, post_cons, flat_cons]
    simp [post]

/-- An internal node seen at two children and the item between them. -/
theorem flat_window_pair {A : List (Node α)} {X : List α} (h : A.length = X.length) (Y : List α) (c : Node α)
    (x : α) (d : Node α) (B : List (Node α)) (indices : List Int) :
    flat (mk (X ++ x :: Y) (A ++ c :: d :: B) indices) = pre A X ++ (flat c ++ x :: flat d) ++ post Y B := by
  rw [flat_window h, post_cons]
  simp

/-- A subtree with an item holds an item. -/
theorem flat_ne_nil {h lo : Nat} {c : Node α} (hg : Good minItems maxItems h lo c) (hc : 0 < c.items.length) :
    flat c ≠ [] := by
  obtain ⟨items, children, indices⟩ := c
  intro he
  have hsub : items.Sublist (flat (mk items children indices)) := sublist_flat hg.shape
  rw [he] at hsub
  simp only [List.sublist_nil] at hsub
  simp [hsub] at hc

/-- Two neighbouring children replaced by well-formed ones. -/
theorem Good.replace_pair {h lo lo' : Nat} {items items' : List α} {A B : List (Node α)} {c d c' d' : Node α}
    {indices : List Int} (hg : Good minItems maxItems (h + 1) lo (mk items (A ++ c :: d :: B) indices))
    (hc' : Good minItems maxItems h minItems c') (hd' : Good minItems maxItems h minItems d')
    (hlen : items'.length = items.length) (hlo : lo' ≤ items'.length) (hmax : items'.length ≤ maxItems) :
    Good minItems maxItems (h + 1) lo' (mk items' (A ++ c' :: d' :: B) (sizeIndices (sizes (A ++ c' :: d' :: B)))) := by
  have hcl := hg.1
  simp only [Node.children, Node.items, List.length_append, List.length_cons] at hcl
  refine good_internal (by simp; omega) hlo hmax fun e he => ?_
  simp only [List.mem_append, List.mem_cons] at he
  rcases he with he | rfl | rfl | he
  · exact hg.child (by simp [Node.children, he])
  · exact hc'
  · exact hd'
  · exact hg.child (by simp [Node.children, he])

/-- Two neighbouring children merged into a well-formed one, with the item
between them gone from the node. -/
theorem Good.merge_pair {h lo lo' : Nat} {items items' : List α} {A B : List (Node α)} {c d m : Node α}
    {indices : List Int} (hg : Good minItems maxItems (h + 1) lo (mk items (A ++ c :: d :: B) indices))
    (hm : Good minItems maxItems h minItems m) (hlen : items'.length + 1 = items.length)
    (hlo : lo' ≤ items'.length) (hmax : items'.length ≤ maxItems) :
    Good minItems maxItems (h + 1) lo' (mk items' (A ++ m :: B) (sizeIndices (sizes (A ++ m :: B)))) := by
  have hcl := hg.1
  simp only [Node.children, Node.items, List.length_append, List.length_cons] at hcl
  refine good_internal (by simp; omega) hlo hmax fun e he => ?_
  simp only [List.mem_append, List.mem_cons] at he
  rcases he with he | rfl | he
  · exact hg.child (by simp [Node.children, he])
  · exact hm
  · exact hg.child (by simp [Node.children, he])

end Shape

section Removed

variable {K : Type*} [LinearOrder K] (key : α → K)

/-- What a removal does to the items of a subtree in order: the items left and
the item removed, for a removal by key, of the least item and of the greatest. -/
def removed (typ : ToRemove) (item : α) (l : List α) : List α × Option α :=
  match typ with
  | .removeItem => (l.filter fun x => key x ≠ key item, l.find? fun x => key x = key item)
  | .removeMin => (l.tail, l.head?)
  | .removeMax => (l.dropLast, l.getLast?)

theorem removed_sublist (typ : ToRemove) (item : α) (l : List α) : (removed key typ item l).1.Sublist l := by
  cases typ with
  | removeItem => exact List.filter_sublist
  | removeMin => exact List.tail_sublist l
  | removeMax => exact List.dropLast_sublist l

@[simp] theorem removed_nil (typ : ToRemove) (item : α) : removed key typ item [] = ([], none) := by
  cases typ <;> rfl

/-- Removing by key where an item has that key: that item goes. -/
theorem removed_item_present {P Q : List α} {y item : α} (hs : (P ++ y :: Q).Pairwise fun a b => key a < key b)
    (hy : key y = key item) : removed key .removeItem item (P ++ y :: Q) = (P ++ Q, some y) := by
  obtain ⟨hP, hQ⟩ := OrderedSet.lt_window hs
  rw [hy] at hP hQ
  have hPf : P.filter (fun x => key x ≠ key item) = P :=
    List.filter_eq_self.mpr fun p hp => by simpa using ne_of_lt (hP p hp)
  have hQf : Q.filter (fun x => key x ≠ key item) = Q :=
    List.filter_eq_self.mpr fun q hq => by simpa using ne_of_gt (hQ q hq)
  simp only [removed, List.filter_append, List.filter_cons, hPf, hQf, hy, ne_eq, not_true_eq_false,
    decide_false, Bool.false_eq_true, if_false, Prod.mk.injEq, true_and]
  exact (OrderedSet.find?_count_present hs hy).1

/-- Removing by key where no item has that key leaves the items. -/
theorem removed_item_absent {l : List α} {item : α} (hl : ∀ x ∈ l, key x ≠ key item) :
    removed key .removeItem item l = (l, none) := by
  simp only [removed, Prod.mk.injEq]
  exact ⟨List.filter_eq_self.mpr fun x hx => by simpa using hl x hx,
    List.find?_eq_none.mpr fun x hx => by simpa using hl x hx⟩

/-- One item fewer exactly when one is removed. -/
theorem length_removed (typ : ToRemove) (item : α) {l : List α} (hs : l.Pairwise fun a b => key a < key b) :
    (removed key typ item l).1.length + (if (removed key typ item l).2.isSome then 1 else 0) = l.length := by
  cases typ with
  | removeItem =>
    by_cases hex : ∃ y ∈ l, key y = key item
    · obtain ⟨y, hy, hky⟩ := hex
      obtain ⟨P, Q, rfl⟩ := List.append_of_mem hy
      rw [removed_item_present key hs hky]
      simp only [List.length_append, List.length_cons, Option.isSome_some, if_true]
      omega
    · push Not at hex
      rw [removed_item_absent key hex]
      simp
  | removeMin =>
    cases l with
    | nil => rfl
    | cons x l => simp [removed]
  | removeMax =>
    rcases List.eq_nil_or_concat l with rfl | ⟨L, x, rfl⟩
    · rfl
    · simp [removed]

/-- A removal by key inside the middle of a window whose ends lie below and
above the key. -/
theorem removed_window_item {P M Q : List α} {item : α} (hP : ∀ p ∈ P, key p < key item)
    (hQ : ∀ q ∈ Q, key item < key q) :
    removed key .removeItem item (P ++ M ++ Q) =
      (P ++ (removed key .removeItem item M).1 ++ Q, (removed key .removeItem item M).2) := by
  have hPf : P.filter (fun x => key x ≠ key item) = P :=
    List.filter_eq_self.mpr fun p hp => by simpa using ne_of_lt (hP p hp)
  have hQf : Q.filter (fun x => key x ≠ key item) = Q :=
    List.filter_eq_self.mpr fun q hq => by simpa using ne_of_gt (hQ q hq)
  simp only [removed, List.filter_append, hPf, hQf, OrderedSet.find?_window hP hQ]

/-- The least item of a window that starts with a non-empty part lies in that part. -/
theorem removed_window_min {M Q : List α} {item : α} (hM : M ≠ []) :
    removed key .removeMin item ([] ++ M ++ Q) =
      ([] ++ (removed key .removeMin item M).1 ++ Q, (removed key .removeMin item M).2) := by
  obtain ⟨m, M, rfl⟩ := List.exists_cons_of_ne_nil hM
  simp [removed]

/-- The greatest item of a window that ends with a non-empty part lies in that part. -/
theorem removed_window_max {P M : List α} {item : α} (hM : M ≠ []) :
    removed key .removeMax item (P ++ M ++ []) =
      (P ++ (removed key .removeMax item M).1 ++ [], (removed key .removeMax item M).2) := by
  simp [removed, List.dropLast_append_of_ne_nil hM, List.getLast?_append, List.getLast?_eq_some_getLast hM]

/-- The items of a node cut where `remove` goes down: for a removal by key,
those below the key before the cut and the others after it; for the least
item, none before it; for the greatest, none after it. -/
def Cut (typ : ToRemove) (item : α) (P Q : List α) : Prop :=
  match typ with
  | .removeItem => (∀ p ∈ P, key p < key item) ∧ ∀ q ∈ Q, key item ≤ key q
  | .removeMin => P = []
  | .removeMax => Q = []

variable {typ : ToRemove} {item : α}

/-- The item before the cut replaced by a smaller one. -/
theorem Cut.replace_last {X Y : List α} {x s : α} (hc : Cut key typ item (X ++ [x]) Y) (hs : key s < key x) :
    Cut key typ item (X ++ [s]) Y := by
  cases typ with
  | removeItem =>
    refine ⟨fun p hp => ?_, hc.2⟩
    rcases List.mem_append.mp hp with hp | hp
    · exact hc.1 p (List.mem_append_left _ hp)
    · rw [List.mem_singleton.mp hp]
      exact lt_trans hs (hc.1 x (by simp))
  | removeMin => simp [Cut] at hc
  | removeMax => exact hc

/-- The item after the cut replaced by a greater one. -/
theorem Cut.replace_first {X Y : List α} {x s : α} (hc : Cut key typ item X (x :: Y)) (hs : key x < key s) :
    Cut key typ item X (s :: Y) := by
  cases typ with
  | removeItem =>
    refine ⟨hc.1, fun q hq => ?_⟩
    rcases List.mem_cons.mp hq with rfl | hq
    · exact le_of_lt (lt_of_le_of_lt (hc.2 x List.mem_cons_self) hs)
    · exact hc.2 q (List.mem_cons_of_mem _ hq)
  | removeMin => exact hc
  | removeMax => simp [Cut] at hc

/-- The item after the cut dropped. -/
theorem Cut.drop_first {X Y : List α} {x : α} (hc : Cut key typ item X (x :: Y)) : Cut key typ item X Y := by
  cases typ with
  | removeItem => exact ⟨hc.1, fun q hq => hc.2 q (List.mem_cons_of_mem _ hq)⟩
  | removeMin => exact hc
  | removeMax => simp [Cut] at hc

/-- The last item dropped, where the cut is at the end. -/
theorem Cut.drop_last {X : List α} {x : α} (hc : Cut key typ item (X ++ [x]) []) : Cut key typ item X [] := by
  cases typ with
  | removeItem => exact ⟨fun p hp => hc.1 p (List.mem_append_left _ hp), by simp⟩
  | removeMin => simp [Cut] at hc
  | removeMax => rfl

/-- The ranks after a removal from child `A.length`: those from that child on
move down by one when the child lost an item. -/
theorem addAt_sizes_remove (typ : ToRemove) (item : α) {A B : List (Node α)} {c c' : Node α}
    (hc : (flat c).Pairwise fun a b => key a < key b) (hflat : flat c' = (removed key typ item (flat c)).1) :
    (if (removed key typ item (flat c)).2.isSome then
        Indices.addAt (sizeIndices (sizes (A ++ c :: B))) A.length (-1)
      else sizeIndices (sizes (A ++ c :: B))) = sizeIndices (sizes (A ++ c' :: B)) := by
  have hlen := length_removed key typ item hc
  rw [← hflat] at hlen
  split_ifs at hlen ⊢ with hsome
  · rw [sizes_append, sizes_cons, ← length_sizes A, Indices.addAt_sizeIndices, sizes_append, sizes_cons, ← hlen]
    push_cast
    rw [Int.add_neg_cancel_right]
  · rw [sizes_append, sizes_cons, sizes_append, sizes_cons, ← hlen, Nat.add_zero]

variable {minItems maxItems : Nat}

/-- Descending into child `A.length`, where the removal lies inside the
child's part of the node's items. -/
theorem remove_descend {h lo : Nat} {typ : ToRemove} {item : α} {items X Y : List α} {A B : List (Node α)}
    {c c' : Node α} (hXY : items = X ++ Y)
    (hg : Good minItems maxItems (h + 1) lo (mk items (A ++ c :: B) (sizeIndices (sizes (A ++ c :: B)))))
    (hA : A.length = X.length)
    (hwin : removed key typ item (pre A X ++ flat c ++ post Y B) =
      (pre A X ++ (removed key typ item (flat c)).1 ++ post Y B, (removed key typ item (flat c)).2))
    (hc' : Good minItems maxItems h minItems c') (hflat : flat c' = (removed key typ item (flat c)).1) :
    Good minItems maxItems (h + 1) lo (mk items (A ++ c' :: B) (sizeIndices (sizes (A ++ c' :: B)))) ∧
      flat (mk items (A ++ c' :: B) (sizeIndices (sizes (A ++ c' :: B)))) =
        (removed key typ item (flat (mk items (A ++ c :: B) (sizeIndices (sizes (A ++ c :: B)))))).1 ∧
      (removed key typ item (flat (mk items (A ++ c :: B) (sizeIndices (sizes (A ++ c :: B)))))).2 =
        (removed key typ item (flat c)).2 := by
  subst hXY
  rw [flat_window hA, flat_window hA, hwin, hflat]
  exact ⟨hg.set_child hc', rfl, rfl⟩

end Removed

section Target

variable [Inhabited α] {minItems : Nat} {K : Type*} [LinearOrder K] (key : α → K)

/-- The `switch` at the top of `remove` in an internal node: the child it
goes down to, and whether the item is the node's own. -/
def target (typ : ToRemove) (item : α) (items : List α) : Nat × Bool :=
  match typ with
  | .removeMax => (items.length, false)
  | .removeMin => (0, false)
  | .removeItem => findItem key items item

/-- On sorted items, `items.find` goes to the number of items below the key. -/
theorem findItem_fst {s P Q : List α} {x : α} (hs : s.Pairwise fun a b => key a < key b) (hPQ : s = P ++ Q)
    (hP : ∀ p ∈ P, key p < key x) (hQ : ∀ q ∈ Q, key x ≤ key q) : (findItem key s x).1 = P.length := by
  have hcut : s.filter (fun a => decide (key a < key x)) = P := by
    rw [hPQ]
    exact OrderedSet.filter_lt_append hP fun q hq => not_lt.mpr (hQ q hq)
  rcases findItem_cases key hs x with ⟨A, y, B, hAB, hy, hf⟩ | ⟨A, B, hAB, hA, hB, hf⟩
  · obtain ⟨hA, hB⟩ := OrderedSet.lt_window (hAB ▸ hs)
    rw [hy] at hA hB
    have hcut' : s.filter (fun a => decide (key a < key x)) = A := by
      rw [hAB]
      refine OrderedSet.filter_lt_append hA fun b hb => ?_
      rcases List.mem_cons.mp hb with rfl | hb
      · exact not_lt.mpr (le_of_eq hy.symm)
      · exact not_lt.mpr (le_of_lt (hB b hb))
    rw [hf, ← hcut', hcut]
  · have hcut' : s.filter (fun a => decide (key a < key x)) = A := by
      rw [hAB]
      exact OrderedSet.filter_lt_append hA fun b hb => not_lt.mpr (le_of_lt (hB b hb))
    rw [hf, ← hcut', hcut]

variable {typ : ToRemove} {item : α}

/-- `remove` goes down at the cut. -/
theorem target_fst {items P Q : List α} (hs : items.Pairwise fun a b => key a < key b) (h : items = P ++ Q)
    (hc : Cut key typ item P Q) : (target key typ item items).1 = P.length := by
  cases typ with
  | removeItem => exact findItem_fst key hs h hc.1 hc.2
  | removeMin =>
    simp only [Cut] at hc
    simp [target, hc]
  | removeMax =>
    simp only [Cut] at hc
    simp [target, h, hc]

theorem exists_cut (typ : ToRemove) (item : α) {items : List α} (hs : items.Pairwise fun a b => key a < key b) :
    ∃ P Q, items = P ++ Q ∧ Cut key typ item P Q := by
  cases typ with
  | removeItem =>
    rcases findItem_cases key hs item with ⟨A, y, B, rfl, hy, -⟩ | ⟨A, B, rfl, hA, hB, -⟩
    · obtain ⟨hA, hB⟩ := OrderedSet.lt_window hs
      rw [hy] at hA hB
      refine ⟨A, y :: B, rfl, hA, fun q hq => ?_⟩
      rcases List.mem_cons.mp hq with rfl | hq
      · exact le_of_eq hy.symm
      · exact le_of_lt (hB q hq)
    · exact ⟨A, B, rfl, hA, fun q hq => le_of_lt (hB q hq)⟩
  | removeMin => exact ⟨[], items, rfl, rfl⟩
  | removeMax => exact ⟨items, [], by simp, rfl⟩

/-- `remove` on an internal node, with the child it enters read through
`target`. -/
theorem remove_internal {fuel : Nat} (typ : ToRemove) (item : α) {items : List α} {children : List (Node α)}
    {indices : List Int} (hne : children ≠ []) :
    (mk items children indices).remove key minItems item typ (fuel + 1) =
      if (children.getD (target key typ item items).1 default).items.length ≤ minItems then
        (growChild (target key typ item items).1 minItems (mk items children indices)).remove key minItems
          item typ fuel
      else if (target key typ item items).2 then
        match (children.getD (target key typ item items).1 default).remove key minItems default .removeMax
            fuel with
        | none => none
        | some (child, pred) =>
          some (mk (items.set (target key typ item items).1 (pred.getD default))
            (children.set (target key typ item items).1 child)
            (Indices.addAt indices (target key typ item items).1 (-1)),
            some (items.getD (target key typ item items).1 default))
      else
        match (children.getD (target key typ item items).1 default).remove key minItems item typ fuel with
        | none => none
        | some (child, out) =>
          some (mk items (children.set (target key typ item items).1 child)
            (if out.isSome then Indices.addAt indices (target key typ item items).1 (-1) else indices), out) := by
  obtain ⟨c0, cs, rfl⟩ := List.exists_cons_of_ne_nil hne
  cases typ <;> rfl

end Target

section Grow

variable [Inhabited α] {minItems maxItems : Nat}

/-- Stealing from the left sibling: its last item goes up in place of the
separator, which goes down in front of the child, and with it the sibling's
last subtree when there are subtrees. -/
theorem growChild_stealLeft {h lo : Nat} {X Y : List α} {x : α} {A B : List (Node α)} {l c : Node α}
    (hg : Good minItems maxItems (h + 1) lo
      (mk (X ++ x :: Y) (A ++ l :: c :: B) (sizeIndices (sizes (A ++ l :: c :: B)))))
    (hA : A.length = X.length) (hl : minItems < l.items.length) (hc : c.items.length < maxItems) :
    ∃ s l' c', growChild (X.length + 1) minItems
        (mk (X ++ x :: Y) (A ++ l :: c :: B) (sizeIndices (sizes (A ++ l :: c :: B)))) =
        mk (X ++ s :: Y) (A ++ l' :: c' :: B) (sizeIndices (sizes (A ++ l' :: c' :: B))) ∧
      flat l' ++ s :: flat c' = flat l ++ x :: flat c ∧ s ∈ flat l ∧
      Good minItems maxItems h minItems l' ∧ Good minItems maxItems h minItems c' ∧
      c'.items.length = c.items.length + 1 := by
  have hgl : Good minItems maxItems h minItems l := hg.child (by simp [Node.children])
  have hgc : Good minItems maxItems h minItems c := hg.child (by simp [Node.children])
  have hgetl : (A ++ l :: c :: B).getD X.length default = l := by rw [← hA, List.getD_append_length]
  have hgetc : (A ++ l :: c :: B).getD (X.length + 1) default = c := by
    rw [← hA, show A ++ l :: c :: B = (A ++ [l]) ++ c :: B by simp,
      show A.length + 1 = (A ++ [l]).length by simp, List.getD_append_length]
  have hset : ∀ l' c' : Node α, ((A ++ l :: c :: B).set (X.length + 1) c').set X.length l' =
      A ++ l' :: c' :: B := by
    intro l' c'
    rw [← hA, show A ++ l :: c :: B = (A ++ [l]) ++ c :: B by simp,
      show A.length + 1 = (A ++ [l]).length by simp, List.set_append_length]
    simp
  obtain ⟨LI, LC, LInd⟩ := l
  obtain ⟨CI, CC, CInd⟩ := c
  simp only [Node.items] at hl hc
  obtain ⟨LX, s, rfl⟩ : ∃ LX s, LI = LX ++ [s] := by
    rcases List.eq_nil_or_concat LI with rfl | ⟨LX, s, rfl⟩
    · simp at hl
    · exact ⟨LX, s, List.concat_eq_append⟩
  have hsizes : ∀ d : Int,
      (sizeIndices (sizes (A ++ mk (LX ++ [s]) LC LInd :: mk CI CC CInd :: B))).set X.length
        ((sizeIndices (sizes (A ++ mk (LX ++ [s]) LC LInd :: mk CI CC CInd :: B))).getD X.length 0 - d) =
      sizeIndices (sizes A ++ ((flat (mk (LX ++ [s]) LC LInd)).length - d) ::
        ((flat (mk CI CC CInd)).length + d) :: sizes B) := by
    intro d
    rw [sizes_append, sizes_cons, sizes_cons, ← hA, ← length_sizes A, Indices.set_sub_sizeIndices]
  simp only [growChild, Nat.add_sub_cancel, hgetl, hgetc, Node.items, Node.children, Node.indices, hl,
    Nat.zero_lt_succ, and_self, ↓reduceIte, List.getD_append_length, List.set_append_length,
    List.getLastD_concat, List.dropLast_concat, hset, hsizes]
  cases h with
  | zero =>
    -- leaves: the item alone moves
    obtain ⟨hLC, hLInd, -, hLmax⟩ := hgl
    obtain ⟨hCC, hCInd, hClo, -⟩ := hgc
    simp only [Node.children, Node.indices, Node.items] at hLC hLInd hLmax hCC hCInd hClo
    subst hLC hLInd hCC hCInd
    simp only [List.length_append, List.length_singleton] at hl hLmax
    refine ⟨s, mk LX [] [], mk (x :: CI) [] [], ?_, by simp, by simp,
      good_leaf (by omega) (by omega), good_leaf (by simp; omega) (by simp; omega), by simp⟩
    simp only [ne_eq, not_true_eq_false, ↓reduceIte, sizes_append, sizes_cons, flat_leaf,
      List.length_append, List.length_cons, List.length_nil]
    push_cast
    rw [Int.add_sub_cancel]
  | succ h =>
    -- internal nodes: the sibling's last subtree moves with the item
    obtain ⟨hLlen, hLInd, -, hLmax, hLcs⟩ := hgl
    obtain ⟨hClen, hCInd, hClo, -, hCcs⟩ := hgc
    simp only [Node.children, Node.indices, Node.items] at hLlen hLInd hLmax hLcs hClen hCInd hClo hCcs
    subst hLInd hCInd
    obtain ⟨LC, lc, rfl⟩ : ∃ LC' lc, LC = LC' ++ [lc] := by
      rcases List.eq_nil_or_concat LC with rfl | ⟨LC', lc, rfl⟩
      · simp at hLlen
      · exact ⟨LC', lc, List.concat_eq_append⟩
    have hCC : CC ≠ [] := by
      rintro rfl
      simp at hClen
    have hLC : LC.length = LX.length + 1 := by simpa using hLlen
    have hflatl := flat_snoc hLC s lc (sizeIndices (sizes (LC ++ [lc]))) (sizeIndices (sizes LC))
    have hflatc := flat_cons_cons (X := CI) hCC x lc (sizeIndices (sizes (lc :: CC))) (sizeIndices (sizes CC))
    have hpop : Indices.pop (sizeIndices (sizes (LC ++ [lc]))) =
        (sizeIndices (sizes LC), ((flat lc).length : Int)) := by
      rw [sizes_append, sizes_cons, sizes_nil, Indices.pop_sizeIndices]
    have hins : Indices.insertAt (sizeIndices (sizes CC)) 0 ((flat lc).length : Int) =
        sizeIndices (sizes (lc :: CC)) := by
      rw [Indices.insertAt_zero, sizes_cons, sizeIndices_cons]
    have hsub := Indices.set_sub_sizeIndices (sizes A) (sizes B)
      ((flat (mk (LX ++ [s]) (LC ++ [lc]) (sizeIndices (sizes (LC ++ [lc]))))).length - 1)
      ((flat (mk CI CC (sizeIndices (sizes CC)))).length + 1) ((flat lc).length : Int)
    rw [length_sizes, hA] at hsub
    refine ⟨s, mk LX LC (sizeIndices (sizes LC)), mk (x :: CI) (lc :: CC) (sizeIndices (sizes (lc :: CC))),
      ?_, ?_, ?_, ?_, ?_, by simp⟩
    · have e1 : ((flat (mk (LX ++ [s]) (LC ++ [lc]) (sizeIndices (sizes (LC ++ [lc]))))).length : Int) - 1 -
          (flat lc).length = (flat (mk LX LC (sizeIndices (sizes LC)))).length := by
        rw [hflatl]
        simp
        omega
      have e2 : ((flat (mk CI CC (sizeIndices (sizes CC)))).length : Int) + 1 + (flat lc).length =
          (flat (mk (x :: CI) (lc :: CC) (sizeIndices (sizes (lc :: CC))))).length := by
        rw [hflatc]
        simp
        omega
      simp only [ne_eq, List.append_eq_nil_iff, List.cons_ne_nil, and_false, not_false_eq_true, ↓reduceIte,
        List.dropLast_concat, List.getLastD_concat, hpop, hins, hsub]
      rw [e1, e2]
      simp only [sizes_append, sizes_cons]
    · rw [hflatl, hflatc]
      simp
    · rw [hflatl]
      simp
    · simp only [List.length_append, List.length_singleton] at hl hLmax
      exact good_internal hLC (by omega) (by omega) fun e he => hLcs e (List.mem_append_left _ he)
    · refine good_internal (by simpa using hClen) (by simp; omega) (by simp; omega) fun e he => ?_
      rcases List.mem_cons.mp he with rfl | he
      · exact hLcs e (by simp)
      · exact hCcs e he

/-- Stealing from the right sibling: its first item goes up in place of the
separator, which goes down behind the child, and with it the sibling's first
subtree when there are subtrees. -/
theorem growChild_stealRight {h lo : Nat} {X Y : List α} {x : α} {A B : List (Node α)} {c d : Node α}
    (hg : Good minItems maxItems (h + 1) lo
      (mk (X ++ x :: Y) (A ++ c :: d :: B) (sizeIndices (sizes (A ++ c :: d :: B)))))
    (hA : A.length = X.length)
    (hleft : ¬ (0 < X.length ∧ minItems < ((A ++ c :: d :: B).getD (X.length - 1) default).items.length))
    (hd : minItems < d.items.length) (hc : c.items.length < maxItems) :
    ∃ s c' d', growChild X.length minItems
        (mk (X ++ x :: Y) (A ++ c :: d :: B) (sizeIndices (sizes (A ++ c :: d :: B)))) =
        mk (X ++ s :: Y) (A ++ c' :: d' :: B) (sizeIndices (sizes (A ++ c' :: d' :: B))) ∧
      flat c' ++ s :: flat d' = flat c ++ x :: flat d ∧ s ∈ flat d ∧
      Good minItems maxItems h minItems c' ∧ Good minItems maxItems h minItems d' ∧
      c'.items.length = c.items.length + 1 := by
  have hgc : Good minItems maxItems h minItems c := hg.child (by simp [Node.children])
  have hgd : Good minItems maxItems h minItems d := hg.child (by simp [Node.children])
  have hgetc : (A ++ c :: d :: B).getD X.length default = c := by rw [← hA, List.getD_append_length]
  have hgetd : (A ++ c :: d :: B).getD (X.length + 1) default = d := by
    rw [← hA, show A ++ c :: d :: B = (A ++ [c]) ++ d :: B by simp,
      show A.length + 1 = (A ++ [c]).length by simp, List.getD_append_length]
  have hset : ∀ c' d' : Node α, ((A ++ c :: d :: B).set X.length c').set (X.length + 1) d' =
      A ++ c' :: d' :: B := by
    intro c' d'
    rw [← hA, List.set_append_length, show A ++ c' :: d :: B = (A ++ [c']) ++ d :: B by simp,
      show A.length + 1 = (A ++ [c']).length by simp, List.set_append_length]
    simp
  have hlen : X.length < (X ++ x :: Y).length := by simp
  obtain ⟨CI, CC, CInd⟩ := c
  obtain ⟨DI, DC, DInd⟩ := d
  simp only [Node.items] at hd hc
  obtain ⟨s, DX, rfl⟩ : ∃ s DX, DI = s :: DX := by
    cases DI with
    | nil => simp at hd
    | cons s DX => exact ⟨s, DX, rfl⟩
  have hsizes : ∀ e : Int,
      (sizeIndices (sizes (A ++ mk CI CC CInd :: mk (s :: DX) DC DInd :: B))).set X.length
        ((sizeIndices (sizes (A ++ mk CI CC CInd :: mk (s :: DX) DC DInd :: B))).getD X.length 0 + e) =
      sizeIndices (sizes A ++ ((flat (mk CI CC CInd)).length + e) ::
        ((flat (mk (s :: DX) DC DInd)).length - e) :: sizes B) := by
    intro e
    rw [sizes_append, sizes_cons, sizes_cons, ← hA, ← length_sizes A, Indices.set_add_sizeIndices]
  simp only [growChild]
  rw [if_neg hleft]
  simp only [hgetc, hgetd, Node.items, Node.children, Node.indices, hlen, hd, and_self, ↓reduceIte,
    List.getD_append_length, List.set_append_length, List.headD_cons, hset, hsizes]
  cases h with
  | zero =>
    -- leaves: the item alone moves
    obtain ⟨hCC, hCInd, hClo, -⟩ := hgc
    obtain ⟨hDC, hDInd, -, hDmax⟩ := hgd
    simp only [Node.children, Node.indices, Node.items] at hCC hCInd hClo hDC hDInd hDmax
    subst hCC hCInd hDC hDInd
    simp only [List.length_cons] at hd hDmax
    refine ⟨s, mk (CI ++ [x]) [] [], mk DX [] [], ?_, by simp, by simp,
      good_leaf (by simp; omega) (by simp; omega), good_leaf (by omega) (by omega), by simp⟩
    simp only [ne_eq, not_true_eq_false, ↓reduceIte, sizes_append, sizes_cons, flat_leaf,
      List.length_append, List.length_cons, List.length_nil, List.drop_one, List.tail_cons]
    push_cast
    rw [Int.add_sub_cancel]
  | succ h =>
    -- internal nodes: the sibling's first subtree moves with the item
    obtain ⟨hClen, hCInd, hClo, -, hCcs⟩ := hgc
    obtain ⟨hDlen, hDInd, -, hDmax, hDcs⟩ := hgd
    simp only [Node.children, Node.indices, Node.items] at hClen hCInd hClo hCcs hDlen hDInd hDmax hDcs
    subst hCInd hDInd
    obtain ⟨dc, DC, rfl⟩ : ∃ dc DC', DC = dc :: DC' := by
      cases DC with
      | nil => simp at hDlen
      | cons dc DC' => exact ⟨dc, DC', rfl⟩
    have hDC : DC ≠ [] := by
      rintro rfl
      simp at hDlen
    have hCC : CC.length = CI.length + 1 := hClen
    have hflatc := flat_snoc hCC x dc (sizeIndices (sizes (CC ++ [dc]))) (sizeIndices (sizes CC))
    have hflatd := flat_cons_cons (X := DX) hDC s dc (sizeIndices (sizes (dc :: DC))) (sizeIndices (sizes DC))
    have hrem : Indices.removeAt (sizeIndices (sizes (dc :: DC))) 0 =
        (sizeIndices (sizes DC), ((flat dc).length : Int)) := by
      rw [sizes_cons, Indices.removeAt_zero_sizeIndices]
    have hpush : Indices.push (sizeIndices (sizes CC)) ((flat dc).length : Int) =
        sizeIndices (sizes (CC ++ [dc])) := by
      rw [Indices.push_sizeIndices, sizes_append, sizes_cons, sizes_nil]
    have hadd := Indices.set_add_sizeIndices (sizes A) (sizes B)
      ((flat (mk CI CC (sizeIndices (sizes CC)))).length + 1)
      ((flat (mk (s :: DX) (dc :: DC) (sizeIndices (sizes (dc :: DC))))).length - 1) ((flat dc).length : Int)
    rw [length_sizes, hA] at hadd
    refine ⟨s, mk (CI ++ [x]) (CC ++ [dc]) (sizeIndices (sizes (CC ++ [dc]))), mk DX DC (sizeIndices (sizes DC)),
      ?_, ?_, ?_, ?_, ?_, by simp⟩
    · have e1 : ((flat (mk CI CC (sizeIndices (sizes CC)))).length : Int) + 1 + (flat dc).length =
          (flat (mk (CI ++ [x]) (CC ++ [dc]) (sizeIndices (sizes (CC ++ [dc]))))).length := by
        rw [hflatc]
        simp
        omega
      have e2 : ((flat (mk (s :: DX) (dc :: DC) (sizeIndices (sizes (dc :: DC))))).length : Int) - 1 -
          (flat dc).length = (flat (mk DX DC (sizeIndices (sizes DC)))).length := by
        rw [hflatd]
        simp
        omega
      simp only [ne_eq, reduceCtorEq, not_false_eq_true, ↓reduceIte, List.headD_cons, List.drop_one,
        List.tail_cons, hrem, hpush, hadd]
      rw [e1, e2]
      simp only [sizes_append, sizes_cons]
    · rw [hflatc, hflatd]
      simp
    · rw [hflatd]
      simp
    · refine good_internal (by simpa using hCC) (by simp; omega) (by simp; omega) fun e he => ?_
      rcases List.mem_append.mp he with he | he
      · exact hCcs e he
      · rw [List.mem_singleton.mp he]
        exact hDcs dc List.mem_cons_self
    · simp only [List.length_cons] at hd hDmax
      exact good_internal (by simpa using hDlen) (by omega) (by omega) fun e he =>
        hDcs e (List.mem_cons_of_mem _ he)

/-- Merging with the right sibling, or with the left one for the last child:
the separator goes down between the two, and the merged child takes the place
of both. -/
theorem growChild_merge (hmax : maxItems = 2 * minItems + 1) {h lo j : Nat} {X Y : List α} {x : α}
    {A B : List (Node α)} {c d : Node α}
    (hg : Good minItems maxItems (h + 1) lo
      (mk (X ++ x :: Y) (A ++ c :: d :: B) (sizeIndices (sizes (A ++ c :: d :: B)))))
    (hA : A.length = X.length)
    (hleft : ¬ (0 < j ∧ minItems < ((A ++ c :: d :: B).getD (j - 1) default).items.length))
    (hright : ¬ (j < (X ++ x :: Y).length ∧ minItems < ((A ++ c :: d :: B).getD (j + 1) default).items.length))
    (hj : (if (X ++ x :: Y).length ≤ j then j - 1 else j) = X.length)
    (hc : c.items.length ≤ minItems) (hd : d.items.length ≤ minItems) :
    ∃ m, growChild j minItems (mk (X ++ x :: Y) (A ++ c :: d :: B) (sizeIndices (sizes (A ++ c :: d :: B)))) =
        mk (X ++ Y) (A ++ m :: B) (sizeIndices (sizes (A ++ m :: B))) ∧
      flat m = flat c ++ x :: flat d ∧ Good minItems maxItems h minItems m ∧
      m.items.length = c.items.length + 1 + d.items.length := by
  have hgc : Good minItems maxItems h minItems c := hg.child (by simp [Node.children])
  have hgd : Good minItems maxItems h minItems d := hg.child (by simp [Node.children])
  have hgetc : (A ++ c :: d :: B).getD X.length default = c := by rw [← hA, List.getD_append_length]
  have hgetd : (A ++ c :: d :: B).getD (X.length + 1) default = d := by
    rw [← hA, show A ++ c :: d :: B = (A ++ [c]) ++ d :: B by simp,
      show A.length + 1 = (A ++ [c]).length by simp, List.getD_append_length]
  have hchildren : ∀ m : Node α, ((A ++ c :: d :: B).eraseIdx (X.length + 1)).set X.length m = A ++ m :: B := by
    intro m
    rw [← hA, show A ++ c :: d :: B = (A ++ [c]) ++ d :: B by simp,
      show A.length + 1 = (A ++ [c]).length by simp, List.eraseIdx_append_length, List.append_assoc,
      List.singleton_append, List.set_append_length]
  have hindices : Indices.merge (sizeIndices (sizes (A ++ c :: d :: B))) X.length =
      sizeIndices (sizes A ++ (((flat c).length : Int) + 1 + (flat d).length) :: sizes B) := by
    rw [sizes_append, sizes_cons, sizes_cons, ← hA, ← length_sizes A, Indices.merge_sizeIndices]
  simp only [growChild]
  rw [if_neg hleft, if_neg hright, hj]
  simp only [hgetc, hgetd, List.getD_append_length, List.eraseIdx_append_length, hchildren, hindices]
  obtain ⟨CI, CC, CInd⟩ := c
  obtain ⟨DI, DC, DInd⟩ := d
  simp only [Node.items, Node.children, Node.indices] at hc hd ⊢
  -- the merged child: the ranks of the right one's subtrees follow those of the left one's
  have hmerged : ∃ hs : CC = [] ∧ DC = [] ∨ CC.length = CI.length + 1 ∧ DC.length = DI.length + 1,
      DC.foldl (fun ix nn => Indices.push ix nn.length) CInd = sizeIndices (sizes (CC ++ DC)) ∧
      Good minItems maxItems h minItems (mk (CI ++ x :: DI) (CC ++ DC) (sizeIndices (sizes (CC ++ DC)))) := by
    cases h with
    | zero =>
      obtain ⟨hCC, hCInd, hClo, -⟩ := hgc
      obtain ⟨hDC, hDInd, hDlo, -⟩ := hgd
      simp only [Node.children, Node.indices, Node.items] at hCC hCInd hClo hDC hDInd hDlo
      subst hCC hCInd hDC hDInd
      exact ⟨.inl ⟨rfl, rfl⟩, rfl, good_leaf (by simp; omega) (by simp; omega)⟩
    | succ h =>
      obtain ⟨hClen, hCInd, hClo, -, hCcs⟩ := hgc
      obtain ⟨hDlen, hDInd, hDlo, -, hDcs⟩ := hgd
      simp only [Node.children, Node.indices, Node.items] at hClen hCInd hClo hCcs hDlen hDInd hDlo hDcs
      subst hCInd hDInd
      refine ⟨.inr ⟨hClen, hDlen⟩, ?_, good_internal (by simp; omega) (by simp; omega) (by simp; omega)
        fun e he => ?_⟩
      · rw [Indices.foldl_push_sizeIndices, map_length_eq_sizes hDcs, sizes_append]
      · rcases List.mem_append.mp he with he | he
        · exact hCcs e he
        · exact hDcs e he
  obtain ⟨hshape, hfold, hgm⟩ := hmerged
  have hflat := flat_join hshape x (sizeIndices (sizes (CC ++ DC))) CInd DInd
  refine ⟨mk (CI ++ x :: DI) (CC ++ DC) (sizeIndices (sizes (CC ++ DC))), ?_, hflat, hgm, by simp; omega⟩
  have e : ((flat (mk CI CC CInd)).length : Int) + 1 + (flat (mk DI DC DInd)).length =
      (flat (mk (CI ++ x :: DI) (CC ++ DC) (sizeIndices (sizes (CC ++ DC))))).length := by
    rw [hflat]
    simp
    omega
  rw [hfold, e]
  simp only [sizes_append, sizes_cons]

end Grow

section Ready

variable [Inhabited α] {minItems maxItems : Nat} {K : Type*} [LinearOrder K] (key : α → K)

/-- `growChild` at the child `remove` is about to enter, when that child has
no item to spare: the node keeps its items in order and its shape with at most
one item fewer, and the child `remove` then enters has an item to spare. -/
theorem growChild_eq (hmax : maxItems = 2 * minItems + 1) (typ : ToRemove) (item : α) {h lo : Nat}
    {items : List α} {children : List (Node α)} {indices : List Int}
    (hg : Good minItems maxItems (h + 1) (lo + 1) (mk items children indices))
    (hs : (flat (mk items children indices)).Pairwise fun a b => key a < key b)
    (hc : (children.getD (target key typ item items).1 default).items.length ≤ minItems) :
    Good minItems maxItems (h + 1) lo (growChild (target key typ item items).1 minItems (mk items children indices)) ∧
      flat (growChild (target key typ item items).1 minItems (mk items children indices)) =
        flat (mk items children indices) ∧
      minItems < ((growChild (target key typ item items).1 minItems (mk items children indices)).children.getD
        (target key typ item
          (growChild (target key typ item items).1 minItems (mk items children indices)).items).1
        default).items.length := by
  have hitems : items.Pairwise fun a b => key a < key b := hs.sublist (sublist_flat hg.shape)
  obtain ⟨P, Q, rfl, hcut⟩ := exists_cut key typ item hitems
  rw [target_fst key hitems rfl hcut] at hc ⊢
  obtain ⟨A, c, B, rfl, hA, hB⟩ := hg.window
  have hi : indices = sizeIndices (sizes (A ++ c :: B)) := hg.2.1
  subst hi
  have hgc : Good minItems maxItems h minItems c := hg.child (by simp [Node.children])
  have hcmin := hgc.lo_le
  rw [← hA, List.getD_append_length] at hc
  by_cases hleft : 0 < P.length ∧ minItems < ((A ++ c :: B).getD (P.length - 1) default).items.length
  · -- steal from the left sibling
    obtain ⟨X, x, rfl⟩ : ∃ X x, P = X ++ [x] := by
      rcases List.eq_nil_or_concat P with rfl | ⟨X, x, rfl⟩
      · simp at hleft
      · exact ⟨X, x, List.concat_eq_append⟩
    obtain ⟨A, l, rfl⟩ : ∃ A' l, A = A' ++ [l] := by
      rcases List.eq_nil_or_concat A with rfl | ⟨A', l, rfl⟩
      · simp at hA
      · exact ⟨A', l, List.concat_eq_append⟩
    have hA' : A.length = X.length := by simpa using hA
    simp only [List.append_assoc, List.cons_append, List.nil_append, List.length_append,
      List.length_singleton, Nat.add_sub_cancel] at hg hs hleft ⊢
    rw [← hA', List.getD_append_length] at hleft
    obtain ⟨s, l', c', hgrow, hflat, hsl, hgl', hgc', hlen⟩ :=
      growChild_stealLeft hg hA' hleft.2 (by omega)
    rw [hgrow]
    have hsx : key s < key x := by
      rw [flat_window_pair hA'] at hs
      have hs' : ((pre A X ++ flat l) ++ x :: (flat c ++ post Q B)).Pairwise fun a b => key a < key b := by
        simpa only [List.append_assoc, List.cons_append] using hs
      exact hs'.rel_of_mem_append (List.mem_append_right _ hsl) List.mem_cons_self
    have hflat2 : flat (mk (X ++ s :: Q) (A ++ l' :: c' :: B) (sizeIndices (sizes (A ++ l' :: c' :: B)))) =
        flat (mk (X ++ x :: Q) (A ++ l :: c :: B) (sizeIndices (sizes (A ++ l :: c :: B)))) := by
      rw [flat_window_pair hA', flat_window_pair hA', hflat]
    have hlo := hg.lo_le
    have hmx := hg.le_max
    simp only [Node.items, List.length_append, List.length_cons] at hlo hmx
    have hg2 : Good minItems maxItems (h + 1) lo
        (mk (X ++ s :: Q) (A ++ l' :: c' :: B) (sizeIndices (sizes (A ++ l' :: c' :: B)))) :=
      hg.replace_pair hgl' hgc' (by simp) (by simp; omega) (by simp; omega)
    refine ⟨hg2, hflat2, ?_⟩
    have hs2 : (X ++ s :: Q).Pairwise fun a b => key a < key b :=
      (hflat2 ▸ hs).sublist (sublist_flat hg2.shape)
    simp only [items_mk, children_mk]
    rw [target_fst key hs2 (by simp) (hcut.replace_last key hsx)]
    simp only [List.length_append, List.length_singleton, ← hA']
    rw [show A ++ l' :: c' :: B = (A ++ [l']) ++ c' :: B by simp,
      show A.length + 1 = (A ++ [l']).length by simp, List.getD_append_length]
    omega
  by_cases hright : P.length < (P ++ Q).length ∧
      minItems < ((A ++ c :: B).getD (P.length + 1) default).items.length
  · -- steal from the right sibling
    obtain ⟨x, Q, rfl⟩ : ∃ x Q', Q = x :: Q' := by
      cases Q with
      | nil => simp at hright
      | cons x Q' => exact ⟨x, Q', rfl⟩
    obtain ⟨d, B, rfl⟩ : ∃ d B', B = d :: B' := by
      cases B with
      | nil => simp at hB
      | cons d B' => exact ⟨d, B', rfl⟩
    have hgetd : (A ++ c :: d :: B).getD (P.length + 1) default = d := by
      rw [← hA, show A ++ c :: d :: B = (A ++ [c]) ++ d :: B by simp,
        show A.length + 1 = (A ++ [c]).length by simp, List.getD_append_length]
    rw [hgetd] at hright
    obtain ⟨s, c', d', hgrow, hflat, hsd, hgc', hgd', hlen⟩ :=
      growChild_stealRight hg hA hleft hright.2 (by omega)
    rw [hgrow]
    have hxs : key x < key s := by
      rw [flat_window_pair hA] at hs
      have hs' : ((pre A P ++ flat c ++ [x]) ++ (flat d ++ post Q B)).Pairwise fun a b => key a < key b := by
        simpa only [List.append_assoc, List.cons_append, List.singleton_append, List.nil_append] using hs
      exact hs'.rel_of_mem_append (by simp) (List.mem_append_left _ hsd)
    have hflat2 : flat (mk (P ++ s :: Q) (A ++ c' :: d' :: B) (sizeIndices (sizes (A ++ c' :: d' :: B)))) =
        flat (mk (P ++ x :: Q) (A ++ c :: d :: B) (sizeIndices (sizes (A ++ c :: d :: B)))) := by
      rw [flat_window_pair hA, flat_window_pair hA, hflat]
    have hlo := hg.lo_le
    have hmx := hg.le_max
    simp only [items_mk, List.length_append, List.length_cons] at hlo hmx
    have hg2 : Good minItems maxItems (h + 1) lo
        (mk (P ++ s :: Q) (A ++ c' :: d' :: B) (sizeIndices (sizes (A ++ c' :: d' :: B)))) :=
      hg.replace_pair hgc' hgd' (by simp) (by simp; omega) (by simp; omega)
    refine ⟨hg2, hflat2, ?_⟩
    have hs2 : (P ++ s :: Q).Pairwise fun a b => key a < key b :=
      (hflat2 ▸ hs).sublist (sublist_flat hg2.shape)
    simp only [items_mk, children_mk]
    rw [target_fst key hs2 rfl (hcut.replace_first key hxs), ← hA, List.getD_append_length]
    omega
  -- merge the child with a sibling
  have hlo := hg.lo_le
  have hmx := hg.le_max
  simp only [items_mk, List.length_append] at hlo hmx
  by_cases hlast : (P ++ Q).length ≤ P.length
  · -- the last child, merged with its left sibling
    obtain rfl : Q = [] := List.eq_nil_of_length_eq_zero (by simp only [List.length_append] at hlast; omega)
    obtain rfl : B = [] := List.eq_nil_of_length_eq_zero (by simpa using hB)
    obtain ⟨X, x, rfl⟩ : ∃ X x, P = X ++ [x] := by
      rcases List.eq_nil_or_concat P with rfl | ⟨X, x, rfl⟩
      · simp at hlo
      · exact ⟨X, x, List.concat_eq_append⟩
    obtain ⟨A, l, rfl⟩ : ∃ A' l, A = A' ++ [l] := by
      rcases List.eq_nil_or_concat A with rfl | ⟨A', l, rfl⟩
      · simp at hA
      · exact ⟨A', l, List.concat_eq_append⟩
    have hA' : A.length = X.length := by simpa using hA
    rw [show X ++ [x] ++ [] = X ++ x :: [] by simp, show A ++ [l] ++ c :: [] = A ++ l :: c :: [] by simp]
      at hg hs ⊢
    rw [show A ++ [l] ++ c :: [] = A ++ l :: c :: [] by simp] at hleft
    rw [show (X ++ [x]).length = X.length + 1 by simp] at hleft ⊢
    have hl : l.items.length ≤ minItems := by
      by_contra hl
      refine hleft ⟨Nat.succ_pos _, ?_⟩
      rw [Nat.add_sub_cancel, ← hA', List.getD_append_length]
      omega
    obtain ⟨m, hgrow, hflat, hgm, hlen⟩ := growChild_merge hmax hg hA' hleft (by simp) (by simp) hl hc
    rw [hgrow]
    have hflat2 : flat (mk (X ++ []) (A ++ m :: []) (sizeIndices (sizes (A ++ m :: [])))) =
        flat (mk (X ++ x :: []) (A ++ l :: c :: []) (sizeIndices (sizes (A ++ l :: c :: [])))) := by
      rw [flat_window hA', flat_window_pair hA', hflat]
    have hg2 : Good minItems maxItems (h + 1) lo (mk (X ++ []) (A ++ m :: []) (sizeIndices (sizes (A ++ m :: [])))) :=
      hg.merge_pair hgm (by simp) (by simp at hlo ⊢; omega) (by simp at hmx ⊢; omega)
    refine ⟨hg2, hflat2, ?_⟩
    have hs2 : (X ++ []).Pairwise fun a b => key a < key b := (hflat2 ▸ hs).sublist (sublist_flat hg2.shape)
    simp only [items_mk, children_mk]
    rw [target_fst key hs2 rfl hcut.drop_last, ← hA', List.getD_append_length]
    omega
  · -- merge with the right sibling
    obtain ⟨x, Q, rfl⟩ : ∃ x Q', Q = x :: Q' := by
      cases Q with
      | nil => simp at hlast
      | cons x Q' => exact ⟨x, Q', rfl⟩
    obtain ⟨d, B, rfl⟩ : ∃ d B', B = d :: B' := by
      cases B with
      | nil => simp at hB
      | cons d B' => exact ⟨d, B', rfl⟩
    have hgetd : (A ++ c :: d :: B).getD (P.length + 1) default = d := by
      rw [← hA, show A ++ c :: d :: B = (A ++ [c]) ++ d :: B by simp,
        show A.length + 1 = (A ++ [c]).length by simp, List.getD_append_length]
    have hd : d.items.length ≤ minItems := by
      by_contra hd
      exact hright ⟨by simp, by rw [hgetd]; omega⟩
    obtain ⟨m, hgrow, hflat, hgm, hlen⟩ := growChild_merge hmax hg hA hleft hright (if_neg hlast) hc hd
    rw [hgrow]
    have hflat2 : flat (mk (P ++ Q) (A ++ m :: B) (sizeIndices (sizes (A ++ m :: B)))) =
        flat (mk (P ++ x :: Q) (A ++ c :: d :: B) (sizeIndices (sizes (A ++ c :: d :: B)))) := by
      rw [flat_window hA, flat_window_pair hA, hflat]
    have hg2 : Good minItems maxItems (h + 1) lo (mk (P ++ Q) (A ++ m :: B) (sizeIndices (sizes (A ++ m :: B)))) :=
      hg.merge_pair hgm (by simp; omega) (by simp at hlo ⊢; omega) (by simp at hmx ⊢; omega)
    refine ⟨hg2, hflat2, ?_⟩
    have hs2 : (P ++ Q).Pairwise fun a b => key a < key b := (hflat2 ▸ hs).sublist (sublist_flat hg2.shape)
    simp only [items_mk, children_mk]
    rw [target_fst key hs2 rfl hcut.drop_first, ← hA, List.getD_append_length]
    omega

/-- `remove` at an internal node whose child to enter has an item to spare:
the child's removal, and the node put back together around it. -/
theorem remove_ready {h lo f : Nat} (typ : ToRemove) (item : α) {items : List α} {children : List (Node α)}
    {indices : List Int} (hg : Good minItems maxItems (h + 1) lo (mk items children indices))
    (hs : (flat (mk items children indices)).Pairwise fun a b => key a < key b)
    (hready : minItems < (children.getD (target key typ item items).1 default).items.length)
    (ih : ∀ c ∈ children, ∀ (typ' : ToRemove) (item' : α), Good minItems maxItems h (minItems + 1) c →
      (flat c).Pairwise (fun a b => key a < key b) →
      ∃ c', c.remove key minItems item' typ' f = some (c', (removed key typ' item' (flat c)).2) ∧
        Good minItems maxItems h minItems c' ∧ flat c' = (removed key typ' item' (flat c)).1) :
    ∃ n', (mk items children indices).remove key minItems item typ (f + 1) =
        some (n', (removed key typ item (flat (mk items children indices))).2) ∧
      Good minItems maxItems (h + 1) lo n' ∧ flat n' = (removed key typ item (flat (mk items children indices))).1 := by
  have hitems : items.Pairwise fun a b => key a < key b := hs.sublist (sublist_flat hg.shape)
  have hne : children ≠ [] := by
    rintro rfl
    simp [Good] at hg
  rw [remove_internal key typ item hne]
  cases typ with
  | removeItem =>
    rcases findItem_cases key hitems item with ⟨X, y, Y, rfl, hy, hf⟩ | ⟨X, Y, rfl, hX, hY, hf⟩
    · -- the item is the node's own: its predecessor, the greatest item of the child before it, replaces it
      obtain ⟨A, c, B, rfl, hA, hB⟩ := hg.window
      have hi : indices = sizeIndices (sizes (A ++ c :: B)) := hg.2.1
      subst hi
      have htarget : target key .removeItem item (X ++ y :: Y) = (A.length, true) := by simp [target, hf, hA]
      rw [htarget, List.getD_append_length] at hready
      have hgc : Good minItems maxItems h (minItems + 1) c := (hg.child (by simp)).with_lo hready
      have hsc : (flat c).Pairwise fun a b => key a < key b := by
        rw [flat_window hA] at hs
        exact hs.sublist (List.infix_append _ _ _).sublist
      obtain ⟨c', hrec, hc', hflat⟩ := ih c (by simp) .removeMax default hgc hsc
      have hcne := flat_ne_nil hgc (by omega)
      have hpred : removed key .removeMax default (flat c) =
          ((flat c).dropLast, some ((flat c).getLast hcne)) := by
        simp [removed, List.getLast?_eq_some_getLast hcne]
      rw [hpred] at hrec hflat
      obtain ⟨d, B, rfl⟩ : ∃ d B', B = d :: B' := by
        cases B with
        | nil => simp at hB
        | cons d B' => exact ⟨d, B', rfl⟩
      have hind := addAt_sizes_remove key .removeMax default (A := A) (B := d :: B) hsc (by rw [hflat, hpred])
      simp only [hpred, Option.isSome_some, ↓reduceIte] at hind
      -- the node's items with the item taken out, seen around the child
      rw [flat_window hA, post_cons] at hs ⊢
      rw [removed_item_present key hs hy]
      refine ⟨mk (X ++ (flat c).getLast hcne :: Y) (A ++ c' :: d :: B) (sizeIndices (sizes (A ++ c' :: d :: B))),
        ?_, hg.replace_item.set_child hc', ?_⟩
      · simp only [htarget, List.getD_append_length, not_le.mpr hready, ↓reduceIte, hrec, Option.getD_some,
          List.set_append_length, hind]
        rw [hA, List.set_append_length, List.getD_append_length]
      · rw [flat_window hA, post_cons, hflat]
        conv_rhs => rw [← List.dropLast_append_getLast hcne]
        simp
    · -- the item lies below child `X.length`
      obtain ⟨A, c, B, rfl, hA, hB⟩ := hg.window
      have hi : indices = sizeIndices (sizes (A ++ c :: B)) := hg.2.1
      subst hi
      have htarget : target key .removeItem item (X ++ Y) = (A.length, false) := by simp [target, hf, hA]
      rw [htarget, List.getD_append_length] at hready
      have hgc : Good minItems maxItems h (minItems + 1) c := (hg.child (by simp)).with_lo hready
      rw [flat_window hA] at hs
      have hsc : (flat c).Pairwise fun a b => key a < key b := hs.sublist (List.infix_append _ _ _).sublist
      have hP := lt_of_mem_pre key (L := flat c ++ post Y B) (by rwa [← List.append_assoc]) hA hX
      have hQ := lt_of_mem_post key hs hB.symm hY
      obtain ⟨c', hrec, hc', hflat⟩ := ih c (by simp) .removeItem item hgc hsc
      obtain ⟨hg', hflat', hout⟩ := remove_descend key rfl hg hA (removed_window_item key hP hQ) hc' hflat
      simp only [htarget, List.getD_append_length, not_le.mpr hready, Bool.false_eq_true, ↓reduceIte, hrec,
        List.set_append_length, addAt_sizes_remove key _ _ hsc hflat, hout]
      exact ⟨_, rfl, hg', hflat'⟩
  | removeMin =>
    -- the first child
    obtain ⟨A, c, B, rfl, hA, hB⟩ :=
      (show Good minItems maxItems (h + 1) lo (mk ([] ++ items) children indices) by simpa using hg).window
    obtain rfl : A = [] := List.eq_nil_of_length_eq_zero hA
    have hi : indices = sizeIndices (sizes ([] ++ c :: B)) := hg.2.1
    subst hi
    have htarget : target key .removeMin item items = (([] : List (Node α)).length, false) := rfl
    rw [htarget, List.getD_append_length] at hready
    have hgc : Good minItems maxItems h (minItems + 1) c := (hg.child (by simp)).with_lo hready
    have hsc : (flat c).Pairwise fun a b => key a < key b := by
      rw [show items = [] ++ items by simp, flat_window hA] at hs
      exact hs.sublist (List.infix_append _ _ _).sublist
    obtain ⟨c', hrec, hc', hflat⟩ := ih c (by simp) .removeMin item hgc hsc
    obtain ⟨hg', hflat', hout⟩ := remove_descend key (show items = [] ++ items by simp) hg hA
      (removed_window_min key (flat_ne_nil hgc (by omega))) hc' hflat
    simp only [htarget, List.getD_append_length, not_le.mpr hready, Bool.false_eq_true, ↓reduceIte, hrec,
      List.set_append_length, addAt_sizes_remove key _ _ hsc hflat, hout]
    exact ⟨_, rfl, hg', hflat'⟩
  | removeMax =>
    -- the last child
    obtain ⟨A, c, B, rfl, hA, hB⟩ :=
      (show Good minItems maxItems (h + 1) lo (mk (items ++ []) children indices) by simpa using hg).window
    obtain rfl : B = [] := List.eq_nil_of_length_eq_zero (by simpa using hB)
    have hi : indices = sizeIndices (sizes (A ++ c :: [])) := hg.2.1
    subst hi
    have htarget : target key .removeMax item items = (A.length, false) := by simp [target, hA]
    rw [htarget, List.getD_append_length] at hready
    have hgc : Good minItems maxItems h (minItems + 1) c := (hg.child (by simp)).with_lo hready
    have hsc : (flat c).Pairwise fun a b => key a < key b := by
      rw [show items = items ++ [] by simp, flat_window hA] at hs
      exact hs.sublist (List.infix_append _ _ _).sublist
    obtain ⟨c', hrec, hc', hflat⟩ := ih c (by simp) .removeMax item hgc hsc
    obtain ⟨hg', hflat', hout⟩ := remove_descend key (show items = items ++ [] by simp) hg hA
      (removed_window_max key (flat_ne_nil hgc (by omega))) hc' hflat
    simp only [htarget, List.getD_append_length, not_le.mpr hready, Bool.false_eq_true, ↓reduceIte, hrec,
      List.set_append_length, addAt_sizes_remove key _ _ hsc hflat, hout]
    exact ⟨_, rfl, hg', hflat'⟩

/-- `remove` on a well-formed subtree with an item to spare, with fuel above
twice its height: the subtree keeps its shape, with at most one item fewer at
its root, and holds its items with the removed one taken out, which it returns. -/
theorem remove_eq (hmax : maxItems = 2 * minItems + 1) : ∀ {h lo fuel : Nat} {n : Node α} (typ : ToRemove)
    (item : α), Good minItems maxItems h (lo + 1) n → (flat n).Pairwise (fun a b => key a < key b) →
    2 * h < fuel →
    ∃ n', n.remove key minItems item typ fuel = some (n', (removed key typ item (flat n)).2) ∧
      Good minItems maxItems h lo n' ∧ flat n' = (removed key typ item (flat n)).1
  | 0, lo, f + 1, mk items children indices, typ, item, hg, hs, _ => by
    obtain ⟨hc, hi, hlo, hmx⟩ := hg
    simp only [children_mk, indices_mk, items_mk] at hc hi hlo hmx
    subst hc hi
    rw [flat_leaf] at hs ⊢
    cases typ with
    | removeItem =>
      rcases findItem_cases key hs item with ⟨X, y, Y, rfl, hy, hf⟩ | ⟨X, Y, rfl, hX, hY, hf⟩
      · refine ⟨mk (X ++ Y) [] [], ?_, good_leaf (by simp at hlo ⊢; omega) (by simp at hmx ⊢; omega), ?_⟩
        · simp only [Node.remove, hf, ↓reduceIte, List.eraseIdx_append_length, List.getD_append_length,
            removed_item_present key hs hy]
        · rw [flat_leaf, removed_item_present key hs hy]
      · have habs : ∀ x ∈ X ++ Y, key x ≠ key item := by
          intro x hx
          rcases List.mem_append.mp hx with hx | hx
          · exact ne_of_lt (hX x hx)
          · exact ne_of_gt (hY x hx)
        refine ⟨mk (X ++ Y) [] [], ?_, good_leaf (by omega) hmx, ?_⟩
        · simp only [Node.remove, hf, Bool.false_eq_true, ↓reduceIte, removed_item_absent key habs]
        · rw [flat_leaf, removed_item_absent key habs]
    | removeMin =>
      refine ⟨mk (items.drop 1) [] [], rfl, good_leaf (by simp; omega) (by simp; omega), ?_⟩
      simp [removed]
    | removeMax =>
      refine ⟨mk items.dropLast [] [], rfl, good_leaf (by simp; omega) (by simp; omega), ?_⟩
      simp [removed]
  | h + 1, lo, f + 1, mk items children indices, typ, item, hg, hs, hfuel => by
    by_cases hready : minItems < (children.getD (target key typ item items).1 default).items.length
    · -- the child to enter has an item to spare
      obtain ⟨n', hrem, hg', hflat⟩ := remove_ready key typ item hg hs hready
        fun c _ typ' item' hgc hsc => remove_eq hmax typ' item' hgc hsc (show 2 * h < f by omega)
      exact ⟨n', hrem, hg'.mono (Nat.le_succ lo), hflat⟩
    · -- grow it first, then remove from the grown node
      obtain ⟨f, rfl⟩ : ∃ f', f = f' + 1 := ⟨f - 1, by omega⟩
      have hne : children ≠ [] := by
        rintro rfl
        simp [Good] at hg
      obtain ⟨hg2, hflat2, hready2⟩ := growChild_eq key hmax typ item hg hs (not_lt.mp hready)
      rw [remove_internal key typ item hne, if_pos (not_lt.mp hready), ← hflat2]
      generalize growChild (target key typ item items).1 minItems (mk items children indices) = n2 at hg2 hflat2 hready2 ⊢
      obtain ⟨items2, children2, indices2⟩ := n2
      have hs2 : (flat (mk items2 children2 indices2)).Pairwise fun a b => key a < key b := by
        rw [hflat2]
        exact hs
      exact remove_ready key typ item hg2 hs2 hready2
        fun c _ typ' item' hgc hsc => remove_eq hmax typ' item' hgc hsc (show 2 * h < f by omega)

end Ready

end Node

end MatrixCube.Prophet.Btree
