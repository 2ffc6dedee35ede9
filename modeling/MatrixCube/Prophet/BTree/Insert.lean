import MatrixCube.Prophet.BTree.Invariant

/-! # Insertion into the indexed B-tree

`insert` goes down from a node that is not full. At each internal node it
splits the child it is about to enter when that child is full
(`maybeSplitChild`), so the child it enters is never full either, and the item
moved up by the split decides which half to enter. Every step keeps `Good`,
and the items of the subtree become `insertSorted` of the old ones: the
proof follows the recursion, with the case where the item is found in the node
(`insert_found`), the descent into one child seen through its window
(`insert_descend`) and the split (`maybeSplitChild_full`) as lemmas.
-/

namespace MatrixCube.Prophet.Btree

variable {α : Type*}

namespace Node

section Split

variable [Inhabited α] {minItems maxItems : Nat}

/-- `split` at item `X.length`: that item, the node before it and the node
after it, which hold the subtree's items on either side of it. -/
theorem split_eq : ∀ {h lo : Nat} {X Y : List α} {y : α} {children : List (Node α)} {indices : List Int},
    Good minItems maxItems h lo (mk (X ++ y :: Y) children indices) →
    ∃ first second, (mk (X ++ y :: Y) children indices).split X.length = (y, first, second) ∧
      flat first ++ y :: flat second = flat (mk (X ++ y :: Y) children indices) ∧
      Good minItems maxItems h X.length first ∧ Good minItems maxItems h Y.length second ∧
      first.items = X ∧ second.items = Y
  | 0, lo, X, Y, y, children, indices, hg => by
    obtain ⟨hc, hi, -, hmax⟩ := hg
    simp only [Node.children, Node.indices, Node.items] at hc hi hmax
    subst hc hi
    simp only [List.length_append, List.length_cons] at hmax
    refine ⟨mk X [] [], mk Y [] [], ?_, by simp, good_leaf (le_refl _) (by omega),
      good_leaf (le_refl _) (by omega), rfl, rfl⟩
    simp [split, List.take_left']
  | h + 1, lo, X, Y, y, children, indices, hg => by
    obtain ⟨A, c, C, rfl, hA, hC⟩ := hg.window
    obtain ⟨d, B, rfl⟩ : ∃ d B, C = d :: B := by
      cases C with
      | nil => simp at hC
      | cons d B => exact ⟨d, B, rfl⟩
    have hi : indices = sizeIndices (sizes (A ++ c :: d :: B)) := hg.2.1
    subst hi
    have hmax := hg.le_max
    simp only [Node.items, List.length_append, List.length_cons] at hmax
    have hcs : ∀ e ∈ A ++ c :: d :: B, Good minItems maxItems h minItems e := fun e he => hg.child he
    refine ⟨mk X (A ++ [c]) (sizeIndices (sizes (A ++ [c]))),
      mk Y (d :: B) (sizeIndices (sizes (d :: B))), ?_, ?_, ?_, ?_, rfl, rfl⟩
    · have htake : (A ++ c :: d :: B).take (X.length + 1) = A ++ [c] := by
        rw [← hA, show A ++ c :: d :: B = (A ++ [c]) ++ d :: B by simp]
        exact List.take_left' (by simp)
      have hdrop : (A ++ c :: d :: B).drop (X.length + 1) = d :: B := by
        rw [← hA, show A ++ c :: d :: B = (A ++ [c]) ++ d :: B by simp]
        exact List.drop_left' (by simp)
      have hind : (sizeIndices (sizes (A ++ c :: d :: B))).take (X.length + 1) = sizeIndices (sizes (A ++ [c])) := by
        rw [show sizes (A ++ c :: d :: B) = sizes (A ++ [c]) ++ sizes (d :: B) by simp,
          show X.length + 1 = (sizes (A ++ [c])).length by simp [hA], take_sizeIndices_append]
      have hlen : (d :: B).map Node.length = sizes (d :: B) :=
        map_length_eq_sizes fun e he => hcs e (by simp_all)
      have hitems : (X ++ y :: Y).drop (X.length + 1) = Y := by
        rw [show X ++ y :: Y = (X ++ [y]) ++ Y by simp]
        exact List.drop_left' (by simp)
      simp only [split, List.getD_append_length, htake, hdrop, hind, hitems, List.take_left', initSize, hlen]
      rw [if_neg (by simp)]
    · have hfirst := flat_window (Y := []) (B := []) hA c (sizeIndices (sizes (A ++ [c])))
      rw [List.append_nil] at hfirst
      rw [hfirst, flat_cons, flat_window hA, post_cons]
      simp [post]
    · refine good_internal (by simp [hA]) (le_refl _) (by omega) fun e he => hcs e ?_
      simp only [List.mem_append, List.mem_cons, List.not_mem_nil, or_false] at he ⊢
      tauto
    · refine good_internal (by simpa using hC) (le_refl _) (by omega) fun e he => hcs e ?_
      exact List.mem_append_right _ (List.mem_cons_of_mem _ he)

/-- `maybeSplitChild` on a full child `A.length` of a well-formed node: the
child is split around its middle item, which moves up in front of the second
half. -/
theorem maybeSplitChild_full (hmax : maxItems = 2 * minItems + 1) {h lo : Nat} {X Y : List α}
    {A B : List (Node α)} {c : Node α}
    (hg : Good minItems maxItems (h + 1) lo (mk (X ++ Y) (A ++ c :: B) (sizeIndices (sizes (A ++ c :: B)))))
    (hA : A.length = X.length) (hfull : maxItems ≤ c.items.length) :
    ∃ y first second,
      maybeSplitChild X.length maxItems (mk (X ++ Y) (A ++ c :: B) (sizeIndices (sizes (A ++ c :: B)))) =
        (true, mk (X ++ y :: Y) (A ++ first :: second :: B) (sizeIndices (sizes (A ++ first :: second :: B)))) ∧
      flat first ++ y :: flat second = flat c ∧ Good minItems maxItems h minItems first ∧
        Good minItems maxItems h minItems second ∧ first.items.length = minItems ∧
        second.items.length = minItems := by
  have hc : Good minItems maxItems h minItems c := hg.child (by simp [Node.children])
  have hlen : c.items.length = 2 * minItems + 1 := by have := hc.le_max; omega
  obtain ⟨citems, cchildren, cindices⟩ := c
  simp only [Node.items] at hlen hfull
  obtain ⟨CX, y, CY, rfl, hCX⟩ := List.exists_append_cons_of_lt (show minItems < citems.length by omega)
  have hCY : CY.length = minItems := by simp at hlen; omega
  obtain ⟨first, second, hsplit, hflat, hfirst, hsecond, hfi, hsi⟩ := split_eq hc
  refine ⟨y, first, second, ?_, hflat, hCX ▸ hfirst, hCY ▸ hsecond, by rw [hfi, hCX], by rw [hsi, hCY]⟩
  have hsize : ((flat first).length : Int) = (flat (mk (CX ++ y :: CY) cchildren cindices)).length - 1 -
      second.length := by
    rw [← hflat, hsecond.length_eq]
    simp
    omega
  have hmid : maxItems / 2 = CX.length := by omega
  simp only [maybeSplitChild, ← hA, List.getD_append_length, Node.items, hlen, hmid, hsplit]
  rw [if_neg (by omega)]
  have hchildren : ((A ++ mk (CX ++ y :: CY) cchildren cindices :: B).set A.length first).insertIdx
      (A.length + 1) second = A ++ first :: second :: B := by
    rw [List.set_append_length, show A ++ first :: B = (A ++ [first]) ++ B by simp,
      show A.length + 1 = (A ++ [first]).length by simp, List.insertIdx_append_length]
    simp
  have hindices : Indices.split (sizeIndices (sizes (A ++ mk (CX ++ y :: CY) cchildren cindices :: B)))
      A.length second.length = sizeIndices (sizes (A ++ first :: second :: B)) := by
    rw [sizes_append, sizes_cons, ← length_sizes A, Indices.split_sizeIndices, sizes_append, sizes_cons,
      sizes_cons, hsize, hsecond.length_eq]
  rw [hA, List.insertIdx_append_length, ← hA, hchildren, hindices]

end Split

section Window

variable {minItems maxItems : Nat} {K : Type*} [LinearOrder K] (key : α → K)

/-- With an item of `item`'s key in the node itself, putting `item` in its
place keeps the shape and inserts `item` into the subtree. -/
theorem replace_eq {h lo : Nat} {X Y : List α} {y item : α} {children : List (Node α)}
    {indices : List Int} (hg : Good minItems maxItems h lo (mk (X ++ y :: Y) children indices))
    (hs : (flat (mk (X ++ y :: Y) children indices)).Pairwise fun a b => key a < key b)
    (hy : key y = key item) :
    Good minItems maxItems h lo (mk (X ++ item :: Y) children indices) ∧
      flat (mk (X ++ item :: Y) children indices) =
        OrderedSet.insertSorted key item (flat (mk (X ++ y :: Y) children indices)) ∧
      (flat (mk (X ++ y :: Y) children indices)).find? (fun z => key z = key item) = some y := by
  have hshape : children = [] ∨ children.length = X.length + Y.length + 2 := by
    rcases hg.shape with hc | hc
    · exact .inl hc
    · right
      simp only [Node.children, Node.items, List.length_append, List.length_cons] at hc
      omega
  obtain ⟨P, Q, hPQ⟩ := flat_item_window indices hshape
  rw [hPQ] at hs
  obtain ⟨hP, -⟩ := OrderedSet.lt_window hs
  rw [hy] at hP
  refine ⟨hg.replace_item, ?_, ?_⟩
  · rw [hPQ, hPQ, OrderedSet.insertSorted_present P y Q hP hy]
  · rw [hPQ, (OrderedSet.find?_count_present hs hy).1]

/-- The ranks after an insertion into child `A.length`: those from that child
on move up by one when the child gained an item. -/
theorem addAt_sizes_insert {A B : List (Node α)} {c c' : Node α} {item : α}
    (hc : (flat c).Pairwise fun a b => key a < key b)
    (hflat : flat c' = OrderedSet.insertSorted key item (flat c)) :
    (if ((flat c).find? fun y => key y = key item).isNone then
        Indices.addAt (sizeIndices (sizes (A ++ c :: B))) A.length 1
      else sizeIndices (sizes (A ++ c :: B))) = sizeIndices (sizes (A ++ c' :: B)) := by
  have hlen := OrderedSet.length_insertSorted item hc
  rw [← hflat] at hlen
  split_ifs at hlen ⊢ with hnone
  · rw [sizes_append, sizes_cons, ← length_sizes A, Indices.addAt_sizeIndices, sizes_append, sizes_cons,
      hlen]
    push_cast
    rfl
  · rw [sizes_append, sizes_cons, sizes_append, sizes_cons, hlen]

/-- Descending into child `A.length`, between the items below `item` and those
above it: the node holds what the child's insertion gives, and the search for
`item`'s key finds in the node what it finds in the child. -/
theorem insert_descend {h lo : Nat} {X Y : List α} {A B : List (Node α)} {c c' : Node α} {item : α}
    (hg : Good minItems maxItems (h + 1) lo (mk (X ++ Y) (A ++ c :: B) (sizeIndices (sizes (A ++ c :: B)))))
    (hA : A.length = X.length)
    (hs : (flat (mk (X ++ Y) (A ++ c :: B) (sizeIndices (sizes (A ++ c :: B))))).Pairwise
      fun a b => key a < key b)
    (hX : ∀ x ∈ X, key x < key item) (hY : ∀ y ∈ Y, key item < key y)
    (hc' : Good minItems maxItems h minItems c') (hflat : flat c' = OrderedSet.insertSorted key item (flat c)) :
    Good minItems maxItems (h + 1) lo (mk (X ++ Y) (A ++ c' :: B) (sizeIndices (sizes (A ++ c' :: B)))) ∧
      flat (mk (X ++ Y) (A ++ c' :: B) (sizeIndices (sizes (A ++ c' :: B)))) =
        OrderedSet.insertSorted key item (flat (mk (X ++ Y) (A ++ c :: B) (sizeIndices (sizes (A ++ c :: B))))) ∧
      (flat (mk (X ++ Y) (A ++ c :: B) (sizeIndices (sizes (A ++ c :: B))))).find? (fun y => key y = key item) =
        (flat c).find? fun y => key y = key item := by
  have hB : Y.length = B.length := by
    have := hg.1
    simp only [Node.children, Node.items, List.length_append, List.length_cons] at this
    omega
  rw [flat_window hA] at hs ⊢
  rw [flat_window hA]
  have hP := lt_of_mem_pre key (L := flat c ++ post Y B) (by rwa [← List.append_assoc]) hA hX
  have hQ := lt_of_mem_post key hs hB hY
  refine ⟨hg.set_child hc', ?_, OrderedSet.find?_window hP hQ⟩
  rw [hflat, OrderedSet.insertSorted_append_right _ _ hQ, OrderedSet.insertSorted_append_left _ _ hP]

end Window

section Insert

variable [Inhabited α] {minItems maxItems : Nat} {K : Type*} [LinearOrder K] (key : α → K)

/-- An item of the key of `item` in the node itself is replaced in place. -/
theorem insert_found {h lo fuel : Nat} {X Y : List α} {y item : α} {children : List (Node α)}
    {indices : List Int} (hg : Good minItems maxItems h lo (mk (X ++ y :: Y) children indices))
    (hs : (flat (mk (X ++ y :: Y) children indices)).Pairwise fun a b => key a < key b)
    (hy : key y = key item) (hf : findItem key (X ++ y :: Y) item = (X.length, true)) :
    ∃ n', (mk (X ++ y :: Y) children indices).insert key maxItems item (fuel + 1) =
        some (n', (flat (mk (X ++ y :: Y) children indices)).find? fun z => key z = key item) ∧
      Good minItems maxItems h lo n' ∧
      flat n' = OrderedSet.insertSorted key item (flat (mk (X ++ y :: Y) children indices)) := by
  obtain ⟨hg', hflat, hfind⟩ := replace_eq key hg hs hy
  refine ⟨mk (X ++ item :: Y) children indices, ?_, hg', hflat⟩
  simp only [Node.insert, hf, if_true, List.set_append_length, List.getD_append_length, hfind]

/-- `insert` on a well-formed subtree that is not full, with fuel above its
height: the subtree keeps its shape and holds its items with `item` put in
place, and the item returned is the one of `item`'s key it replaced. -/
theorem insert_eq (hmax : maxItems = 2 * minItems + 1) (item : α) : ∀ {h lo fuel : Nat} {n : Node α},
    Good minItems maxItems h lo n → n.items.length < maxItems →
    (flat n).Pairwise (fun a b => key a < key b) → h < fuel →
    ∃ n', n.insert key maxItems item fuel = some (n', (flat n).find? fun y => key y = key item) ∧
      Good minItems maxItems h lo n' ∧ flat n' = OrderedSet.insertSorted key item (flat n)
  | h, lo, f + 1, mk items children indices, hg, hlt, hs, hfuel => by
    have hitems : items.Pairwise fun a b => key a < key b := hs.sublist (sublist_flat hg.shape)
    rcases findItem_cases key hitems item with ⟨X, y, Y, rfl, hy, hf⟩ | ⟨X, Y, rfl, hX, hY, hf⟩
    · exact insert_found key hg hs hy hf
    cases h with
    | zero =>
      -- a leaf takes the item at the cut
      obtain ⟨hc, hi, hlo, -⟩ := hg
      simp only [Node.children, Node.indices, Node.items] at hc hi hlo hlt
      subst hc hi
      rw [flat_leaf] at hs ⊢
      refine ⟨mk (X ++ item :: Y) [] [], ?_, good_leaf (by simp at hlo ⊢; omega) (by simp at hlt ⊢; omega),
        by rw [flat_leaf, OrderedSet.insertSorted_absent X Y hX hY]⟩
      simp only [Node.insert, hf, (OrderedSet.find?_count_absent hX hY).1, Bool.false_eq_true, ↓reduceIte,
        List.insertIdx_append_length]
    | succ h =>
      obtain ⟨A, c, B, rfl, hA, hB⟩ := hg.window
      have hi : indices = sizeIndices (sizes (A ++ c :: B)) := hg.2.1
      subst hi
      have hc : Good minItems maxItems h minItems c := hg.child (by simp [Node.children])
      have hsc : (flat c).Pairwise fun a b => key a < key b := by
        rw [flat_window hA] at hs
        exact hs.sublist (List.infix_append _ _ _).sublist
      have hne : A ++ c :: B ≠ [] := by simp
      by_cases hfull : maxItems ≤ c.items.length
      · -- the full child is split first, and its middle item decides the half
        obtain ⟨y, first, second, hsplit, hflat, hfirst, hsecond, hfl, hsl⟩ :=
          maybeSplitChild_full hmax hg hA hfull
        have hg2 : Good minItems maxItems (h + 1) lo (mk (X ++ y :: Y) (A ++ first :: second :: B)
            (sizeIndices (sizes (A ++ first :: second :: B)))) := by
          have hlo := hg.lo_le
          simp only [Node.items, List.length_append] at hlo hlt
          refine good_internal (by simp; omega) (by simp; omega) (by simp; omega) fun e he => ?_
          -- every child but the two halves is a child of the node
          simp only [List.mem_append, List.mem_cons] at he
          rcases he with he | rfl | rfl | he
          · exact hg.child (by simp [Node.children, he])
          · exact hfirst
          · exact hsecond
          · exact hg.child (by simp [Node.children, he])
        have hflat2 : flat (mk (X ++ y :: Y) (A ++ first :: second :: B)
            (sizeIndices (sizes (A ++ first :: second :: B)))) =
            flat (mk (X ++ Y) (A ++ c :: B) (sizeIndices (sizes (A ++ c :: B)))) := by
          rw [flat_window hA, flat_window hA, post_cons, ← hflat]
          simp
        rw [← hflat2] at hs ⊢
        simp only [Node.insert, hf, hsplit, hne, Bool.false_eq_true, ↓reduceIte, true_and]
        simp only [Node.children, Node.items, Node.indices, List.getD_append_length]
        rcases lt_trichotomy (key item) (key y) with hlty | heq | hgty
        · -- `item` goes into the first half
          have hsf : (flat first).Pairwise fun a b => key a < key b := by
            rw [flat_window hA] at hs
            exact hs.sublist (List.infix_append _ _ _).sublist
          obtain ⟨first', hrec, hfirst', hflatf⟩ :=
            insert_eq hmax item hfirst (by omega) hsf (show h < f by omega)
          have hY' : ∀ z ∈ y :: Y, key item < key z := by
            intro z hz
            rcases List.mem_cons.mp hz with rfl | hz
            · exact hlty
            · exact hY z hz
          obtain ⟨hg', hflat', hfind⟩ := insert_descend key hg2 hA hs hX hY' hfirst' hflatf
          refine ⟨_, ?_, hg', hflat'⟩
          rw [if_neg (fun h => h.1 hlty), if_neg (not_lt.mpr hlty.le), ← hA, List.getD_append_length, hrec]
          simp only [List.set_append_length, addAt_sizes_insert key hsf hflatf, hfind]
        · -- `item` takes the place of the middle item
          obtain ⟨hg', hflat', hfind⟩ := replace_eq key hg2 hs heq.symm
          refine ⟨_, ?_, hg', hflat'⟩
          rw [if_pos ⟨not_lt.mpr heq.ge, not_lt.mpr heq.le⟩, List.set_append_length, hfind]
        · -- `item` goes into the second half: the node seen at that half
          rw [if_neg (fun h => h.2 hgty), if_pos hgty]
          have hA' : (A ++ [first]).length = (X ++ [y]).length := by simp [hA]
          have hX' : ∀ x ∈ X ++ [y], key x < key item := by
            intro x hx
            rcases List.mem_append.mp hx with hx | hx
            · exact hX x hx
            · rw [List.mem_singleton.mp hx]
              exact hgty
          rw [show X ++ y :: Y = (X ++ [y]) ++ Y by simp,
            show A ++ first :: second :: B = (A ++ [first]) ++ second :: B by simp] at hg2 hs ⊢
          have hss : (flat second).Pairwise fun a b => key a < key b := by
            rw [flat_window hA'] at hs
            exact hs.sublist (List.infix_append _ _ _).sublist
          obtain ⟨second', hrec, hsecond', hflats⟩ :=
            insert_eq hmax item hsecond (by omega) hss (show h < f by omega)
          obtain ⟨hg', hflat', hfind⟩ := insert_descend key hg2 hA' hs hX' hY hsecond' hflats
          refine ⟨_, ?_, hg', hflat'⟩
          rw [show X.length + 1 = (A ++ [first]).length by simp [hA], List.getD_append_length, hrec]
          simp only [List.set_append_length, addAt_sizes_insert key hss hflats, hfind]
      · have hsplit : maybeSplitChild X.length maxItems
            (mk (X ++ Y) (A ++ c :: B) (sizeIndices (sizes (A ++ c :: B)))) =
            (false, mk (X ++ Y) (A ++ c :: B) (sizeIndices (sizes (A ++ c :: B)))) := by
          simp only [maybeSplitChild, ← hA, List.getD_append_length]
          rw [if_pos (by omega)]
        obtain ⟨c', hrec, hc', hflat⟩ := insert_eq hmax item hc (by omega) hsc (show h < f by omega)
        obtain ⟨hg', hflat', hfind⟩ := insert_descend key hg hA hs hX hY hc' hflat
        refine ⟨_, ?_, hg', hflat'⟩
        simp only [Node.insert, hf, hsplit, hne, Bool.false_eq_true, false_and, ↓reduceIte]
        simp only [Node.children, Node.items, Node.indices, ← hA, List.getD_append_length, hrec,
          List.set_append_length, addAt_sizes_insert key hsc hflat, hfind]

end Insert

end Node
end MatrixCube.Prophet.Btree
