import MatrixCube.Prophet.BTree.Invariant

/-! # Order statistics: `getAt` and `getWithIndex`

On a well-formed subtree with fuel above its height, `getAt k` returns the
item of rank `k` (nil outside the subtree) and, when the items are sorted,
`getWithIndex x` returns the item of the key of `x` with the number of items
below `x`. Both walk down by the ranks of `indices`: the child they descend
into is the one whose window of the node holds the answer, and the rank they
add or subtract is the size of what lies before that child.
-/

namespace MatrixCube.Prophet.Btree

variable {α : Type*}

namespace Node

theorem sizes_eq_append_cons {cs : List (Node α)} {S T : List Int} {s : Int} (h : sizes cs = S ++ s :: T) :
    ∃ A c B, cs = A ++ c :: B ∧ sizes A = S ∧ ((flat c).length : Int) = s ∧ sizes B = T := by
  obtain ⟨A, cB, rfl, hA, hcB⟩ := List.map_eq_append_iff.mp h
  obtain ⟨c, B, rfl, hc, hB⟩ := List.map_eq_cons_iff.mp hcB
  exact ⟨A, c, B, rfl, hA, hc, hB⟩

/-- The rank `indices` keeps for the item after child `A.length`. -/
theorem getD_sizeIndices_window {A : List (Node α)} {X : List α} (h : A.length = X.length) (c : Node α)
    (B : List (Node α)) :
    (sizeIndices (sizes (A ++ c :: B))).getD A.length 0 = (pre A X).length + (flat c).length := by
  rw [sizes_append, sizes_cons, ← length_sizes A, getD_sizeIndices, length_sizes, length_pre h]

/-- One past the rank of the item before child `A.length`: the size of what
lies before that child. -/
theorem getD_sizeIndices_before {A : List (Node α)} {X : List α} (h : A.length = X.length) (hA : 0 < A.length)
    (c : Node α) (B : List (Node α)) :
    (sizeIndices (sizes (A ++ c :: B))).getD (A.length - 1) 0 + 1 = (pre A X).length := by
  obtain ⟨A', a, rfl⟩ : ∃ A' a, A = A' ++ [a] := by
    rcases List.eq_nil_or_concat A with rfl | ⟨A', a, rfl⟩
    · simp at hA
    · exact ⟨A', a, List.concat_eq_append⟩
  rw [length_pre h, List.append_assoc, List.singleton_append, sizes_append, sizes_cons, List.length_append,
    List.length_singleton, Nat.add_sub_cancel, ← length_sizes A', getD_sizeIndices]
  simp only [sizes_append, sizes_cons, sizes_nil, List.sum_append, List.sum_cons, List.sum_nil, length_sizes]
  omega

section Query

variable [Inhabited α] {minItems maxItems : Nat}

/-- `getAt` returns the item of rank `k` of the subtree, and nil for a rank
outside it. -/
theorem getAt_eq : ∀ {h lo fuel : Nat} {n : Node α}, Good minItems maxItems h lo n → h < fuel →
    ∀ k : Int, n.getAt fuel k = some (if k < 0 then none else (flat n)[k.toNat]?)
  | 0, lo, f + 1, mk items children indices, hg, _, k => by
    obtain ⟨hc, hi, -⟩ := hg
    simp only [Node.children, Node.indices] at hc hi
    subst hc hi
    have hlen : (mk items [] [] : Node α).length = items.length := rfl
    simp only [getAt, hlen, Node.children, Node.items, flat_leaf, if_true]
    by_cases hk : k < 0
    · simp [hk]
    · by_cases hout : items.length ≤ k
      · rw [if_pos (.inl hout), if_neg hk, List.getElem?_eq_none (by omega)]
      · rw [if_neg (by omega), if_neg hk, List.getD_eq_getElem?_getD, List.getElem?_eq_getElem (by omega)]
        rfl
  | h + 1, lo, f + 1, mk items children indices, hg, hfuel, k => by
    have hlen := hg.length_eq
    obtain ⟨hcl, hi, -, -, hcs⟩ := hg
    simp only [Node.children, Node.indices, Node.items] at hcl hi hcs
    subst hi
    have hne : children ≠ [] := fun h => by simp [h] at hcl
    simp only [getAt, hlen, Node.children, hne, if_false, Node.indices, Node.items]
    by_cases hk : k < 0
    · simp [hk]
    by_cases hout : ((flat (mk items children (sizeIndices (sizes children)))).length : Int) ≤ k
    · rw [if_pos (.inl hout), if_neg hk, List.getElem?_eq_none (by omega)]
    rw [if_neg (by omega), if_neg hk]
    -- `find` picks the child whose ranks hold `k`
    have htotal : ((flat (mk items children (sizeIndices (sizes children)))).length : Int) =
        (sizes children).sum + (sizes children).length - 1 := by
      rw [length_flat_internal _ hcl, length_sizes]
    obtain ⟨S, s, T, hss, hfind, hlo, hhi⟩ :=
      Indices.find_sizeIndices (k := k) (show ∀ x ∈ sizes children, 0 ≤ x by simp [sizes]) (by omega)
        (by omega)
    simp only [hfind]
    obtain ⟨A, c, B, rfl, rfl, hc, rfl⟩ := sizes_eq_append_cons hss
    have hAX : A.length ≤ items.length := by simp at hcl; omega
    obtain ⟨X, Y, rfl, hX⟩ : ∃ X Y, items = X ++ Y ∧ X.length = A.length :=
      ⟨items.take A.length, items.drop A.length, (List.take_append_drop _ _).symm, List.length_take_of_le hAX⟩
    have hBY : B.length = Y.length := by simp at hcl; omega
    have hflat := flat_window hX.symm Y c B (sizeIndices (sizes (A ++ c :: B)))
    have hpre := length_pre hX.symm
    rw [hflat] at hout ⊢
    simp only [length_sizes, decide_eq_true_eq]
    subst hc
    simp only [length_sizes] at hlo hhi
    simp only [List.length_append, Nat.cast_add, hpre] at hout
    by_cases hfound : (sizes A).sum + A.length + (flat c).length = k
    · -- `k` is the rank of the item after child `A.length`
      rw [if_pos hfound]
      obtain ⟨y, Y, rfl⟩ : ∃ y Y', Y = y :: Y' := by
        cases Y with
        | nil =>
          have hB : B = [] := List.eq_nil_of_length_eq_zero hBY
          subst hB
          simp [post] at hout
          omega
        | cons y Y' => exact ⟨y, Y', rfl⟩
      obtain ⟨b, B, rfl⟩ : ∃ b B', B = b :: B' := by
        cases B with
        | nil => simp at hBY
        | cons b B' => exact ⟨b, B', rfl⟩
      rw [← hX, List.getD_append_length, post_cons, List.getElem?_append_right (by simp; omega)]
      simp only [List.length_append, show k.toNat - ((pre A X).length + (flat c).length) = 0 by omega,
        List.getElem?_cons_zero]
    · -- `k` lies inside child `A.length`
      rw [if_neg hfound]
      have hstep : (if A.length = 0 then getAt f ((A ++ c :: B).getD 0 default) k
          else getAt f ((A ++ c :: B).getD A.length default)
            (k - (sizeIndices (sizes (A ++ c :: B))).getD (A.length - 1) 0 - 1)) =
          getAt f c (k - (pre A X).length) := by
        split_ifs with hA0
        · obtain rfl : A = [] := List.eq_nil_of_length_eq_zero hA0
          simp
        · rw [List.getD_append_length]
          have := getD_sizeIndices_before hX.symm (by omega) c B
          congr 1
          omega
      rw [hstep, getAt_eq (hcs c (by simp)) (by omega), if_neg (by omega), List.append_assoc,
        List.getElem?_append_right (by omega), List.getElem?_append_left (by omega)]
      congr 2
      omega

variable {K : Type*} [LinearOrder K] (key : α → K)

/-- `getWithIndex` returns the item of the key of `x` (nil when there is none)
and the number of items below `x`. -/
theorem getWithIndex_eq : ∀ {h lo fuel : Nat} {n : Node α}, Good minItems maxItems h lo n →
    (flat n).Pairwise (fun a b => key a < key b) → h < fuel → ∀ x : α,
      n.getWithIndex key x fuel = some ((flat n).find? (fun y => key y = key x),
        (((flat n).filter fun y => key y < key x).length : Int))
  | 0, lo, f + 1, mk items children indices, hg, hs, _, x => by
    obtain ⟨hc, hi, -⟩ := hg
    simp only [Node.children, Node.indices] at hc hi
    subst hc hi
    rw [flat_leaf] at hs ⊢
    rcases findItem_cases key hs x with ⟨A, y, B, rfl, hy, hf⟩ | ⟨A, B, rfl, hA, hB, hf⟩
    · obtain ⟨hfind, hcount⟩ := OrderedSet.find?_count_present hs hy
      simp only [getWithIndex, Node.items, hf, Node.indices, List.getD_append_length, hfind, hcount]
      simp
    · obtain ⟨hfind, hcount⟩ := OrderedSet.find?_count_absent hA hB
      simp only [getWithIndex, Node.items, hf, Node.indices, Node.children, hfind, hcount]
      simp
  | h + 1, lo, f + 1, mk items children indices, hg, hs, hfuel, x => by
    have hitems : items.Pairwise fun a b => key a < key b := hs.sublist (sublist_flat (.inr hg.1))
    rcases findItem_cases key hitems x with ⟨X, y, Y, rfl, hy, hf⟩ | ⟨X, Y, rfl, hX, hY, hf⟩
    · -- the item is in this node, after child `X.length`
      obtain ⟨A, c, C, rfl, hA, hC⟩ := hg.window
      obtain ⟨d, B, rfl⟩ : ∃ d B, C = d :: B := by
        cases C with
        | nil => simp at hC
        | cons d B => exact ⟨d, B, rfl⟩
      have hi : indices = sizeIndices (sizes (A ++ c :: d :: B)) := hg.2.1
      subst hi
      rw [flat_window hA, post_cons] at hs ⊢
      obtain ⟨hfind, hcount⟩ := OrderedSet.find?_count_present hs hy
      have hrank := getD_sizeIndices_window hA c (d :: B)
      have hne : sizeIndices (sizes (A ++ c :: d :: B)) ≠ [] := fun h => by
        simpa using congrArg List.length h
      simp only [getWithIndex, Node.items, hf, Node.indices, List.getD_append_length, hfind, hcount]
      rw [if_pos trivial, if_pos hne, ← hA, hrank, List.length_append, Nat.cast_add]
    · -- the item belongs below child `X.length`
      obtain ⟨A, c, B, rfl, hA, hB⟩ := hg.window
      have hi : indices = sizeIndices (sizes (A ++ c :: B)) := hg.2.1
      subst hi
      rw [flat_window hA] at hs ⊢
      have hP := lt_of_mem_pre key (L := flat c ++ post Y B) (by rwa [← List.append_assoc]) hA hX
      have hQ := lt_of_mem_post key hs hB.symm hY
      have hcg : Good minItems maxItems h minItems c := hg.child (by simp [Node.children])
      have hc := getWithIndex_eq hcg (hs.sublist (List.infix_append _ _ _).sublist) (show h < f by omega) x
      simp only [getWithIndex, Node.items, hf, Node.children, ← hA, List.getD_append_length, hc,
        OrderedSet.find?_window hP hQ, OrderedSet.length_filter_lt_window hP hQ]
      rw [if_neg (by simp), if_pos (by simp), Option.map_some]
      simp only [Node.indices, Option.some.injEq, Prod.mk.injEq, true_and]
      split_ifs with hpos
      · -- the rank after the item before child `A.length` counts what lies before it
        have := getD_sizeIndices_before hA hpos c B
        push_cast
        omega
      · obtain rfl : A = [] := List.eq_nil_of_length_eq_zero (by omega)
        obtain rfl : X = [] := List.eq_nil_of_length_eq_zero (by simpa using hA.symm)
        simp

/-- `get` walks the path of `getWithIndex` and returns its item. -/
theorem get_eq_getWithIndex (x : α) : ∀ (fuel : Nat) (n : Node α),
    n.get key x fuel = (n.getWithIndex key x fuel).map Prod.fst
  | 0, _ => rfl
  | fuel + 1, n => by
    simp only [get, getWithIndex]
    generalize findItem key n.items x = r
    obtain ⟨i, found⟩ := r
    dsimp only
    by_cases hfound : found = true
    · simp [hfound]
    · by_cases hc : n.children ≠ []
      · -- both descend into the same child; `getWithIndex` only adds to the rank
        rw [if_neg hfound, if_neg hfound, if_pos hc, if_pos hc, Option.map_map, get_eq_getWithIndex x fuel]
        rfl
      · simp [hfound, hc]

/-- `get` returns the item of the key of `x`, nil when there is none. -/
theorem get_eq {h lo fuel : Nat} {n : Node α} (hg : Good minItems maxItems h lo n)
    (hs : (flat n).Pairwise (fun a b => key a < key b)) (hf : h < fuel) (x : α) :
    n.get key x fuel = some ((flat n).find? fun y => key y = key x) := by
  rw [get_eq_getWithIndex, getWithIndex_eq key hg hs hf, Option.map_some]

end Query

section Ends

variable {minItems maxItems : Nat}

/-- A subtree whose top holds an item holds one. -/
theorem Good.flat_ne_nil {h lo : Nat} {n : Node α} (hg : Good minItems maxItems h lo n) (hlo : 1 ≤ lo) :
    flat n ≠ [] := by
  obtain ⟨items, children, indices⟩ := n
  have hsub : items.Sublist (flat (mk items children indices)) := sublist_flat hg.shape
  have hlo' := hg.lo_le
  intro hnil
  rw [hnil] at hsub
  simp only [items_mk, List.sublist_nil] at hsub hlo'
  simp [hsub] at hlo'
  omega

/-- `min` goes down the first children to the first item of the subtree, when
every node below the top holds an item. -/
theorem min_eq (hmin : 1 ≤ minItems) : ∀ {h lo fuel : Nat} {n : Node α}, Good minItems maxItems h lo n →
    h < fuel → n.min fuel = some (flat n).head?
  | 0, _, f + 1, mk items children indices, hg, _ => by
    obtain ⟨hc, -⟩ := hg
    simp only [children_mk] at hc
    subst hc
    simp [Node.min]
  | h + 1, _, f + 1, mk items children indices, hg, hf => by
    cases children with
    | nil => exact absurd hg.1 (by simp)
    | cons c cs =>
      have hgc : Good minItems maxItems h minItems c := hg.child List.mem_cons_self
      rw [Node.min, if_pos (by simp), children_mk, List.getD_cons_zero, min_eq hmin hgc (by omega), flat_cons,
        List.head?_append_of_ne_nil _ (hgc.flat_ne_nil hmin)]

/-- `max` goes down the last children to the last item of the subtree, when
every node below the top holds an item. -/
theorem max_eq (hmin : 1 ≤ minItems) : ∀ {h lo fuel : Nat} {n : Node α}, Good minItems maxItems h lo n →
    h < fuel → n.max fuel = some (flat n).getLast?
  | 0, _, f + 1, mk items children indices, hg, _ => by
    obtain ⟨hc, -⟩ := hg
    simp only [children_mk] at hc
    subst hc
    simp [Node.max]
  | h + 1, _, f + 1, mk items children indices, hg, hf => by
    -- the last child closes the node
    obtain ⟨A, c, B, rfl, hA, hB⟩ := (show Good minItems maxItems (h + 1) _ (mk (items ++ []) children indices)
      by simpa using hg).window
    obtain rfl : B = [] := List.eq_nil_of_length_eq_zero hB
    have hgc : Good minItems maxItems h minItems c := hg.child (by simp)
    have hlast : (A ++ [c]).getD ((A ++ [c]).length - 1) default = c := by simp
    have hflat : flat (mk items (A ++ [c]) indices) = pre A items ++ flat c := by
      simpa [post] using flat_window hA [] c [] indices
    rw [Node.max, if_pos (by simp), children_mk, hlast, max_eq hmin hgc (by omega), hflat,
      List.getLast?_append_of_ne_nil _ (hgc.flat_ne_nil hmin)]

end Ends

end Node
end MatrixCube.Prophet.Btree
