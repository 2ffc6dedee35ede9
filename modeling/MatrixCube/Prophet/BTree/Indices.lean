import MatrixCube.Prophet.BTree.Model

/-! # The `indices` operations against the ranks they keep

An internal node is well formed when its `indices` are `sizeIndices` of the
sizes of its children. Each operation that patches `indices` is proved here to
produce `sizeIndices` of the sizes after the change it accompanies: a child
grown or shrunk (`addAt`), split in two (`split`), merged with its right
sibling (`merge`), taken from the front or the back (`removeAt 0`, `pop`),
added at the front or the back (`insertAt 0`, `push`), or a size moved
between two neighbours (the `set`s of a steal). The sizes are written around
the child concerned, `S ++ s :: T`, so that its position is `S.length`.
-/
namespace MatrixCube.Prophet.Btree

theorem sizeIndices_go_add (acc d : Int) : ∀ ss : List Int,
    sizeIndices.go (acc + d) ss = (sizeIndices.go acc ss).map (· + d)
  | [] => rfl
  | s :: ss => by
    simp only [sizeIndices.go, List.map_cons, List.cons.injEq, true_and]
    rw [show acc + d + 1 + s = acc + 1 + s + d by omega]
    exact sizeIndices_go_add _ d ss

theorem sizeIndices_cons (s : Int) (ss : List Int) :
    sizeIndices (s :: ss) = s :: (sizeIndices ss).map (· + (s + 1)) := by
  cases ss with
  | nil => rfl
  | cons t ss =>
    simp only [sizeIndices, sizeIndices.go]
    rw [show s + 1 + t = t + (s + 1) by omega, sizeIndices_go_add]

@[simp] theorem length_sizeIndices : ∀ ss : List Int, (sizeIndices ss).length = ss.length
  | [] => rfl
  | s :: ss => by simp [sizeIndices_cons, length_sizeIndices ss]

theorem map_add_map_add (l : List Int) (a b : Int) :
    (l.map (· + a)).map (· + b) = l.map (· + (a + b)) := by
  simp only [List.map_map]
  exact List.map_congr_left fun x _ => by simp only [Function.comp_apply]; omega

theorem map_add_congr {a b : Int} (l : List Int) (h : a = b) : l.map (· + a) = l.map (· + b) := by
  rw [h]

/-- The ranks after a prefix `S` of children are those of the rest, shifted
by the size of `S` and one separator per child of `S`. -/
theorem sizeIndices_append : ∀ S T : List Int,
    sizeIndices (S ++ T) = sizeIndices S ++ (sizeIndices T).map (· + (S.sum + S.length))
  | [], T => by simp [sizeIndices]
  | a :: S, T => by
    rw [List.cons_append, sizeIndices_cons, sizeIndices_append S T, sizeIndices_cons, List.map_append,
      map_add_map_add, List.cons_append]
    simp only [List.sum_cons, List.length_cons]
    rw [show a + S.sum + ((S.length + 1 : Nat) : Int) = S.sum + S.length + (a + 1) by omega]

theorem take_sizeIndices_append (S T : List Int) : (sizeIndices (S ++ T)).take S.length = sizeIndices S := by
  rw [sizeIndices_append]
  exact List.take_left' (length_sizeIndices S)

theorem getD_sizeIndices (S T : List Int) (s : Int) :
    (sizeIndices (S ++ s :: T)).getD S.length 0 = S.sum + S.length + s := by
  rw [sizeIndices_append, List.getD_append_right _ _ _ _ (by simp), length_sizeIndices, Nat.sub_self,
    sizeIndices_cons]
  simp only [List.map_cons, List.getD_cons_zero]
  omega

theorem getLast?_sizeIndices (S : List Int) (t : Int) :
    (sizeIndices (S ++ [t])).getLast? = some (S.sum + S.length + t) := by
  rw [sizeIndices_append, show sizeIndices [t] = [t] from rfl]
  simp only [List.map_singleton, List.getLast?_append_cons, List.getLast?_singleton, Option.some.injEq]
  omega

namespace Indices

theorem addAt_append (P M : List Int) (δ : Int) : addAt (P ++ M) P.length δ = P ++ M.map (· + δ) := by
  simp [addAt]

theorem addAt_sizeIndices (S T : List Int) (s δ : Int) :
    addAt (sizeIndices (S ++ s :: T)) S.length δ = sizeIndices (S ++ (s + δ) :: T) := by
  rw [sizeIndices_append, sizeIndices_append, ← length_sizeIndices S, addAt_append, map_add_map_add,
    sizeIndices_cons, sizeIndices_cons]
  simp only [List.map_cons, map_add_map_add]
  simp only [List.append_cancel_left_eq, List.cons.injEq]
  exact ⟨by omega, map_add_congr _ (by omega)⟩

theorem insertAt_zero (l : List Int) (sz : Int) : insertAt l 0 sz = sz :: l.map (· + (sz + 1)) := by
  apply List.ext_getElem (by simp [insertAt])
  intro j h₁ h₂
  cases j with
  | zero => simp [insertAt]
  | succ j =>
    have hj : j < l.length := by simp only [List.length_map, List.length_cons] at h₂; omega
    simp [insertAt, List.getElem?_eq_getElem hj]
    omega

theorem insertAt_succ (l : List Int) (i : Nat) (sz : Int) (hi : i < l.length) :
    insertAt l (i + 1) sz = l.take (i + 1) ++ (l.drop i).map (· + (sz + 1)) := by
  apply List.ext_getElem (by simp [insertAt]; omega)
  intro j h₁ h₂
  simp only [insertAt, List.getElem_map, List.getElem_range]
  have hj : j < l.length + 1 := by simpa [insertAt] using h₁
  have hlen : (l.take (i + 1)).length = i + 1 := List.length_take_of_le (by omega)
  by_cases hij : i + 1 ≤ j
  · -- the entries from `index` on: one further on, plus `sz + 1`
    rw [List.getElem_append_right (by omega), List.getElem_map, List.getElem_drop,
      if_pos ⟨hij, by omega⟩, List.getD_eq_getElem _ _ (by omega)]
    simp only [hlen, show i + (j - (i + 1)) = j - 1 by omega]
    omega
  · rw [List.getElem_append_left (by omega), List.getElem_take, if_neg (by omega), if_neg (by omega),
      List.getD_eq_getElem _ _ (by omega)]

theorem split_eq (l : List Int) (i : Nat) (b : Int) (hi : i < l.length) :
    split l i b = l.take i ++ (l[i] - (1 + b)) :: l.drop i := by
  have hsplit : l.take (i + 1) ++ l.drop i = l.take i ++ l[i] :: l.drop i := by
    rw [List.take_succ_eq_append_getElem hi, List.append_assoc, List.singleton_append]
  have hlen : (l.take i).length = i := List.length_take_of_le (by omega)
  simp only [split, insertAt_succ l i (-1) hi, show (-1 : Int) + 1 = 0 from rfl, Int.add_zero,
    List.map_id', hsplit]
  rw [List.getD_append_right _ _ _ _ (Nat.le_of_eq hlen), hlen, Nat.sub_self, List.getD_cons_zero,
    List.set_append_right _ _ (Nat.le_of_eq hlen), hlen, Nat.sub_self, List.set_cons_zero]

/-- Splitting child `S.length` into sizes `s - 1 - b` and `b`. -/
theorem split_sizeIndices (S T : List Int) (s b : Int) :
    split (sizeIndices (S ++ s :: T)) S.length b = sizeIndices (S ++ (s - 1 - b) :: b :: T) := by
  have hget := getD_sizeIndices S T s
  rw [List.getD_eq_getElem _ _ (by simp)] at hget
  rw [split_eq _ _ _ (by simp), hget, sizeIndices_append, sizeIndices_append, ← length_sizeIndices S,
    List.take_left, List.drop_left, sizeIndices_cons, sizeIndices_cons, sizeIndices_cons]
  simp only [List.map_cons, map_add_map_add, List.append_cancel_left_eq, List.cons.injEq]
  exact ⟨by omega, by omega, map_add_congr _ (by omega)⟩

theorem merge_eq (l : List Int) (i : Nat) (hi : i < l.length) : merge l i = l.eraseIdx i := by
  apply List.ext_getElem (by simp [merge, List.length_eraseIdx_of_lt hi])
  intro j h₁ h₂
  simp only [merge, List.getElem_map, List.getElem_range, List.getElem_eraseIdx]
  have hj : j + 1 < l.length := by simp [merge] at h₁; omega
  by_cases hij : i ≤ j
  · rw [if_pos hij, dif_neg (by omega), List.getD_eq_getElem _ _ hj]
  · rw [if_neg hij, dif_pos (by omega), List.getD_eq_getElem _ _ (by omega)]

/-- Merging children `S.length` and `S.length + 1` with the separator between them. -/
theorem merge_sizeIndices (S T : List Int) (a b : Int) :
    merge (sizeIndices (S ++ a :: b :: T)) S.length = sizeIndices (S ++ (a + 1 + b) :: T) := by
  rw [merge_eq _ _ (by simp), sizeIndices_append, sizeIndices_append, ← length_sizeIndices S,
    List.eraseIdx_append_of_length_le (Nat.le_refl _), Nat.sub_self, sizeIndices_cons, sizeIndices_cons,
    sizeIndices_cons]
  simp only [List.map_cons, map_add_map_add, List.eraseIdx_cons_zero, List.append_cancel_left_eq,
    List.cons.injEq]
  exact ⟨by omega, map_add_congr _ (by omega)⟩

/-- Removing the first child, of size `t`. -/
theorem removeAt_zero_sizeIndices (t : Int) (S : List Int) :
    removeAt (sizeIndices (t :: S)) 0 = (sizeIndices S, t) := by
  have hsz : (sizeIndices (t :: S)).getD 0 0 = t := by simp [sizeIndices_cons]
  simp only [removeAt, Nat.lt_irrefl, if_false, hsz, Prod.mk.injEq, and_true]
  apply List.ext_getElem (by simp)
  intro j h₁ h₂
  have hj : j < ((sizeIndices S).map (· + (t + 1))).length := by simpa using h₂
  rw [List.getElem_map, List.getElem_range, if_pos (Nat.zero_le _), sizeIndices_cons, List.getD_cons_succ,
    List.getD_eq_getElem _ _ hj, List.getElem_map]
  omega

/-- Removing the last child, of size `t`. -/
theorem pop_sizeIndices (S : List Int) (t : Int) : pop (sizeIndices (S ++ [t])) = (sizeIndices S, t) := by
  have hlen : (sizeIndices (S ++ [t])).length = S.length + 1 := by simp
  have hlast := getD_sizeIndices S [] t
  unfold pop
  simp only [hlen, Nat.add_sub_cancel, Prod.mk.injEq, hlast]
  refine ⟨by rw [sizeIndices_append, ← length_sizeIndices S, List.take_left], ?_⟩
  rcases List.eq_nil_or_concat S with rfl | ⟨S', s', rfl⟩
  · simp
  · have hprev := getD_sizeIndices S' [t] s'
    rw [List.concat_eq_append, List.append_assoc, List.singleton_append, if_pos (by simp),
      show (S' ++ [s']).length + 1 - 2 = S'.length by simp, hprev]
    simp only [List.sum_append, List.sum_singleton, List.length_append, List.length_singleton]
    omega

/-- Appending a last child of size `t`. -/
theorem push_sizeIndices (S : List Int) (t : Int) : push (sizeIndices S) t = sizeIndices (S ++ [t]) := by
  rcases List.eq_nil_or_concat S with rfl | ⟨S', s', rfl⟩
  · rfl
  · rw [List.concat_eq_append]
    simp only [push, getLast?_sizeIndices]
    rw [sizeIndices_append (S' ++ [s']) [t]]
    simp only [List.sum_append, List.sum_singleton, List.length_append, List.length_singleton]
    rw [show sizeIndices [t] = [t] from rfl, List.map_singleton]
    congr 2
    push_cast
    omega

/-- The pushes of a merge: the merged child's ranks run on over the children
it takes over. -/
theorem foldl_push_sizeIndices {β : Type*} (f : β → Int) :
    ∀ (D : List β) (S : List Int),
      D.foldl (fun ix d => push ix (f d)) (sizeIndices S) = sizeIndices (S ++ D.map f)
  | [], S => by simp
  | d :: D, S => by
    rw [List.foldl_cons, push_sizeIndices, foldl_push_sizeIndices f D, List.map_cons, List.append_assoc,
      List.singleton_append]

/-- Moving `d` of size from child `S.length + 1` to child `S.length`. -/
theorem set_add_sizeIndices (S T : List Int) (a b d : Int) :
    (sizeIndices (S ++ a :: b :: T)).set S.length ((sizeIndices (S ++ a :: b :: T)).getD S.length 0 + d) =
      sizeIndices (S ++ (a + d) :: (b - d) :: T) := by
  rw [getD_sizeIndices, sizeIndices_append, sizeIndices_append, ← length_sizeIndices S,
    List.set_append_right _ _ (Nat.le_refl _), Nat.sub_self]
  simp only [sizeIndices_cons, List.map_cons, List.set_cons_zero, map_add_map_add, List.append_cancel_left_eq,
    List.cons.injEq]
  exact ⟨by omega, by omega, map_add_congr _ (by omega)⟩

/-- Moving `d` of size from child `S.length` to child `S.length + 1`. -/
theorem set_sub_sizeIndices (S T : List Int) (a b d : Int) :
    (sizeIndices (S ++ a :: b :: T)).set S.length ((sizeIndices (S ++ a :: b :: T)).getD S.length 0 - d) =
      sizeIndices (S ++ (a - d) :: (b + d) :: T) := by
  have h := set_add_sizeIndices S T a b (-d)
  rwa [← Int.sub_eq_add_neg, ← Int.sub_eq_add_neg, Int.sub_neg] at h

end Indices

theorem nonneg_of_mem_sizeIndices : ∀ {ss : List Int}, (∀ x ∈ ss, 0 ≤ x) → ∀ y ∈ sizeIndices ss, 0 ≤ y
  | [], _, y, hy => by simp [sizeIndices] at hy
  | s :: ss, h, y, hy => by
    rw [sizeIndices_cons, List.mem_cons, List.mem_map] at hy
    rcases hy with rfl | ⟨x, hx, rfl⟩
    · exact h _ List.mem_cons_self
    · have := nonneg_of_mem_sizeIndices (fun x hx => h x (List.mem_cons_of_mem _ hx)) x hx
      have := h s List.mem_cons_self
      omega

/-- With sizes that are not negative the ranks strictly increase. -/
theorem pairwise_sizeIndices : ∀ {ss : List Int}, (∀ x ∈ ss, 0 ≤ x) → (sizeIndices ss).Pairwise (· < ·)
  | [], _ => by simp [sizeIndices]
  | s :: ss, h => by
    have hss : ∀ x ∈ ss, 0 ≤ x := fun x hx => h x (List.mem_cons_of_mem _ hx)
    rw [sizeIndices_cons, List.pairwise_cons, List.pairwise_map]
    refine ⟨fun y hy => ?_, (pairwise_sizeIndices hss).imp fun hab => by omega⟩
    obtain ⟨x, hx, rfl⟩ := List.mem_map.mp hy
    have := nonneg_of_mem_sizeIndices hss x hx
    omega

namespace Indices

/-- `find` on the ranks, for `k` below the size of the subtree, stops at the
child whose range of ranks, with the separator after it, holds `k`. -/
theorem find_sizeIndices {ss : List Int} {k : Int} (hnn : ∀ x ∈ ss, 0 ≤ x) (hk : 0 ≤ k)
    (hlt : k < ss.sum + ss.length - 1) :
    ∃ S s T, ss = S ++ s :: T ∧ find (sizeIndices ss) k = (S.length, decide (S.sum + S.length + s = k)) ∧
      S.sum + S.length ≤ k ∧ k ≤ S.sum + S.length + s := by
  have hpair : (sizeIndices ss).Pairwise fun a b => decide (k ≤ a) = true → decide (k ≤ b) = true :=
    (pairwise_sizeIndices hnn).imp fun hab h => by simp only [decide_eq_true_eq] at h ⊢; omega
  obtain ⟨hbelow, habove⟩ := BinarySearch.search_take_drop (sizeIndices ss) 0 hpair
  set i := BinarySearch.search (sizeIndices ss).length fun j => decide (k ≤ (sizeIndices ss).getD j 0)
  -- the last rank is the size of the subtree, above `k`, so the search stops inside
  have hi : i < ss.length := by
    rcases List.eq_nil_or_concat ss with rfl | ⟨S, t, rfl⟩
    · simp at hlt; omega
    · refine Nat.lt_of_not_le fun hge => ?_
      have hmem : (S.sum + S.length + t) ∈ (sizeIndices (S.concat t)).take i := by
        rw [List.take_of_length_le (by simpa using hge), List.concat_eq_append]
        exact List.mem_of_getLast? (getLast?_sizeIndices S t)
      have := hbelow _ hmem
      simp only [List.concat_eq_append, List.sum_append, List.sum_singleton, List.length_append,
        List.length_singleton] at hlt
      simp only [decide_eq_false_iff_not] at this
      omega
  have hsplit : ss = ss.take i ++ ss[i] :: ss.drop (i + 1) := by simp
  have hlen : (ss.take i).length = i := List.length_take_of_le (by omega)
  have hget : (sizeIndices ss).getD i 0 = (ss.take i).sum + (ss.take i).length + ss[i] := by
    have := getD_sizeIndices (ss.take i) (ss.drop (i + 1)) ss[i]
    rw [hlen, ← hsplit] at this
    rwa [hlen]
  have htake : (sizeIndices ss).take i = sizeIndices (ss.take i) := by
    conv_lhs => rw [hsplit, sizeIndices_append]
    exact List.take_left' (by rw [length_sizeIndices, hlen])
  refine ⟨ss.take i, ss[i], ss.drop (i + 1), hsplit, ?_, ?_, ?_⟩
  · show (i, decide ((sizeIndices ss).getD i 0 = k)) = _
    rw [hget, hlen]
  · -- every rank before the cut is below `k`, the last of them too
    rcases List.eq_nil_or_concat (ss.take i) with hS | ⟨S, u, hS⟩
    · simp [hS, hk]
    · rw [List.concat_eq_append] at hS
      have hmem : S.sum + S.length + u ∈ (sizeIndices ss).take i := by
        rw [htake, hS]
        exact List.mem_of_getLast? (getLast?_sizeIndices S u)
      have := hbelow _ hmem
      simp only [decide_eq_false_iff_not] at this
      simp only [hS, List.sum_append, List.sum_singleton, List.length_append, List.length_singleton]
      omega
  · -- the rank at the cut is at least `k`
    have hi' : i < (sizeIndices ss).length := by simpa using hi
    have hmem : (sizeIndices ss)[i] ∈ (sizeIndices ss).drop i := by
      rw [List.drop_eq_getElem_cons hi']
      exact List.mem_cons_self
    have := habove _ hmem
    rw [← List.getD_eq_getElem _ 0 hi', hget] at this
    simpa using this

end Indices
end MatrixCube.Prophet.Btree
