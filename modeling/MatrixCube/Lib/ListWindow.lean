import Mathlib

/-! # A list seen at one position

Code that works on one slot of an array (read it, overwrite it, insert after
it, remove it) is easiest to reason about with the list split at that slot,
`A ++ c :: B` with the slot at `A.length`. These lemmas read each indexed
operation off that view. A list of keys compared lexicographically is read
the same way, at its head, and a list split into runs (`splitBy`) at its last
element.
-/

namespace List

variable {α : Type*}

theorem getD_append_length (A B : List α) (c d : α) : (A ++ c :: B).getD A.length d = c := by
  rw [getD_append_right _ _ _ _ (Nat.le_refl _), Nat.sub_self, getD_cons_zero]

theorem set_append_length (A B : List α) (c c' : α) : (A ++ c :: B).set A.length c' = A ++ c' :: B := by
  rw [set_append_right _ _ (Nat.le_refl _), Nat.sub_self, set_cons_zero]

theorem insertIdx_append_length (A B : List α) (c : α) : (A ++ B).insertIdx A.length c = A ++ c :: B := by
  induction A with
  | nil => rfl
  | cons a A ih => rw [cons_append, length_cons, insertIdx_succ_cons, ih, cons_append]

theorem eraseIdx_append_length (A B : List α) (c : α) : (A ++ c :: B).eraseIdx A.length = A ++ B := by
  rw [eraseIdx_append_of_length_le (Nat.le_refl _), Nat.sub_self, eraseIdx_cons_zero]

/-- Every position inside a list splits it there. -/
theorem exists_append_cons_of_lt {l : List α} {i : Nat} (h : i < l.length) :
    ∃ A c B, l = A ++ c :: B ∧ A.length = i :=
  ⟨l.take i, l[i], l.drop (i + 1), by simp, length_take_of_le (Nat.le_of_lt h)⟩

theorem take_add_one_set {l : List α} {i : Nat} (x : α) (h : i < l.length) :
    (l.set i x).take (i + 1) = l.take i ++ [x] := by
  rw [take_add_one, take_set, set_eq_of_length_le (by rw [length_take]; exact Nat.min_le_left _ _)]
  simp [h]

/-- Apply `f` to the first element that satisfies `p`: the loop that updates
the first matching slot and breaks. `none` when no element matches. -/
def updateFirst (p : α → Bool) (f : α → α) : List α → Option (List α)
  | [] => none
  | c :: l => if p c then some (f c :: l) else (updateFirst p f l).map (c :: ·)

variable {p : α → Bool} {f : α → α}

theorem updateFirst_append_cons {A : List α} {c : α} (B : List α) (hA : ∀ a ∈ A, p a = false)
    (hc : p c = true) : updateFirst p f (A ++ c :: B) = some (A ++ f c :: B) := by
  induction A with
  | nil => simp [updateFirst, hc]
  | cons a A ih =>
    have ha : p a = false := hA a mem_cons_self
    simp [updateFirst, ha, ih fun x hx => hA x (mem_cons_of_mem a hx)]

/-- An update seen at its slot: the elements before it do not match. -/
theorem updateFirst_eq_some {l l' : List α} (h : updateFirst p f l = some l') :
    ∃ A c B, l = A ++ c :: B ∧ (∀ a ∈ A, p a = false) ∧ p c = true ∧ l' = A ++ f c :: B := by
  induction l generalizing l' with
  | nil => cases h
  | cons c l ih =>
    unfold updateFirst at h
    by_cases hc : p c = true
    · -- the head matches
      rw [if_pos hc, Option.some.injEq] at h
      exact ⟨[], c, l, rfl, by simp, hc, h.symm⟩
    · -- the update is in the tail
      rw [if_neg hc] at h
      obtain ⟨l₁, h₁, rfl⟩ := Option.map_eq_some_iff.mp h
      obtain ⟨A, c', B, rfl, hA, hc', rfl⟩ := ih h₁
      refine ⟨c :: A, c', B, rfl, ?_, hc', rfl⟩
      simpa [hc] using hA

/-- The lexicographic order of `Mathlib`'s linear order on lists, at the
heads. -/
theorem lex_cons_le_cons_iff {β : Type*} [LinearOrder β] {a b : β} {l l' : List β} :
    a :: l ≤ b :: l' ↔ a < b ∨ a = b ∧ l ≤ l' := by
  rw [← not_lt, cons_lt_cons_iff]
  constructor
  · intro h
    rcases lt_trichotomy a b with hab | rfl | hab
    · exact .inl hab
    · exact .inr ⟨rfl, not_lt.mp fun hl => h (.inr ⟨rfl, hl⟩)⟩
    · exact absurd (.inl hab) h
  · rintro (hab | ⟨rfl, hl⟩) (hba | ⟨hba, hl'⟩)
    · exact lt_asymm hab hba
    · exact lt_irrefl _ (hba ▸ hab)
    · exact lt_irrefl _ hba
    · exact not_lt.mpr hl hl'

/-- An element related to the last one joins the last run. -/
theorem splitBy_concat_of_rel {r : α → α → Bool} {l last : List α} {init : List (List α)} {a : α}
    (hs : l.splitBy r = init ++ [last]) (h : ∀ x ∈ l.getLast?, r x a = true) :
    (l ++ [a]).splitBy r = init ++ [last ++ [a]] := by
  obtain ⟨hflat, hnil, hchain, hadj⟩ := splitBy_eq_iff.mp hs
  have hlast : last ≠ [] := fun h => hnil (by simp [h])
  have hgetLast : l.getLast? = last.getLast? := by
    rw [hflat, flatten_append, flatten_singleton, getLast?_append_of_ne_nil _ hlast]
  rw [isChain_append] at hadj
  rw [splitBy_eq_iff]
  refine ⟨by rw [hflat]; simp, ?_, ?_, ?_⟩
  · simp only [mem_append, mem_singleton, not_or] at hnil ⊢
    exact ⟨hnil.1, by simp⟩
  · intro m hm
    rcases mem_append.mp hm with hm | hm
    · exact hchain m (mem_append_left _ hm)
    · rw [mem_singleton.mp hm, isChain_append]
      refine ⟨hchain last (by simp), isChain_singleton a, fun x hx y hy => ?_⟩
      rw [← hgetLast] at hx
      rw [head?_cons, Option.mem_some_iff] at hy
      exact hy ▸ h x hx
  · rw [isChain_append]
    refine ⟨hadj.1, isChain_singleton _, fun x hx y hy => ?_⟩
    rw [head?_cons, Option.mem_some_iff] at hy
    subst hy
    obtain ⟨hx', hy', hrel⟩ := hadj.2.2 x hx last (by simp)
    exact ⟨hx', by simp, by rwa [head_append_of_ne_nil]⟩

/-- An element unrelated to the last one starts a run of its own. -/
theorem splitBy_concat_of_not_rel {r : α → α → Bool} {l : List α} {a : α}
    (h : ∀ x ∈ l.getLast?, r x a = false) : (l ++ [a]).splitBy r = l.splitBy r ++ [[a]] := by
  rw [splitBy_append fun x hx y hy => by rw [head?_cons, Option.mem_some_iff] at hy; exact hy ▸ h x hx]
  rfl

end List
