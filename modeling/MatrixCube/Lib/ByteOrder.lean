import Mathlib

/-! # Byte strings under lexicographic order

Byte strings are lists of `UInt8`, ordered as `bytes.Compare` orders them: the
first differing byte decides, and a proper prefix comes first. Core Lean gives
`List UInt8` this `<` and `≤` (`List.lt`, `List.le`) together with the lemmas
of `Init.Data.List.Lex`; Mathlib has no linear order on `UInt8`, so the bundled
`LinearOrder` below is assembled from the core lemmas, with core's `<` and `≤`
as its fields so that both views agree definitionally.
-/

/-- A byte string. -/
abbrev Bytes := List UInt8

namespace ByteOrder

instance instLinearOrderBytes : LinearOrder Bytes where
  le_refl := List.le_refl
  le_trans := fun _ _ _ => List.le_trans
  lt_iff_le_not_ge := fun _ _ => by
    constructor
    · intro h
      exact ⟨List.le_of_lt h, List.not_le.mpr h⟩
    · intro ⟨_, h⟩
      exact List.not_le.mp h
  le_antisymm := fun _ _ => List.le_antisymm
  le_total := List.le_total
  toDecidableLE := inferInstance
  toDecidableLT := inferInstance
  compare a b := compareOfLessAndEq a b
  compare_eq_compareOfLessAndEq _ _ := rfl

/-- The empty string is the least byte string. -/
@[simp] theorem nil_le (k : Bytes) : ([] : Bytes) ≤ k := List.nil_le k

theorem nil_lt_iff {k : Bytes} : ([] : Bytes) < k ↔ k ≠ [] := by
  cases k with
  | nil => simp
  | cons b k => simp

theorem ne_nil_of_lt {k k' : Bytes} (h : k < k') : k' ≠ [] :=
  nil_lt_iff.mp (lt_of_le_of_lt (nil_le k) h)

/-- A shared prefix does not change the comparison. -/
@[simp] theorem append_lt_append_iff (p a b : Bytes) : p ++ a < p ++ b ↔ a < b := by
  induction p with
  | nil => rfl
  | cons x p ih =>
      rw [List.cons_append, List.cons_append, List.cons_lt_cons_iff]
      simp [ih]

@[simp] theorem append_le_append_iff (p a b : Bytes) : p ++ a ≤ p ++ b ↔ a ≤ b := by
  rw [← not_lt, ← not_lt, append_lt_append_iff]

/-- A string between two strings of one first byte has that first byte, and
its tail lies between their tails. -/
theorem cons_between {p x : UInt8} {a b u : Bytes} (h1 : p :: a ≤ x :: u) (h2 : x :: u < p :: b) :
    x = p ∧ a ≤ u ∧ u < b := by
  rw [List.cons_le_cons_iff] at h1
  rw [List.cons_lt_cons_iff] at h2
  rcases h1 with h1 | ⟨rfl, h1⟩ <;> rcases h2 with h2 | ⟨h2, h2'⟩
  · exact absurd (UInt8.lt_trans h1 h2) (UInt8.lt_irrefl _)
  · exact absurd h1 (h2 ▸ UInt8.lt_irrefl _)
  · exact absurd h2 (UInt8.lt_irrefl _)
  · exact ⟨rfl, h1, h2'⟩

/-- Below a string of the same length, a string stays below whatever follows
each. -/
theorem append_lt_append_of_lt {u v : Bytes} (hlen : u.length = v.length) (h : u < v) (a b : Bytes) :
    u ++ a < v ++ b := by
  induction u generalizing v with
  | nil =>
    cases v with
    | nil => exact absurd h (List.lt_irrefl [])
    | cons _ _ => simp at hlen
  | cons x u ih =>
    cases v with
    | nil => simp at hlen
    | cons y v =>
      rw [List.cons_lt_cons_iff] at h
      rw [List.cons_append, List.cons_append, List.cons_lt_cons_iff]
      rcases h with h | ⟨rfl, h⟩
      · exact .inl h
      · exact .inr ⟨rfl, ih (by simpa using hlen) h⟩

/-- `x ++ [0]` is the least string above `x`: the successor a scan resumes at. -/
theorem lt_iff_append_zero_le (x k : Bytes) : x < k ↔ x ++ [0] ≤ k := by
  induction x generalizing k with
  | nil =>
    cases k with
    | nil => simp
    | cons b k =>
      simp only [List.nil_append, List.cons_le_cons_iff, nil_le, and_true]
      constructor
      · intro _
        rcases UInt8.lt_or_eq_of_le (UInt8.zero_le (a := b)) with h | h
        · exact .inl h
        · exact .inr h
      · intro _
        exact nil_lt_iff.mpr (List.cons_ne_nil b k)
  | cons a x ih =>
    cases k with
    | nil => simp
    | cons b k =>
      rw [List.cons_append, List.cons_lt_cons_iff, List.cons_le_cons_iff, ih]

/-! ## Prefixes -/

/-- Cutting both sides to the same length keeps a comparison weakly. -/
theorem take_le_take {c d : Bytes} (h : c ≤ d) : ∀ n, c.take n ≤ d.take n := by
  induction c generalizing d with
  | nil => simp
  | cons x c ih =>
      intro n
      cases d with
      | nil => exact absurd h (by simp)
      | cons y d =>
          cases n with
          | zero => simp
          | succ n =>
              simp only [List.take_succ_cons]
              rcases lt_or_eq_of_le h with h | h
              · rcases List.cons_lt_cons_iff.mp h with hxy | ⟨rfl, hcd⟩
                · exact le_of_lt (List.cons_lt_cons_iff.mpr (.inl hxy))
                · exact (List.cons_le_cons_iff).mpr (.inr ⟨rfl, ih (le_of_lt hcd) n⟩)
              · obtain ⟨rfl, rfl⟩ := List.cons.inj h
                exact le_rfl

/-- A string strictly between `p ++ a` and `p ++ b` starts with `p`. -/
theorem take_eq_of_between {p a b c : Bytes} (ha : p ++ a ≤ c) (hb : c ≤ p ++ b) :
    c.take p.length = p := by
  have h1 := take_le_take ha p.length
  have h2 := take_le_take hb p.length
  simp only [List.take_left'] at h1 h2
  exact le_antisymm h2 h1

/-- A string below `q` is below it already on `q`'s length. -/
theorem take_lt_of_lt {c q : Bytes} (h : c < q) : c.take q.length < q := by
  rcases lt_or_eq_of_le (take_le_take (le_of_lt h) q.length) with h' | h'
  · simpa using h'
  · have hpre : q ≤ c := by
      rw [List.take_length] at h'
      rw [← h']
      exact List.IsPrefix.le (List.take_prefix _ _)
    exact absurd h (not_lt.mpr hpre)

end ByteOrder
