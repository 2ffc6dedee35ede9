import Mathlib

/-! # Binary search over an upward-closed predicate

Go's `sort.Search(n, f)` bisects `[0, n)` for the least index at which `f`
holds, for an `f` that is false and then true on that range, and returns `n`
when `f` holds nowhere. Every round shrinks `[i, j)`, so `n` rounds always
suffice, and the model runs the loop on that fuel.

Over a list, with `f` reading the element at the index, the index found cuts
the list into a prefix on which the predicate fails and a suffix on which it
holds. The callers use that cut to insert before the first larger element of
a sorted list, or to find the last element at or below a key.
-/

namespace BinarySearch

/-- The loop of `sort.Search` on `[i, j)`, for at most `fuel` rounds. -/
def searchLoop (f : Nat → Bool) : Nat → Nat → Nat → Nat
  | 0, i, _ => i
  | fuel + 1, i, j =>
    if i < j then
      let h := (i + j) / 2
      if !f h then searchLoop f fuel (h + 1) j else searchLoop f fuel i h
    else i

/-- `sort.Search`. -/
def search (n : Nat) (f : Nat → Bool) : Nat :=
  searchLoop f n 0 n

/-- `f` is false and then true on `[0, n)`. -/
def UpwardClosed (n : Nat) (f : Nat → Bool) : Prop :=
  ∀ a b, a ≤ b → b < n → f a = true → f b = true

/-- The loop invariant: `[i, j)` lies in `[0, n)`, `f` fails below `i` and
holds from `j` on. -/
def Inv (n : Nat) (f : Nat → Bool) (i j : Nat) : Prop :=
  i ≤ j ∧ j ≤ n ∧ (∀ m, m < i → f m = false) ∧ (∀ m, j ≤ m → m < n → f m = true)

section
variable {n : Nat} {f : Nat → Bool}

theorem inv_init : Inv n f 0 n :=
  ⟨Nat.zero_le _, Nat.le_refl n, fun _ h => absurd h (Nat.not_lt_zero _), fun _ h h' => absurd h' (by omega)⟩

/-- Where `f` fails at the midpoint, it fails below it too. -/
theorem Inv.step_false (hf : UpwardClosed n f) {i j : Nat} (h : Inv n f i j) (hij : i < j)
    (hm : f ((i + j) / 2) = false) : Inv n f ((i + j) / 2 + 1) j := by
  obtain ⟨_, hj, hlow, hhigh⟩ := h
  refine ⟨by omega, hj, fun m hm' => ?_, hhigh⟩
  cases hfm : f m with
  | false => rfl
  | true => rw [hf m _ (by omega) (by omega) hfm] at hm; cases hm

/-- Where `f` holds at the midpoint, it holds above it too. -/
theorem Inv.step_true (hf : UpwardClosed n f) {i j : Nat} (h : Inv n f i j) (hij : i < j)
    (hm : f ((i + j) / 2) = true) : Inv n f i ((i + j) / 2) := by
  obtain ⟨_, hj, hlow, hhigh⟩ := h
  exact ⟨by omega, by omega, hlow, fun m hm' hmn => hf _ m hm' hmn hm⟩

/-- With fuel for `j - i` rounds the loop closes `[i, j)` at the cut. -/
theorem searchLoop_inv (hf : UpwardClosed n f) (fuel i j : Nat) (h : Inv n f i j)
    (hfuel : j - i ≤ fuel) : Inv n f (searchLoop f fuel i j) (searchLoop f fuel i j) := by
  fun_induction searchLoop f fuel i j with
  | case1 i j =>
    have hji : j = i := by have := h.1; omega
    subst hji
    exact h
  | case2 fuel i j hij h' hm ih =>
    have hm : f h' = false := by simpa using hm
    exact ih (h.step_false hf hij hm) (by omega)
  | case3 fuel i j hij h' hm ih =>
    have hm : f h' = true := by simpa using hm
    exact ih (h.step_true hf hij hm) (by omega)
  | case4 fuel i j hij =>
    have hji : j = i := by have := h.1; omega
    subst hji
    exact h

/-- `sort.Search` returns the cut: `f` fails below it and holds from it on. -/
theorem search_inv (hf : UpwardClosed n f) : Inv n f (search n f) (search n f) :=
  searchLoop_inv hf n 0 n inv_init (by omega)

end

section List
variable {α : Type*}

/-- A predicate that carries over from each element to every later one is
upward closed on the indices. -/
theorem upwardClosed_of_pairwise (l : List α) (d : α) {p : α → Bool}
    (hl : l.Pairwise fun a b => p a = true → p b = true) :
    UpwardClosed l.length fun i => p (l.getD i d) := by
  intro a b hab hb ha
  dsimp only at ha ⊢
  rw [List.getD_eq_getElem _ _ (by omega)] at ha ⊢
  rcases Nat.lt_or_eq_of_le hab with hlt | rfl
  · exact List.pairwise_iff_getElem.mp hl a b (by omega) hb hlt ha
  · exact ha

/-- `sort.Search` over a list cuts it into a prefix on which `p` fails and a
suffix on which it holds. -/
theorem search_take_drop (l : List α) (d : α) {p : α → Bool}
    (hl : l.Pairwise fun a b => p a = true → p b = true) :
    (∀ x ∈ l.take (search l.length fun i => p (l.getD i d)), p x = false) ∧
      ∀ x ∈ l.drop (search l.length fun i => p (l.getD i d)), p x = true := by
  obtain ⟨_, hk, hlow, hhigh⟩ := search_inv (upwardClosed_of_pairwise l d hl)
  constructor
  · intro x hx
    obtain ⟨m, hm, rfl⟩ := List.mem_iff_getElem.mp hx
    have hm' : m < search l.length (fun i => p (l.getD i d)) := by
      simp only [List.length_take] at hm; omega
    have := hlow m hm'
    dsimp only at this
    rw [List.getElem_take]
    rwa [List.getD_eq_getElem _ _ (by simp only [List.length_take] at hm; omega)] at this
  · intro x hx
    obtain ⟨m, hm, rfl⟩ := List.mem_iff_getElem.mp hx
    simp only [List.length_drop] at hm
    have := hhigh _ (Nat.le_add_right _ m) (by omega)
    dsimp only at this
    rwa [List.getD_eq_getElem _ _ (by omega), ← List.getElem_drop] at this

/-- Inserting `x` between a prefix below it and a suffix above it keeps a
strictly sorted list sorted. -/
theorem pairwise_insert_between {K : Type*} [Preorder K] {key : α → K} {A B : List α} {x : α}
    (hl : (A ++ B).Pairwise fun a b => key a < key b) (hA : ∀ a ∈ A, key a < key x)
    (hB : ∀ b ∈ B, key x < key b) : (A ++ x :: B).Pairwise fun a b => key a < key b := by
  rw [List.pairwise_append] at hl ⊢
  obtain ⟨hAs, hBs, hAB⟩ := hl
  refine ⟨hAs, List.pairwise_cons.mpr ⟨hB, hBs⟩, fun a ha b hb => ?_⟩
  rcases List.mem_cons.mp hb with rfl | hb
  · exact hA a ha
  · exact hAB a ha b hb

end List

end BinarySearch
