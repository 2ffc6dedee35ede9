import Mathlib

/-! # Keeping the best candidate

Go loops that keep the best candidate seen so far, `best = better(best, next)`,
are left folds whose step returns the accumulator or the new candidate. The
comparison is often a list of scores tried in order: the first score on which
the two differ decides, the higher one wins, and on a tie in every score the
candidate already kept stays. Such a loop returns its initial value or one of
its candidates, so a property that all of them share holds of what it returns.
-/

namespace List

variable {α β : Type*}

/-- A property that the initial value has and that every step keeps holds
after the fold. -/
theorem foldl_invariant {P : β → Prop} {f : β → α → β} (l : List α) {b : β} (hb : P b)
    (hf : ∀ acc, ∀ x ∈ l, P acc → P (f acc x)) : P (l.foldl f b) := by
  induction l generalizing b with
  | nil => exact hb
  | cons x xs ih =>
    apply ih (hf b x mem_cons_self hb)
    intro acc y hy
    exact hf acc y (mem_cons_of_mem _ hy)

end List

namespace BestOf

variable {β γ : Type*} [LinearOrder γ]

/-- The better of `best` and `next` under `scores` tried in order: the first
score on which they differ decides, the higher one wins, and `best` stays on a
tie. -/
def prefer (scores : List (β → γ)) (best next : β) : β :=
  match scores with
  | [] => best
  | f :: fs => if f best > f next then best else if f best < f next then next else prefer fs best next

theorem prefer_eq_or (scores : List (β → γ)) (best next : β) :
    prefer scores best next = best ∨ prefer scores best next = next := by
  induction scores with
  | nil => exact .inl rfl
  | cons f fs ih =>
    unfold prefer
    split_ifs
    · exact .inl rfl
    · exact .inr rfl
    · exact ih

/-- What both candidates satisfy, the preferred one satisfies. -/
theorem prefer_of_both {P : β → Prop} (scores : List (β → γ)) {best next : β} (hb : P best)
    (hn : P next) : P (prefer scores best next) := by
  rcases prefer_eq_or scores best next with h | h <;> rw [h]
  · exact hb
  · exact hn

end BestOf
