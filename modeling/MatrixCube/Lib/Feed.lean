import Mathlib

/-! # A callback fed the items of a list until it says stop

Iteration functions that take a callback call it on item after item and stop
at the first `false`. With the callback a step on its own state, `feed` is
what such an iteration does: the state at the end, and whether the walk ran to
the end of the list. A walk over a list cut in two is the walk over the first
part, then, when that ran to its end, the walk over the second (`feed_append`);
items the step passes over leave no trace (`feed_filter`), and a step that
stops at the first item of a kind, on a list where that kind comes last, walks
the items before it (`feed_stopWhen`).
-/

namespace List

variable {α β γ : Type*}

/-- The walk of `step` over a list: the state at the end, and whether no step
asked to stop. -/
def feed (step : β → α → β × Bool) : List α → β → β × Bool
  | [], b => (b, true)
  | x :: xs, b =>
    match step b x with
    | (b, true) => feed step xs b
    | (b, false) => (b, false)

variable {step : β → α → β × Bool}

@[simp] theorem feed_nil (b : β) : feed step [] b = (b, true) := rfl

theorem feed_cons (x : α) (xs : List α) (b : β) :
    feed step (x :: xs) b = if (step b x).2 then feed step xs (step b x).1 else ((step b x).1, false) := by
  rw [feed]
  split <;> simp_all

theorem feed_append (l₁ l₂ : List α) (b : β) :
    feed step (l₁ ++ l₂) b =
      if (feed step l₁ b).2 then feed step l₂ (feed step l₁ b).1 else feed step l₁ b := by
  induction l₁ generalizing b with
  | nil => simp
  | cons x l₁ ih =>
    rw [cons_append, feed_cons, feed_cons]
    by_cases hgo : (step b x).2
    · rw [if_pos hgo, if_pos hgo, ih]
    · simp [hgo]

/-- A walk that ran over the first part of a list goes on from its state. -/
theorem feed_append_of_go {l₁ : List α} (l₂ : List α) {b : β} (h : (feed step l₁ b).2 = true) :
    feed step (l₁ ++ l₂) b = feed step l₂ (feed step l₁ b).1 := by
  rw [feed_append, if_pos h]

/-- Items the step passes over at every state are as good as absent. -/
theorem feed_filter (p : α → Bool) {l : List α} (hpass : ∀ x ∈ l, p x = false → ∀ b, step b x = (b, true))
    (b : β) : feed step l b = feed step (l.filter p) b := by
  induction l generalizing b with
  | nil => rfl
  | cons x l ih =>
    have ih' := ih fun y hy => hpass y (mem_cons_of_mem x hy)
    cases hp : p x with
    | false =>
      rw [filter_cons_of_neg (by simp [hp]), feed_cons, hpass x mem_cons_self hp b, if_pos rfl, ih']
    | true =>
      rw [filter_cons_of_pos hp, feed_cons, feed_cons, ih']

/-- A walk over items that are all passed over changes nothing. -/
theorem feed_of_pass {l : List α} (hpass : ∀ x ∈ l, ∀ b, step b x = (b, true)) (b : β) :
    feed step l b = (b, true) := by
  rw [feed_filter (fun _ => false) fun x hx _ => hpass x hx, filter_false, feed_nil]

/-- A walk goes through a first part whose items are all passed over as if it
were not there. -/
theorem feed_append_of_pass {l₁ : List α} (hpass : ∀ x ∈ l₁, ∀ b, step b x = (b, true)) (l₂ : List α)
    (b : β) :
    feed step (l₁ ++ l₂) b = feed step l₂ b := by
  rw [feed_append_of_go _ (by rw [feed_of_pass hpass]), feed_of_pass hpass]

/-- A walk seen through a map of its states: when each step commutes with the
map, so does the walk. -/
theorem feed_map {step' : γ → α → γ × Bool} (f : β → γ) {l : List α}
    (hf : ∀ x ∈ l, ∀ b, f (step b x).1 = (step' (f b) x).1 ∧ (step b x).2 = (step' (f b) x).2) (b : β) :
    f (feed step l b).1 = (feed step' l (f b)).1 ∧ (feed step l b).2 = (feed step' l (f b)).2 := by
  induction l generalizing b with
  | nil => simp
  | cons x l ih =>
    obtain ⟨h1, h2⟩ := hf x mem_cons_self b
    rw [feed_cons, feed_cons, ← h1, ← h2]
    split_ifs
    · exact ih (fun y hy => hf y (mem_cons_of_mem x hy)) _
    · exact ⟨rfl, rfl⟩

/-- The step that stops, keeping its state, at the items `p` holds of. -/
def stopWhen (p : α → Bool) (step : β → α → β × Bool) (b : β) (x : α) : β × Bool :=
  if p x then (b, false) else step b x

/-- Along a list on which `p`, once it holds, holds on, the walk that stops
where `p` first holds ends as the walk over the items before. -/
theorem feed_stopWhen (p : α → Bool) :
    ∀ {l : List α}, l.Pairwise (fun a b => p a → p b) → ∀ b : β,
      (feed (stopWhen p step) l b).1 = (feed step (l.filter fun x => !p x) b).1
  | [], _, _ => rfl
  | x :: l, h, b => by
    by_cases hx : p x = true
    · -- every later item stops too
      have hrest : l.filter (fun y => !p y) = [] :=
        filter_eq_nil_iff.mpr fun y hy => by simp [rel_of_pairwise_cons h hy hx]
      simp [feed_cons, stopWhen, hx, hrest]
    · rw [filter_cons_of_pos (by simpa using hx), feed_cons, feed_cons, stopWhen, if_neg hx]
      split_ifs
      · exact feed_stopWhen p h.of_cons _
      · rfl

/-! ## Callbacks that collect -/

/-- A walk that keeps the first item and stops ends with the head of the list. -/
theorem feed_head (l : List α) : (feed (fun _ x => (some x, false)) l none).1 = l.head? := by
  cases l <;> rfl

/-- A walk that passes over the items `p` holds of and keeps the first other
one, stopping there, ends with that item. -/
theorem feed_find_first (p : α → Bool) :
    ∀ l : List α, (feed (fun b x => if p x then (b, true) else (some x, false)) l none).1 = l.find? fun x => !p x
  | [] => rfl
  | x :: l => by
    by_cases hx : p x = true
    · simp [feed_cons, hx, feed_find_first p l]
    · simp [feed_cons, hx]

/-- A walk that appends the items to its state until `q` holds of one ends
with the items before it. -/
theorem feed_takeWhile (q : α → Bool) :
    ∀ (l acc : List α), (feed (fun acc x => if q x then (acc, false) else (acc ++ [x], true)) l acc).1 =
      acc ++ l.takeWhile fun x => !q x
  | [], acc => by simp
  | x :: l, acc => by
    by_cases hx : q x = true
    · simp [feed_cons, hx]
    · simp [feed_cons, hx, feed_takeWhile q l]

end List
