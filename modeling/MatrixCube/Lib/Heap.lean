import Mathlib

/-! # Binary heaps kept behind an interface

A binary heap keeps its elements at positions `0, 1, …` so that no element is
less than the one at its parent position `(c - 1) / 2`. The algorithms that
keep it (`up`, `down`, and `push`, `pop`, `remove` and `fix` built on them)
reach the container only through an `Interface`: its length, the comparison and
the exchange of two positions, and adding or taking its last element.

An interface is `Lawful` when its operations do to the list of its elements what
they say, under a key into a linear order, while they keep an invariant of the
container's own (an index of positions, say). Over a lawful interface every
operation keeps the invariant, keeps the elements up to order, and restores the
heap order; the element at position `0` is then a least one (`Ordered.root`).
-/

namespace Heap

/-- The parent of position `c`. -/
def parent (c : Nat) : Nat := (c - 1) / 2

theorem parent_lt {c : Nat} (hc : 0 < c) : parent c < c := by
  unfold parent; omega

theorem parent_eq_iff {c i : Nat} (hc : 0 < c) : parent c = i ↔ c = 2 * i + 1 ∨ c = 2 * i + 2 := by
  unfold parent; omega

/-- What the heap functions ask of a container: its length, whether the
element at one position is less than the one at another, the exchange of two
positions, and adding or taking the last element. A comparison or an exchange
at a position out of range, and a take from an empty container, are `none`
(a panic). -/
structure Interface (σ α : Type*) where
  len : σ → Nat
  less : σ → Nat → Nat → Option Bool
  swap : σ → Nat → Nat → Option σ
  push : σ → α → σ
  pop : σ → Option (σ × α)

variable {σ α : Type*} (h : Interface σ α)

/-- `up`: the element at `j` moves towards the root while it is less than its
parent; `none` when `fuel` steps are not enough. -/
def up : Nat → σ → Nat → Option σ
  | 0, _, _ => none
  | fuel + 1, s, j =>
    let i := parent j
    if i = j then some s
    else (h.less s j i).bind fun lt => if !lt then some s else (h.swap s i j).bind fun s => up fuel s i

/-- The child of `i` that `down` compares with it: the right one when it lies
among the first `n` positions and is less than the left one. -/
def lesserChild (s : σ) (i n : Nat) : Option Nat :=
  if 2 * i + 2 < n then (h.less s (2 * i + 2) (2 * i + 1)).map fun lt => if lt then 2 * i + 2 else 2 * i + 1
  else some (2 * i + 1)

/-- The loop of `down` over the first `n` positions: the element at `i` moves
to its lesser child while that child is less than it; the state, and the
position the element reached, or `none` when `fuel` steps are not enough. -/
def downLoop : Nat → σ → Nat → Nat → Option (σ × Nat)
  | 0, _, _, _ => none
  | fuel + 1, s, i, n =>
    if n ≤ 2 * i + 1 then some (s, i)
    else (lesserChild h s i n).bind fun j => (h.less s j i).bind fun lt =>
      if !lt then some (s, i) else (h.swap s i j).bind fun s => downLoop fuel s j n

/-- `down`: the state, and whether the element left position `i0`. -/
def down (s : σ) (i0 n : Nat) : Option (σ × Bool) :=
  (downLoop h (h.len s) s i0 n).map fun r => (r.1, decide (i0 < r.2))

/-- `Push`. -/
def push (s : σ) (x : α) : Option σ :=
  let s := h.push s x
  up h (h.len s) s (h.len s - 1)

/-- `Pop`: the least element, after the last one takes its place. -/
def pop (s : σ) : Option (σ × α) :=
  let n := h.len s - 1
  (h.swap s 0 n).bind fun s => (down h s 0 n).bind fun r => h.pop r.1

/-- `down` over the first `n` positions and then, where the element did not
move, `up`: the common part of `Remove` and `Fix`. -/
def downUp (s : σ) (i n : Nat) : Option σ :=
  (down h s i n).bind fun r => if !r.2 then up h (h.len r.1) r.1 i else some r.1

/-- `Remove`: the element at position `i`, after the last one takes its place. -/
def remove (s : σ) (i : Nat) : Option (σ × α) :=
  let n := h.len s - 1
  if n ≠ i then ((h.swap s i n).bind fun s => downUp h s i n).bind h.pop else h.pop s

/-- `Fix`: the heap order restored after the element at `i` changed. -/
def fix (s : σ) (i : Nat) : Option σ := downUp h s i (h.len s)

/-! ## The order on a list -/

section Order

variable {K : Type*} [LinearOrder K] (key : α → K)

/-- The element at `a` is not less than the one at `b`. -/
def NotBelow (l : List α) (a b : Nat) : Prop :=
  ∀ x y, l[a]? = some x → l[b]? = some y → ¬ key x < key y

/-- No element among the first `n` is less than its parent. -/
def Ordered (l : List α) (n : Nat) : Prop :=
  ∀ c, 0 < c → c < n → NotBelow key l c (parent c)

/-- The order `up` restores from position `j`: every element but the one at
`j` is in order with its parent, and the children of `j` are not less than the
parent of `j`. -/
structure UpInv (l : List α) (n j : Nat) : Prop where
  except : ∀ c, 0 < c → c < n → c ≠ j → NotBelow key l c (parent c)
  grand : 0 < j → ∀ c, 0 < c → c < n → parent c = j → NotBelow key l c (parent j)

/-- The order `down` restores from position `i`: every element whose parent is
not at `i` is in order with its parent, and the children of `i` are not less
than the parent of `i`. -/
structure DownInv (l : List α) (n i : Nat) : Prop where
  except : ∀ c, 0 < c → c < n → parent c ≠ i → NotBelow key l c (parent c)
  grand : 0 < i → ∀ c, 0 < c → c < n → parent c = i → NotBelow key l c (parent i)

/-- The order after the element at `i` changed: every pair of a parent and a
child off `i` is in order, and the children of `i` are not less than the parent
of `i`. `Fix` and `Remove` start from it. -/
structure Hole (l : List α) (n i : Nat) : Prop where
  except : ∀ c, 0 < c → c < n → c ≠ i → parent c ≠ i → NotBelow key l c (parent c)
  grand : 0 < i → ∀ c, 0 < c → c < n → parent c = i → NotBelow key l c (parent i)

variable {key}

theorem NotBelow.trans {l : List α} {a b c : Nat} (hb : b < l.length) (hab : NotBelow key l a b)
    (hbc : NotBelow key l b c) : NotBelow key l a c := by
  intro x z hx hz
  have hy : l[b]? = some l[b] := List.getElem?_eq_getElem hb
  have h1 := hab x _ hx hy
  have h2 := hbc _ z hy hz
  rw [not_lt] at h1 h2 ⊢
  exact h2.trans h1

theorem NotBelow.of_lt {l : List α} {a b : Nat} {x y : α} (ha : l[a]? = some x) (hb : l[b]? = some y)
    (hlt : key x < key y) : NotBelow key l b a := by
  intro y' x' hy' hx'
  rw [hb] at hy'
  rw [ha] at hx'
  cases hy'
  cases hx'
  exact not_lt.mpr hlt.le

theorem notBelow_self (l : List α) (a : Nat) : NotBelow key l a a := by
  intro x y hx hy
  rw [hx] at hy
  cases hy
  exact lt_irrefl _

end Order

/-! ## Exchanging two positions -/

section Swap

variable {l : List α} {i j : Nat}

/-- Position `k` of `l.swap i j` holds what position `Equiv.swap i j k` of `l` holds. -/
theorem getElem?_swap (hi : i < l.length) (hj : j < l.length) (k : Nat) :
    (l.swap i j)[k]? = l[Equiv.swap i j k]? := by
  rw [List.swap_eq_of_lt hi hj, List.getElem?_set, List.getElem?_set, Equiv.swap_apply_def]
  by_cases hki : k = i
  · subst hki
    by_cases hkj : k = j
    · subst hkj; simp [hi]
    · simp [Ne.symm hkj, hi, List.getElem?_eq_getElem hj]
  · by_cases hkj : k = j
    · subst hkj; simp [hki, hj, List.getElem?_eq_getElem hi]
    · simp [hki, hkj, Ne.symm hki, Ne.symm hkj]

/-- `l'` holds the elements of `l`, and the positions from `n` on as `l` does. -/
structure Sifted (n : Nat) (l l' : List α) : Prop where
  perm : List.Perm l' l
  tail : ∀ k, n ≤ k → l'[k]? = l[k]?

theorem Sifted.refl (n : Nat) (l : List α) : Sifted n l l := ⟨List.Perm.refl l, fun _ _ => rfl⟩

theorem Sifted.trans {n : Nat} {l₁ l₂ l₃ : List α} (h₁ : Sifted n l₁ l₂) (h₂ : Sifted n l₂ l₃) :
    Sifted n l₁ l₃ :=
  ⟨h₂.perm.trans h₁.perm, fun k hk => (h₂.tail k hk).trans (h₁.tail k hk)⟩

theorem sifted_swap {n : Nat} (hi : i < l.length) (hj : j < l.length) (hin : i < n) (hjn : j < n) :
    Sifted n l (l.swap i j) where
  perm := List.swap_perm l i j
  tail k hk := by rw [getElem?_swap hi hj, Equiv.swap_apply_of_ne_of_ne (by omega) (by omega)]

end Swap

section Steps

variable {K : Type*} [LinearOrder K] {key : α → K} {l : List α} {n : Nat}

theorem notBelow_swap {i j : Nat} (hi : i < l.length) (hj : j < l.length) (a b : Nat) :
    NotBelow key (l.swap i j) a b ↔ NotBelow key l (Equiv.swap i j a) (Equiv.swap i j b) := by
  simp only [NotBelow, getElem?_swap hi hj]

/-- One step of `up`: the element at `j`, less than its parent, changes places
with it, and the order to restore moves to the parent. -/
theorem UpInv.swap {j : Nat} (hinv : UpInv key l n j) (hn : n ≤ l.length) (hjn : j < n) (hj0 : 0 < j)
    {x y : α} (hx : l[j]? = some x) (hy : l[parent j]? = some y) (hlt : key x < key y) :
    UpInv key (l.swap (parent j) j) n (parent j) := by
  have hp := parent_lt hj0
  have hpj : NotBelow key l (parent j) j := NotBelow.of_lt hx hy hlt
  constructor
  · intro c hc0 hcn hcp
    rw [notBelow_swap (by omega) (by omega)]
    by_cases hcj : c = j
    · subst hcj
      rwa [Equiv.swap_apply_right, Equiv.swap_apply_left]
    rw [Equiv.swap_apply_of_ne_of_ne hcp hcj]
    by_cases hpar : parent c = j
    · rw [hpar, Equiv.swap_apply_right]
      exact hinv.grand hj0 c hc0 hcn hpar
    by_cases hpar' : parent c = parent j
    · rw [hpar', Equiv.swap_apply_left]
      exact (hpar' ▸ hinv.except c hc0 hcn hcj).trans (by omega) hpj
    · rw [Equiv.swap_apply_of_ne_of_ne hpar' hpar]
      exact hinv.except c hc0 hcn hcj
  · intro hp0 c hc0 hcn hcpar
    have hpp := parent_lt hp0
    rw [notBelow_swap (by omega) (by omega),
      Equiv.swap_apply_of_ne_of_ne (show parent (parent j) ≠ parent j by omega) (by omega)]
    have hpup : NotBelow key l (parent j) (parent (parent j)) :=
      hinv.except (parent j) hp0 (by omega) (by omega)
    by_cases hcj : c = j
    · subst hcj
      rwa [Equiv.swap_apply_right]
    · have hcp : c ≠ parent j := by have := parent_lt hc0; omega
      rw [Equiv.swap_apply_of_ne_of_ne hcp hcj]
      exact (hcpar ▸ hinv.except c hc0 hcn hcj).trans (by omega) hpup

/-- Where `up` stops, at the root or below a parent not greater than it, the
order is restored. -/
theorem UpInv.finish {j : Nat} (hinv : UpInv key l n j) (hstop : j = 0 ∨ NotBelow key l j (parent j)) :
    Ordered key l n := by
  intro c hc0 hcn
  by_cases hcj : c = j
  · subst hcj
    exact hstop.resolve_left (by omega)
  · exact hinv.except c hc0 hcn hcj

/-- One step of `down`: the element at `i` changes places with a least child
`j` less than it, and the order to restore moves to that child. -/
theorem DownInv.swap {i j : Nat} (hinv : DownInv key l n i) (hn : n ≤ l.length) (hjn : j < n)
    (hj0 : 0 < j) (hji : parent j = i)
    (hmin : ∀ c, 0 < c → c < n → parent c = i → NotBelow key l c j)
    {x y : α} (hx : l[j]? = some x) (hy : l[i]? = some y) (hlt : key x < key y) :
    DownInv key (l.swap i j) n j := by
  have hij : i < j := hji ▸ parent_lt hj0
  constructor
  · intro c hc0 hcn hcpar
    rw [notBelow_swap (by omega) (by omega)]
    by_cases hcj : c = j
    · subst hcj
      rw [hji, Equiv.swap_apply_right, Equiv.swap_apply_left]
      exact NotBelow.of_lt hx hy hlt
    by_cases hci : c = i
    · subst hci
      have hpc := parent_lt hc0
      rw [Equiv.swap_apply_left, Equiv.swap_apply_of_ne_of_ne (by omega) (by omega)]
      exact hinv.grand hc0 j hj0 hjn hji
    rw [Equiv.swap_apply_of_ne_of_ne hci hcj]
    by_cases hpi : parent c = i
    · rw [hpi, Equiv.swap_apply_left]
      exact hmin c hc0 hcn hpi
    · rw [Equiv.swap_apply_of_ne_of_ne hpi hcpar]
      exact hinv.except c hc0 hcn hpi
  · intro _ c hc0 hcn hcpar
    have hpc := parent_lt hc0
    rw [notBelow_swap (by omega) (by omega), hji, Equiv.swap_apply_left,
      Equiv.swap_apply_of_ne_of_ne (show c ≠ i by omega) (show c ≠ j by omega)]
    exact hcpar ▸ hinv.except c hc0 hcn (by omega)

/-- Where `down` stops, with no child less than the element, the order is
restored. -/
theorem DownInv.finish {i : Nat} (hinv : DownInv key l n i)
    (hstop : ∀ c, 0 < c → c < n → parent c = i → NotBelow key l c i) : Ordered key l n := by
  intro c hc0 hcn
  by_cases hpi : parent c = i
  · exact hpi ▸ hstop c hc0 hcn hpi
  · exact hinv.except c hc0 hcn hpi

/-- A changed element in order with its parent leaves only its children to
order. -/
theorem Hole.downInv {i : Nat} (hh : Hole key l n i) (hup : i = 0 ∨ NotBelow key l i (parent i)) :
    DownInv key l n i where
  except c hc0 hcn hpi := by
    by_cases hci : c = i
    · subst hci
      exact hup.resolve_left (by omega)
    · exact hh.except c hc0 hcn hci hpi
  grand := hh.grand

/-- A changed element in order with its children leaves only its parent to
order. -/
theorem Hole.upInv {i : Nat} (hh : Hole key l n i)
    (hdown : ∀ c, 0 < c → c < n → parent c = i → NotBelow key l c i) : UpInv key l n i where
  except c hc0 hcn hci := by
    by_cases hpi : parent c = i
    · exact hpi ▸ hdown c hc0 hcn hpi
    · exact hh.except c hc0 hcn hci hpi
  grand := hh.grand

end Steps

/-! ## Heaps as their operations leave them -/

section Shapes

variable {K : Type*} [LinearOrder K] {key : α → K} {l : List α}

theorem notBelow_of_not_lt {a b : Nat} {x y : α} (ha : l[a]? = some x) (hb : l[b]? = some y)
    (hnlt : ¬ key x < key y) : NotBelow key l a b := by
  intro x' y' ha' hb'
  rw [ha] at ha'
  rw [hb] at hb'
  cases ha'
  cases hb'
  exact hnlt

theorem notBelow_append {a b : Nat} (ha : a < l.length) (hb : b < l.length) (r : List α) :
    NotBelow key (l ++ r) a b ↔ NotBelow key l a b := by
  simp only [NotBelow, List.getElem?_append_left ha, List.getElem?_append_left hb]

theorem notBelow_set {a b i : Nat} (x : α) (ha : a ≠ i) (hb : b ≠ i) :
    NotBelow key (l.set i x) a b ↔ NotBelow key l a b := by
  simp only [NotBelow, List.getElem?_set_ne (Ne.symm ha), List.getElem?_set_ne (Ne.symm hb)]

theorem ordered_of_length_le {n : Nat} (hn : n ≤ 1) : Ordered key l n := by
  intro c hc0 hcn
  omega

/-- The heap order of a list is kept by an element appended, to be moved up
from the last position. -/
theorem Ordered.upInv_append (hord : Ordered key l l.length) (x : α) :
    UpInv key (l ++ [x]) (l.length + 1) l.length where
  except c hc0 hcn hcl := by
    have hp := parent_lt hc0
    rw [notBelow_append (by omega) (by omega)]
    exact hord c hc0 (by omega)
  grand _ c hc0 hcn hcp := by
    have := (parent_eq_iff hc0).mp hcp
    omega

/-- Setting the element at `i` of an ordered list leaves a hole at `i`. -/
theorem Ordered.hole_set (hord : Ordered key l l.length) {i : Nat} (hi : i < l.length) (x : α) :
    Hole key (l.set i x) l.length i where
  except c hc0 hcn hci hpi := by
    rw [notBelow_set x hci hpi]
    exact hord c hc0 hcn
  grand hi0 c hc0 hcn hcp := by
    have hpi := parent_lt hi0
    have hic : i < c := hcp ▸ parent_lt hc0
    rw [notBelow_set x (by omega) (by omega)]
    exact (hcp ▸ hord c hc0 hcn).trans hi (hord i hi0 hi)

/-- Exchanging the element at `i` with the last one leaves a hole at `i` in
the heap of the first `l.length - 1` positions. -/
theorem Ordered.hole_swap (hord : Ordered key l l.length) {i : Nat} (hi : i < l.length) :
    Hole key (l.swap i (l.length - 1)) (l.length - 1) i where
  except c hc0 hcn hci hpi := by
    have hp := parent_lt hc0
    rw [notBelow_swap hi (by omega), Equiv.swap_apply_of_ne_of_ne hci (by omega),
      Equiv.swap_apply_of_ne_of_ne hpi (by omega)]
    exact hord c hc0 (by omega)
  grand hi0 c hc0 hcn hcp := by
    have hpi := parent_lt hi0
    have hic : i < c := hcp ▸ parent_lt hc0
    rw [notBelow_swap hi (by omega), Equiv.swap_apply_of_ne_of_ne (by omega) (by omega),
      Equiv.swap_apply_of_ne_of_ne (by omega) (by omega)]
    exact (hcp ▸ hord c hc0 (by omega)).trans hi (hord i hi0 hi)

theorem Ordered.dropLast (hord : Ordered key l (l.length - 1)) : Ordered key l.dropLast l.dropLast.length := by
  intro c hc0 hcn
  have hp := parent_lt hc0
  rw [List.length_dropLast] at hcn
  intro x y hx hy
  rw [List.getElem?_dropLast, if_pos hcn] at hx
  rw [List.getElem?_dropLast, if_pos (by omega)] at hy
  exact hord c hc0 hcn x y hx hy

theorem eq_dropLast_append {m : Nat} {r : α} (hlen : l.length = m + 1) (hr : l[m]? = some r) :
    l = l.dropLast ++ [r] := by
  have hne : l ≠ [] := List.ne_nil_of_length_pos (by omega)
  have hlast : l.getLast hne = r := by
    rw [List.getLast_eq_getElem]
    simpa [hlen, List.getElem?_eq_getElem (show m < l.length by omega)] using hr
  rw [← hlast, List.dropLast_concat_getLast]

/-- No element of an ordered list is less than the one at the root. -/
theorem Ordered.root (hord : Ordered key l l.length) {r : α} (hr : l[0]? = some r) :
    ∀ x ∈ l, ¬ key x < key r := by
  -- every position is not below the root, through its chain of parents
  have hall : ∀ c, c < l.length → NotBelow key l c 0 := by
    intro c
    induction c using Nat.strongRecOn with
    | ind c ih =>
      intro hc
      by_cases hc0 : c = 0
      · subst hc0
        exact notBelow_self l 0
      · have hp := parent_lt (Nat.pos_of_ne_zero hc0)
        exact (hord c (by omega) hc).trans (by omega) (ih (parent c) hp (by omega))
  intro x hx
  obtain ⟨c, hc, rfl⟩ := List.getElem_of_mem hx
  exact hall c hc _ r (List.getElem?_eq_getElem hc) hr

end Shapes

/-! ## The loops, on any interface -/

section Loops

theorem up_succ (fuel : Nat) (s : σ) (j : Nat) :
    up h (fuel + 1) s j =
      if parent j = j then some s
      else (h.less s j (parent j)).bind fun lt =>
        if !lt then some s else (h.swap s (parent j) j).bind fun s => up h fuel s (parent j) :=
  rfl

theorem lesserChild_gt {s : σ} {i n j : Nat} (hj : lesserChild h s i n = some j) : i < j := by
  unfold lesserChild at hj
  split_ifs at hj
  · obtain ⟨lt, -, rfl⟩ := Option.map_eq_some_iff.mp hj
    cases lt <;> simp <;> omega
  · cases hj
    omega

theorem downLoop_succ (fuel : Nat) (s : σ) (i n : Nat) :
    downLoop h (fuel + 1) s i n =
      if n ≤ 2 * i + 1 then some (s, i)
      else (lesserChild h s i n).bind fun j => (h.less s j i).bind fun lt =>
        if !lt then some (s, i) else (h.swap s i j).bind fun s => downLoop h fuel s j n :=
  rfl

/-- The loop of `down` leaves the element where it was, in the state it was
given, or moves it to a greater position. -/
theorem downLoop_eq_or_lt : ∀ (fuel : Nat) (s : σ) (i n : Nat) {r : σ × Nat},
    downLoop h fuel s i n = some r → r = (s, i) ∨ i < r.2
  | 0, _, _, _, _, hr => nomatch hr
  | fuel + 1, s, i, n, r, hr => by
    rw [downLoop_succ] at hr
    split_ifs at hr
    · cases hr
      exact .inl rfl
    obtain ⟨j, hj, hr⟩ := Option.bind_eq_some_iff.mp hr
    obtain ⟨lt, -, hr⟩ := Option.bind_eq_some_iff.mp hr
    split_ifs at hr
    · cases hr
      exact .inl rfl
    obtain ⟨s', -, hr⟩ := Option.bind_eq_some_iff.mp hr
    -- the element moved to the child `j`, and from there on only further
    have hgt := lesserChild_gt h hj
    rcases downLoop_eq_or_lt fuel s' j n hr with rfl | hlt
    · exact .inr hgt
    · exact .inr (hgt.trans hlt)

end Loops

/-! ## Lawful interfaces -/

section Lawful

variable {K : Type*} [LinearOrder K]

/-- The laws of an interface over the list `view` of a container's elements
and a key: on the containers that keep `inv`, `len` is the length, `less`
compares the keys of two positions in range, `swap` exchanges two positions
in range, `push` appends an element `admits` allows, and `pop` takes the last
element; each keeps `inv`. -/
structure Lawful (view : σ → List α) (key : α → K) (inv : σ → Prop) (admits : σ → α → Prop) : Prop where
  len_eq : ∀ s, inv s → h.len s = (view s).length
  less_eq : ∀ s, inv s → ∀ i j x y, (view s)[i]? = some x → (view s)[j]? = some y →
    h.less s i j = some (decide (key x < key y))
  swap : ∀ s, inv s → ∀ i j, i < (view s).length → j < (view s).length →
    ∃ s', h.swap s i j = some s' ∧ inv s' ∧ view s' = (view s).swap i j
  push : ∀ s x, inv s → admits s x → inv (h.push s x) ∧ view (h.push s x) = view s ++ [x]
  pop : ∀ s, inv s → ∀ l x, view s = l ++ [x] → ∃ s', h.pop s = some (s', x) ∧ inv s' ∧ view s' = l

variable {h} {view : σ → List α} {key : α → K} {inv : σ → Prop} {admits : σ → α → Prop}

/-- The less of two children of `i` within the first `n` positions is the one
`down` compares with `i`. -/
theorem Lawful.lesserChild_spec (hL : Lawful h view key inv admits) {s : σ} (hs : inv s) {i n : Nat}
    (hn : n ≤ (view s).length) (hj1 : 2 * i + 1 < n) :
    ∃ j, lesserChild h s i n = some j ∧ parent j = i ∧ j < n ∧
      ∀ c, 0 < c → c < n → parent c = i → NotBelow key (view s) c j := by
  have hl := List.getElem?_eq_getElem (show 2 * i + 1 < (view s).length by omega)
  unfold lesserChild
  by_cases hr : 2 * i + 2 < n
  · have hr' := List.getElem?_eq_getElem (show 2 * i + 2 < (view s).length by omega)
    rw [if_pos hr, hL.less_eq s hs _ _ _ _ hr' hl, Option.map_some]
    by_cases hless : key (view s)[2 * i + 2] < key (view s)[2 * i + 1]
    · -- the right child is the lesser
      refine ⟨2 * i + 2, by simp [hless], by unfold parent; omega, hr, fun c hc0 hcn hcp => ?_⟩
      rcases (parent_eq_iff hc0).mp hcp with rfl | rfl
      · exact NotBelow.of_lt hr' hl hless
      · exact notBelow_self _ _
    · refine ⟨2 * i + 1, by simp [hless], by unfold parent; omega, hj1, fun c hc0 hcn hcp => ?_⟩
      rcases (parent_eq_iff hc0).mp hcp with rfl | rfl
      · exact notBelow_self _ _
      · exact notBelow_of_not_lt hr' hl hless
  · -- no right child among the first `n` positions
    rw [if_neg hr]
    refine ⟨2 * i + 1, rfl, by unfold parent; omega, hj1, fun c hc0 hcn hcp => ?_⟩
    rcases (parent_eq_iff hc0).mp hcp with rfl | rfl
    · exact notBelow_self _ _
    · omega

/-- `up` from the order it restores: it does not panic, the invariant is kept,
the elements move only among the first `n` positions, and the order is
restored. -/
theorem Lawful.up_spec (hL : Lawful h view key inv admits) {n : Nat} :
    ∀ (fuel : Nat) (s : σ) (j : Nat), inv s → n ≤ (view s).length → j < n → j < fuel →
      UpInv key (view s) n j →
      ∃ s', up h fuel s j = some s' ∧ inv s' ∧ Sifted n (view s) (view s') ∧ Ordered key (view s') n
  | 0, _, _, _, _, _, hf, _ => absurd hf (Nat.not_lt_zero _)
  | fuel + 1, s, j, hs, hn, hjn, hf, hinv => by
    rw [up_succ]
    by_cases hj0 : j = 0
    · subst hj0
      rw [if_pos (show parent 0 = 0 from rfl)]
      exact ⟨s, rfl, hs, Sifted.refl _ _, hinv.finish (.inl rfl)⟩
    have hp := parent_lt (Nat.pos_of_ne_zero hj0)
    have hx := List.getElem?_eq_getElem (show j < (view s).length by omega)
    have hy := List.getElem?_eq_getElem (show parent j < (view s).length by omega)
    rw [if_neg (show parent j ≠ j by omega), hL.less_eq s hs _ _ _ _ hx hy, Option.bind_some]
    by_cases hlt : key (view s)[j] < key (view s)[parent j]
    · -- the element changes places with its parent and goes on from there
      obtain ⟨s₁, hswap, hs₁, hview⟩ := hL.swap s hs (parent j) j (by omega) (by omega)
      rw [if_neg (by simp [hlt]), hswap, Option.bind_some]
      have hinv' := hinv.swap hn hjn (Nat.pos_of_ne_zero hj0) hx hy hlt
      rw [← hview] at hinv'
      obtain ⟨s', hup, hs', hsift, hord⟩ := hL.up_spec fuel s₁ (parent j) hs₁
        (by rw [hview, List.length_swap]; exact hn) (by omega) (by omega) hinv'
      exact ⟨s', hup, hs', (hview ▸ sifted_swap (by omega) (by omega) (by omega) hjn).trans hsift, hord⟩
    · rw [if_pos (by simp [hlt])]
      exact ⟨s, rfl, hs, Sifted.refl _ _, hinv.finish (.inr (notBelow_of_not_lt hx hy hlt))⟩

/-- `down` from the order it restores, with fuel for the positions below `i`:
it does not panic, the invariant is kept, the elements move only among the
first `n` positions, and the order is restored. -/
theorem Lawful.downLoop_spec (hL : Lawful h view key inv admits) {n : Nat} :
    ∀ (fuel : Nat) (s : σ) (i : Nat), inv s → n ≤ (view s).length → n ≤ i + fuel → 0 < fuel →
      DownInv key (view s) n i →
      ∃ r, downLoop h fuel s i n = some r ∧ inv r.1 ∧ Sifted n (view s) (view r.1) ∧
        Ordered key (view r.1) n
  | 0, _, _, _, _, _, hf0, _ => absurd hf0 (Nat.lt_irrefl 0)
  | fuel + 1, s, i, hs, hn, hf, _, hinv => by
    rw [downLoop_succ]
    by_cases hleaf : n ≤ 2 * i + 1
    · -- no child among the first `n` positions
      rw [if_pos hleaf]
      refine ⟨(s, i), rfl, hs, Sifted.refl _ _, hinv.finish fun c hc0 hcn hcp => ?_⟩
      have := (parent_eq_iff hc0).mp hcp
      omega
    rw [if_neg hleaf]
    obtain ⟨j, hchild, hji, hjn, hmin⟩ := hL.lesserChild_spec hs hn (show 2 * i + 1 < n by omega)
    have hgt := lesserChild_gt h hchild
    have hx := List.getElem?_eq_getElem (show j < (view s).length by omega)
    have hy := List.getElem?_eq_getElem (show i < (view s).length by omega)
    rw [hchild, Option.bind_some, hL.less_eq s hs _ _ _ _ hx hy, Option.bind_some]
    by_cases hlt : key (view s)[j] < key (view s)[i]
    · -- the element changes places with its lesser child and goes on from there
      obtain ⟨s₁, hswap, hs₁, hview⟩ := hL.swap s hs i j (by omega) (by omega)
      rw [if_neg (by simp [hlt]), hswap, Option.bind_some]
      have hinv' := hinv.swap hn hjn (by omega) hji hmin hx hy hlt
      rw [← hview] at hinv'
      obtain ⟨r, hdown, hr, hsift, hord⟩ := hL.downLoop_spec fuel s₁ j hs₁
        (by rw [hview, List.length_swap]; exact hn) (by omega) (by omega) hinv'
      exact ⟨r, hdown, hr, (hview ▸ sifted_swap (by omega) (by omega) (by omega) hjn).trans hsift, hord⟩
    · rw [if_pos (by simp [hlt])]
      refine ⟨(s, i), rfl, hs, Sifted.refl _ _, hinv.finish fun c hc0 hcn hcp => ?_⟩
      exact (hmin c hc0 hcn hcp).trans (by omega) (notBelow_of_not_lt hx hy hlt)

/-- `up` on an ordered list does nothing. -/
theorem Lawful.up_of_ordered (hL : Lawful h view key inv admits) {s : σ} (hs : inv s) {n j : Nat}
    (hn : n ≤ (view s).length) (hord : Ordered key (view s) n) (hjn : j < n) (fuel : Nat) :
    up h (fuel + 1) s j = some s := by
  rw [up_succ]
  by_cases hj0 : j = 0
  · subst hj0
    exact if_pos rfl
  have hp := parent_lt (Nat.pos_of_ne_zero hj0)
  have hx := List.getElem?_eq_getElem (show j < (view s).length by omega)
  have hy := List.getElem?_eq_getElem (show parent j < (view s).length by omega)
  have hnlt := hord j (by omega) hjn _ _ hx hy
  rw [if_neg (show parent j ≠ j by omega), hL.less_eq s hs _ _ _ _ hx hy, Option.bind_some]
  exact if_pos (by simp [hnlt])

/-- `down` of an element no child of which is less than it does nothing. -/
theorem Lawful.downLoop_of_notBelow (hL : Lawful h view key inv admits) {s : σ} (hs : inv s) {n i : Nat}
    (hn : n ≤ (view s).length) (hdown : ∀ c, 0 < c → c < n → parent c = i → NotBelow key (view s) c i)
    (fuel : Nat) : downLoop h (fuel + 1) s i n = some (s, i) := by
  rw [downLoop_succ]
  by_cases hleaf : n ≤ 2 * i + 1
  · exact if_pos hleaf
  rw [if_neg hleaf]
  obtain ⟨j, hchild, hji, hjn, -⟩ := hL.lesserChild_spec hs hn (show 2 * i + 1 < n by omega)
  have hgt := lesserChild_gt h hchild
  have hx := List.getElem?_eq_getElem (show j < (view s).length by omega)
  have hy := List.getElem?_eq_getElem (show i < (view s).length by omega)
  have hnlt := hdown _ (by omega) hjn hji _ _ hx hy
  rw [hchild, Option.bind_some, hL.less_eq s hs _ _ _ _ hx hy, Option.bind_some]
  exact if_pos (by simp [hnlt])

theorem downUp_of_stay {s : σ} {i n : Nat} (heq : downLoop h (h.len s) s i n = some (s, i)) :
    downUp h s i n = up h (h.len s) s i := by
  simp [downUp, down, heq]

theorem downUp_of_moved {s : σ} {i n : Nat} {r : σ × Nat} (heq : downLoop h (h.len s) s i n = some r)
    (hlt : i < r.2) : downUp h s i n = some r.1 := by
  simp [downUp, down, heq, hlt]

/-- `downUp` from a hole at `i`, as `Fix` and `Remove` use it: the element is in
order with its parent and goes down, or it is less than its parent, so that no
child of it is less than it, and it goes up. -/
theorem Lawful.downUp_spec (hL : Lawful h view key inv admits) {s : σ} (hs : inv s) {n i : Nat}
    (hn : n ≤ (view s).length) (hin : i < n) (hh : Hole key (view s) n i) :
    ∃ s', downUp h s i n = some s' ∧ inv s' ∧ Sifted n (view s) (view s') ∧ Ordered key (view s') n := by
  have hlen := hL.len_eq s hs
  obtain ⟨fuel, hfuel⟩ : ∃ fuel, h.len s = fuel + 1 := Nat.exists_eq_succ_of_ne_zero (by omega)
  by_cases hup : i = 0 ∨ NotBelow key (view s) i (parent i)
  · obtain ⟨r, hdown, hr, hsift, hord⟩ :=
      hL.downLoop_spec (h.len s) s i hs hn (by omega) (by omega) (hh.downInv hup)
    rcases downLoop_eq_or_lt h _ _ _ _ hdown with rfl | hlt
    · -- the element stayed, and the list was ordered already
      rw [downUp_of_stay hdown, hfuel, hL.up_of_ordered hs hn hord hin]
      exact ⟨s, rfl, hs, hsift, hord⟩
    · exact ⟨r.1, downUp_of_moved hdown hlt, hr, hsift, hord⟩
  · -- the element is less than its parent, so no child of it is less than it
    simp only [not_or, NotBelow, not_forall] at hup
    obtain ⟨hi0, x, y, hx, hy, hlt⟩ := hup
    rw [not_not] at hlt
    have hdown : ∀ c, 0 < c → c < n → parent c = i → NotBelow key (view s) c i := by
      intro c hc0 hcn hcp a b ha hb
      rw [hx] at hb
      cases hb
      exact fun hab => hh.grand (Nat.pos_of_ne_zero hi0) c hc0 hcn hcp a y ha hy (hab.trans hlt)
    rw [downUp_of_stay (hfuel ▸ hL.downLoop_of_notBelow hs hn hdown fuel)]
    exact hL.up_spec (h.len s) s i hs hn hin (by omega) (hh.upInv hdown)

/-! ## The operations -/

/-- `Push` does not panic, and keeps the invariant and the heap order, with
the element added. -/
theorem Lawful.push_spec (hL : Lawful h view key inv admits) {s : σ} {x : α} (hs : inv s) (hx : admits s x)
    (hord : Ordered key (view s) (view s).length) :
    ∃ s', Heap.push h s x = some s' ∧ inv s' ∧ List.Perm (view s') (view s ++ [x]) ∧
      Ordered key (view s') (view s').length := by
  obtain ⟨hs1, hv1⟩ := hL.push s x hs hx
  have hlen1 : h.len (h.push s x) = (view s).length + 1 := by rw [hL.len_eq _ hs1, hv1, List.length_append]; rfl
  have hpush : Heap.push h s x = up h (h.len (h.push s x)) (h.push s x) (view s).length := by
    simp only [Heap.push, hlen1, Nat.add_sub_cancel]
  obtain ⟨s', hup, hs', hsift, hord'⟩ := hL.up_spec (h.len (h.push s x)) (h.push s x) (view s).length hs1
    (by rw [hv1, List.length_append]; rfl) (by omega) (by omega) (hv1 ▸ hord.upInv_append x)
  refine ⟨s', hpush.trans hup, hs', hv1 ▸ hsift.perm, ?_⟩
  rw [hsift.perm.length_eq, hv1, List.length_append]
  exact hord'

/-- Taking the last element of a container whose first `m` positions are in
heap order, with `x` at position `m`, the last. -/
theorem Lawful.pop_last (hL : Lawful h view key inv admits) {s : σ} (hs : inv s) {m : Nat} {x : α}
    (hlen : (view s).length = m + 1) (hx : (view s)[m]? = some x) (hord : Ordered key (view s) m) :
    ∃ s', h.pop s = some (s', x) ∧ inv s' ∧ List.Perm (view s) (x :: view s') ∧
      Ordered key (view s') (view s').length := by
  have hsplit := eq_dropLast_append hlen hx
  obtain ⟨s', hpop, hs', hv'⟩ := hL.pop s hs _ x hsplit
  refine ⟨s', hpop, hs', ?_, ?_⟩
  · rw [hv']
    exact (List.Perm.of_eq hsplit).trans (List.perm_append_singleton x _)
  · rw [hv']
    exact Ordered.dropLast (by rw [hlen]; exact hord)

/-- `down` from a hole at `i` of a heap of `m + 1` elements, over the first `m`
positions, after the element at `i` changed places with the last one, `x`:
`Pop` and `Remove` then take `x` from the end. -/
theorem Lawful.take_last (hL : Lawful h view key inv admits) {s s₁ : σ} {m i : Nat} {x : α}
    (hm : (view s).length = m + 1) (hi : i < m + 1) (hx : (view s)[i]? = some x)
    (hv₁ : view s₁ = (view s).swap i m) {s₂ : σ} (hs₂ : inv s₂) (hsift : Sifted m (view s₁) (view s₂))
    (hord : Ordered key (view s₂) m) :
    ∃ s', h.pop s₂ = some (s', x) ∧ inv s' ∧ List.Perm (view s) (x :: view s') ∧
      Ordered key (view s') (view s').length := by
  have hlast : (view s₂)[m]? = some x := by
    rw [hsift.tail m le_rfl, hv₁, getElem?_swap (by omega) (by omega), Equiv.swap_apply_right, hx]
  have hlen : (view s₂).length = m + 1 := by rw [hsift.perm.length_eq, hv₁, List.length_swap, hm]
  obtain ⟨s', hpop, hs', hperm, hord'⟩ := hL.pop_last hs₂ hlen hlast hord
  exact ⟨s', hpop, hs', ((List.swap_perm (view s) i m).symm.trans (hv₁ ▸ hsift.perm.symm)).trans hperm,
    hord'⟩

/-- `Pop` does not panic on a container with an element: it yields the element
at the root, and keeps the invariant and the heap order of the others. -/
theorem Lawful.pop_spec (hL : Lawful h view key inv admits) {s : σ} (hs : inv s)
    (hord : Ordered key (view s) (view s).length) {r : α} (hr : (view s)[0]? = some r) :
    ∃ s', Heap.pop h s = some (s', r) ∧ inv s' ∧ List.Perm (view s) (r :: view s') ∧
      Ordered key (view s') (view s').length := by
  obtain ⟨m, hm⟩ : ∃ m, (view s).length = m + 1 :=
    Nat.exists_eq_succ_of_ne_zero (by simpa using (List.getElem?_eq_some_iff.mp hr).1.ne')
  obtain ⟨s₁, hswap, hs₁, hv₁⟩ := hL.swap s hs 0 m (by omega) (by omega)
  have hlen₁ : h.len s₁ = m + 1 := by rw [hL.len_eq _ hs₁, hv₁, List.length_swap, hm]
  have hh : Hole key (view s₁) m 0 := by
    simpa [hv₁, hm] using hord.hole_swap (show 0 < (view s).length by omega)
  obtain ⟨r₁, hdown, hr₁, hsift, hord₁⟩ := hL.downLoop_spec (h.len s₁) s₁ 0 hs₁
    (by rw [hv₁, List.length_swap]; omega) (by omega) (by omega) (hh.downInv (.inl rfl))
  obtain ⟨s', hpop, hs', hperm, hord'⟩ := hL.take_last hm (by omega) hr hv₁ hr₁ hsift hord₁
  refine ⟨s', ?_, hs', hperm, hord'⟩
  simp [Heap.pop, down, hL.len_eq s hs, hm, hswap, hdown, hpop]

/-- `Remove` of a position in range does not panic: it yields the element
there, and keeps the invariant and the heap order of the others. -/
theorem Lawful.remove_spec (hL : Lawful h view key inv admits) {s : σ} (hs : inv s)
    (hord : Ordered key (view s) (view s).length) {i : Nat} {x : α} (hx : (view s)[i]? = some x) :
    ∃ s', remove h s i = some (s', x) ∧ inv s' ∧ List.Perm (view s) (x :: view s') ∧
      Ordered key (view s') (view s').length := by
  have hi := (List.getElem?_eq_some_iff.mp hx).1
  obtain ⟨m, hm⟩ : ∃ m, (view s).length = m + 1 := Nat.exists_eq_succ_of_ne_zero (by omega)
  have hrem : remove h s i =
      if m ≠ i then ((h.swap s i m).bind fun s => downUp h s i m).bind h.pop else h.pop s := by
    simp [remove, hL.len_eq s hs, hm]
  rw [hrem]
  by_cases hmi : m = i
  · -- the last element: taken as it is
    subst hmi
    rw [if_neg (not_not_intro rfl)]
    exact hL.pop_last hs hm hx (fun c hc0 hcn => hord c hc0 (by omega))
  · rw [if_pos hmi]
    obtain ⟨s₁, hswap, hs₁, hv₁⟩ := hL.swap s hs i m hi (by omega)
    have hh : Hole key (view s₁) m i := by
      simpa [hv₁, hm] using hord.hole_swap hi
    obtain ⟨s₂, hdu, hs₂, hsift, hord₂⟩ :=
      hL.downUp_spec hs₁ (by rw [hv₁, List.length_swap]; omega) (by omega) hh
    obtain ⟨s', hpop, hs', hperm, hord'⟩ := hL.take_last hm (by omega) hx hv₁ hs₂ hsift hord₂
    exact ⟨s', by simp [hswap, hdu, hpop], hs', hperm, hord'⟩

/-- `Fix` of a position in range after the element there changed does not
panic, restores the heap order, and keeps the invariant and the elements. -/
theorem Lawful.fix_spec (hL : Lawful h view key inv admits) {s : σ} (hs : inv s) {i : Nat}
    (hi : i < (view s).length) (hh : Hole key (view s) (view s).length i) :
    ∃ s', fix h s i = some s' ∧ inv s' ∧ List.Perm (view s') (view s) ∧
      Ordered key (view s') (view s').length := by
  obtain ⟨s', hdu, hs', hsift, hord⟩ := hL.downUp_spec hs le_rfl hi hh
  have hfix : fix h s i = downUp h s i (view s).length := by rw [fix, hL.len_eq s hs]
  refine ⟨s', hfix.trans hdu, hs', hsift.perm, ?_⟩
  rw [hsift.perm.length_eq]
  exact hord

end Lawful

end Heap
