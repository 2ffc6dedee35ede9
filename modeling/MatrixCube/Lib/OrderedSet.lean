import Mathlib

/-! # Ordered sets in the manner of google/btree

A `BTree` of items under a strict order `Less` behaves as a set of items with
at most one item per equivalence class of `Less`. Here the order compares one
key of each item, so the set is the list of its items in strictly increasing
key order. The operations keep the iteration contract of the btree API:
`AscendGreaterOrEqual(pivot)` visits the items at or above the pivot in
ascending order, `DescendLessOrEqual(pivot)` the items at or below it in
descending order, `Delete` removes the item equal to its argument and
`ReplaceOrInsert` adds an item, replacing the one it equals. A callback that
stops early is the caller's `takeWhile` or `head?` of the visited list.
-/

/-- The items of an ordered set, strictly increasing in `key`. -/
structure OrderedSet {α K : Type*} [LinearOrder K] (key : α → K) where
  items : List α
  sorted : items.Pairwise (fun a b => key a < key b)

namespace OrderedSet

variable {α K : Type*} [LinearOrder K] {key : α → K}

/-- The empty tree. -/
def empty (key : α → K) : OrderedSet key := ⟨[], List.Pairwise.nil⟩

/-- `Len`. -/
def len (t : OrderedSet key) : Nat := t.items.length

/-- `AscendGreaterOrEqual`: the items whose key is at least `k`, ascending. -/
def ascendGreaterOrEqual (t : OrderedSet key) (k : K) : List α :=
  t.items.filter (fun x => decide (k ≤ key x))

/-- `DescendLessOrEqual`: the items whose key is at most `k`, descending. -/
def descendLessOrEqual (t : OrderedSet key) (k : K) : List α :=
  (t.items.filter (fun x => decide (key x ≤ k))).reverse

/-- `Get`: the item whose key is `k`. -/
def get (t : OrderedSet key) (k : K) : Option α :=
  t.items.find? (fun x => decide (key x = k))

/-- `Delete`: drop the item whose key is `k`. -/
def delete (t : OrderedSet key) (k : K) : OrderedSet key :=
  ⟨t.items.filter (fun x => decide (key x ≠ k)), t.sorted.filter _⟩

/-- Insertion into a key-sorted list, replacing an item of equal key. -/
def insertSorted (key : α → K) (x : α) : List α → List α
  | [] => [x]
  | y :: ys =>
      if key x < key y then x :: y :: ys
      else if key x = key y then x :: ys
      else y :: insertSorted key x ys

theorem mem_insertSorted {x y : α} :
    ∀ {l : List α}, l.Pairwise (fun a b => key a < key b) →
      (y ∈ insertSorted key x l ↔ y = x ∨ (y ∈ l ∧ key y ≠ key x))
  | [], _ => by simp [insertSorted]
  | z :: zs, hs => by
      have ih := mem_insertSorted (x := x) (y := y) (List.Pairwise.of_cons hs)
      have hz : ∀ w ∈ zs, key z < key w := fun w hw => List.rel_of_pairwise_cons hs hw
      unfold insertSorted
      split_ifs with hlt heq
      · -- `x` goes first; every later item has a larger key than `x`
        simp only [List.mem_cons]
        constructor
        · rintro (rfl | rfl | h)
          · exact .inl rfl
          · exact .inr ⟨.inl rfl, ne_of_gt hlt⟩
          · exact .inr ⟨.inr h, ne_of_gt (lt_trans hlt (hz _ h))⟩
        · rintro (rfl | ⟨rfl | h, -⟩) <;> simp_all
      · simp only [List.mem_cons]
        constructor
        · rintro (rfl | h)
          · exact .inl rfl
          · exact .inr ⟨.inr h, ne_of_gt (heq ▸ hz _ h)⟩
        · rintro (rfl | ⟨rfl | h, hne⟩)
          · exact .inl rfl
          · exact absurd heq.symm hne
          · exact .inr h
      · simp only [List.mem_cons, ih]
        constructor
        · rintro (rfl | rfl | ⟨h, hne⟩)
          · exact .inr ⟨.inl rfl, Ne.symm heq⟩
          · exact .inl rfl
          · exact .inr ⟨.inr h, hne⟩
        · rintro (rfl | ⟨rfl | h, hne⟩)
          · exact .inr (.inl rfl)
          · exact .inl rfl
          · exact .inr (.inr ⟨h, hne⟩)

theorem pairwise_insertSorted (x : α) :
    ∀ {l : List α}, l.Pairwise (fun a b => key a < key b) →
      (insertSorted key x l).Pairwise (fun a b => key a < key b)
  | [], _ => by simp [insertSorted]
  | z :: zs, hs => by
      have hz : ∀ w ∈ zs, key z < key w := fun w hw => List.rel_of_pairwise_cons hs hw
      have htail := List.Pairwise.of_cons hs
      unfold insertSorted
      split_ifs with hlt heq
      · exact List.Pairwise.cons (fun w hw => by
          rcases List.mem_cons.mp hw with rfl | hw
          · exact hlt
          · exact lt_trans hlt (hz w hw)) hs
      · exact List.Pairwise.cons (fun w hw => heq ▸ hz w hw) htail
      · refine List.Pairwise.cons (fun w hw => ?_) (pairwise_insertSorted x htail)
        rcases (mem_insertSorted htail).mp hw with rfl | ⟨hw, -⟩
        · exact lt_of_le_of_ne (not_lt.mp hlt) (Ne.symm heq)
        · exact hz w hw

/-- `ReplaceOrInsert`. -/
def replaceOrInsert (t : OrderedSet key) (x : α) : OrderedSet key :=
  ⟨insertSorted key x t.items, pairwise_insertSorted x t.sorted⟩

/-- `DeleteMin`: drop the least item. -/
def deleteMin (t : OrderedSet key) : OrderedSet key :=
  ⟨t.items.tail, t.sorted.sublist (List.tail_sublist _)⟩

/-- `DeleteMax`: drop the greatest item. -/
def deleteMax (t : OrderedSet key) : OrderedSet key :=
  ⟨t.items.dropLast, t.sorted.sublist (List.dropLast_sublist _)⟩

/-- `GetWithIndex`: the item whose key is `k`, with the number of items below
`k` (its rank when it is stored). -/
def getWithIndex (t : OrderedSet key) (k : K) : Option α × Nat :=
  (t.get k, (t.items.filter fun x => decide (key x < k)).length)

/-- `GetAt`: the item of rank `i`, nil past the last. -/
def getAt (t : OrderedSet key) (i : Nat) : Option α := t.items[i]?

/-- In a list sorted by key, the items before an item lie below it and those
after it above. -/
theorem lt_window {A B : List α} {y : α} (hs : (A ++ y :: B).Pairwise fun a b => key a < key b) :
    (∀ a ∈ A, key a < key y) ∧ ∀ b ∈ B, key y < key b := by
  rw [List.pairwise_append, List.pairwise_cons] at hs
  exact ⟨fun a ha => hs.2.2 a ha y List.mem_cons_self, hs.2.1.1⟩

/-- The items below `k` of a list whose items below `k` come first. -/
theorem filter_lt_append {A B : List α} {k : K} (hA : ∀ a ∈ A, key a < k) (hB : ∀ b ∈ B, ¬ key b < k) :
    (A ++ B).filter (fun a => decide (key a < k)) = A := by
  rw [List.filter_append, List.filter_eq_self.mpr (by simpa using hA),
    List.filter_eq_nil_iff.mpr (by simpa using hB), List.append_nil]

/-- A search by key passes the items known to lie below or above the key. -/
theorem find?_window {P M Q : List α} {k : K} (hP : ∀ p ∈ P, key p < k) (hQ : ∀ q ∈ Q, k < key q) :
    (P ++ M ++ Q).find? (fun y => decide (key y = k)) = M.find? (fun y => decide (key y = k)) := by
  have hP' : P.find? (fun y => decide (key y = k)) = none :=
    List.find?_eq_none.mpr fun p hp => by simpa using ne_of_lt (hP p hp)
  have hQ' : Q.find? (fun y => decide (key y = k)) = none :=
    List.find?_eq_none.mpr fun q hq => by simpa using ne_of_gt (hQ q hq)
  rw [List.find?_append, List.find?_append, hP', hQ', Option.none_or, Option.or_none]

/-- The items below a key, counted past the items known to lie below or above it. -/
theorem length_filter_lt_window {P M Q : List α} {k : K} (hP : ∀ p ∈ P, key p < k)
    (hQ : ∀ q ∈ Q, k < key q) :
    ((P ++ M ++ Q).filter fun y => decide (key y < k)).length =
      P.length + (M.filter fun y => decide (key y < k)).length := by
  have hQ' : (Q.filter fun y => decide (key y < k)) = [] :=
    List.filter_eq_nil_iff.mpr fun q hq => by simpa using le_of_lt (hQ q hq)
  rw [List.filter_append, List.filter_append, List.filter_eq_self.mpr (by simpa using hP), hQ']
  simp

/-- An item of the key of `x`, stored before the items above it: the search by
key finds it and counts the items before it as below `x`. -/
theorem find?_count_present {P Q : List α} {y x : α} (hs : (P ++ y :: Q).Pairwise fun a b => key a < key b)
    (hy : key y = key x) :
    (P ++ y :: Q).find? (fun z => key z = key x) = some y ∧
      ((P ++ y :: Q).filter fun z => key z < key x).length = P.length := by
  obtain ⟨hP, hQ⟩ := lt_window hs
  rw [hy] at hP hQ
  constructor
  · have := find?_window (M := [y]) hP hQ
    simpa [hy] using this
  · have := length_filter_lt_window (M := [y]) hP hQ
    simpa [hy] using this

/-- Where no item has the key of `x`, the search finds nothing and counts the
items of the cut below `x`. -/
theorem find?_count_absent {P Q : List α} {x : α} (hP : ∀ p ∈ P, key p < key x) (hQ : ∀ q ∈ Q, key x < key q) :
    (P ++ Q).find? (fun z => key z = key x) = none ∧
      ((P ++ Q).filter fun z => key z < key x).length = P.length := by
  constructor
  · simpa using find?_window (M := []) hP hQ
  · simpa using length_filter_lt_window (M := []) hP hQ

/-! ## Insertion passes the items known to lie below or above -/

theorem insertSorted_append_left {x : α} (L M : List α) (hL : ∀ e ∈ L, key e < key x) :
    insertSorted key x (L ++ M) = L ++ insertSorted key x M := by
  induction L with
  | nil => rfl
  | cons e L ih =>
    have he : key e < key x := hL e List.mem_cons_self
    simp only [List.cons_append, insertSorted, not_lt_of_gt he, ne_of_gt he, if_false]
    rw [ih fun y hy => hL y (List.mem_cons_of_mem _ hy)]

theorem insertSorted_append_right {x : α} (M R : List α) (hR : ∀ e ∈ R, key x < key e) :
    insertSorted key x (M ++ R) = insertSorted key x M ++ R := by
  induction M with
  | nil =>
    cases R with
    | nil => rfl
    | cons e R => simp [insertSorted, hR e List.mem_cons_self]
  | cons e M ih =>
    simp only [List.cons_append, insertSorted]
    split_ifs <;> simp [ih]

/-- Where no item has its key, insertion puts an item at the cut. -/
theorem insertSorted_absent {x : α} (A B : List α) (hA : ∀ a ∈ A, key a < key x) (hB : ∀ b ∈ B, key x < key b) :
    insertSorted key x (A ++ B) = A ++ x :: B := by
  rw [insertSorted_append_left A B hA]
  cases B with
  | nil => rfl
  | cons b B => simp [insertSorted, hB b List.mem_cons_self]

/-- Insertion adds one item where no item had its key, and replaces one
otherwise. -/
theorem length_insertSorted (x : α) : ∀ {l : List α}, l.Pairwise (fun a b => key a < key b) →
    (insertSorted key x l).length =
      if (l.find? fun y => decide (key y = key x)).isNone then l.length + 1 else l.length
  | [], _ => rfl
  | y :: l, hs => by
    have hy : ∀ z ∈ l, key y < key z := fun z hz => List.rel_of_pairwise_cons hs hz
    unfold insertSorted
    by_cases hlt : key x < key y
    · -- every item from `y` on is above `x`
      have hnone : ((y :: l).find? fun z => decide (key z = key x)) = none :=
        List.find?_eq_none.mpr fun z hz => by
          rcases List.mem_cons.mp hz with rfl | hz
          · simpa using ne_of_gt hlt
          · simpa using ne_of_gt (lt_trans hlt (hy z hz))
      simp [hlt, hnone]
    · by_cases heq : key x = key y
      · simp [heq]
      · simp [hlt, heq, Ne.symm heq, length_insertSorted x (List.Pairwise.of_cons hs)]
        split_ifs <;> rfl

/-- Where an item of the same key is stored, insertion replaces it. -/
theorem insertSorted_present {x : α} (A : List α) (e : α) (B : List α) (hA : ∀ a ∈ A, key a < key x)
    (he : key e = key x) : insertSorted key x (A ++ e :: B) = A ++ x :: B := by
  rw [insertSorted_append_left A _ hA]
  simp [insertSorted, he]

/-! ## Membership -/

@[simp] theorem mem_empty {x : α} : x ∉ (empty key).items := by simp [empty]

@[simp] theorem mem_ascendGreaterOrEqual {t : OrderedSet key} {k : K} {x : α} :
    x ∈ t.ascendGreaterOrEqual k ↔ x ∈ t.items ∧ k ≤ key x := by
  simp [ascendGreaterOrEqual]

@[simp] theorem mem_descendLessOrEqual {t : OrderedSet key} {k : K} {x : α} :
    x ∈ t.descendLessOrEqual k ↔ x ∈ t.items ∧ key x ≤ k := by
  simp [descendLessOrEqual]

@[simp] theorem mem_delete {t : OrderedSet key} {k : K} {x : α} :
    x ∈ (t.delete k).items ↔ x ∈ t.items ∧ key x ≠ k := by
  simp [delete]

@[simp] theorem mem_replaceOrInsert {t : OrderedSet key} {x y : α} :
    y ∈ (t.replaceOrInsert x).items ↔ y = x ∨ (y ∈ t.items ∧ key y ≠ key x) :=
  mem_insertSorted t.sorted

/-- Two members with the same key are the same item. -/
theorem eq_of_key_eq {t : OrderedSet key} {x y : α} (hx : x ∈ t.items) (hy : y ∈ t.items)
    (h : key x = key y) : x = y := by
  have hnodup : (t.items.map key).Nodup := List.pairwise_map.mpr (t.sorted.imp ne_of_lt)
  exact List.inj_on_of_nodup_map hnodup hx hy h

/-- Deleting, one after another, the keys of a list of items. -/
theorem mem_foldl_delete {y : α} :
    ∀ (t : OrderedSet key) (xs : List α),
      y ∈ (xs.foldl (fun t x => t.delete (key x)) t).items ↔ y ∈ t.items ∧ ∀ x ∈ xs, key y ≠ key x
  | t, [] => by simp
  | t, x :: xs => by
      rw [List.foldl_cons, mem_foldl_delete (t.delete (key x)) xs, mem_delete]
      simp only [List.mem_cons, forall_eq_or_imp]
      tauto

/-- Inserting, one after another, items of pairwise different keys. -/
theorem mem_foldl_replaceOrInsert {y : α} :
    ∀ (t : OrderedSet key) {xs : List α}, xs.Pairwise (fun a b => key a ≠ key b) →
      (y ∈ (xs.foldl (fun t x => t.replaceOrInsert x) t).items ↔
        y ∈ xs ∨ (y ∈ t.items ∧ ∀ x ∈ xs, key x ≠ key y))
  | t, [], _ => by simp
  | t, x :: xs, hxs => by
      rw [List.foldl_cons, mem_foldl_replaceOrInsert (t.replaceOrInsert x) (List.Pairwise.of_cons hxs),
        mem_replaceOrInsert]
      have hx : ∀ z ∈ xs, key x ≠ key z := fun z hz => List.rel_of_pairwise_cons hxs hz
      constructor
      · rintro (h | ⟨rfl | ⟨hy, hne⟩, hall⟩)
        · exact .inl (List.mem_cons_of_mem _ h)
        · exact .inl List.mem_cons_self
        · exact .inr ⟨hy, by simpa [Ne.symm hne] using hall⟩
      · rintro (h | ⟨hy, hall⟩)
        · rcases List.mem_cons.mp h with rfl | h
          · exact .inr ⟨.inl rfl, fun z hz => Ne.symm (hx z hz)⟩
          · exact .inl h
        · exact .inr ⟨.inr ⟨hy, Ne.symm (hall x List.mem_cons_self)⟩,
            fun z hz => hall z (List.mem_cons_of_mem _ hz)⟩

/-! ## Lookup and the items as a multiset -/

/-- Keys are unique, so the items have no duplicate. -/
theorem nodup_items (t : OrderedSet key) : t.items.Nodup :=
  t.sorted.imp fun hlt heq => ne_of_lt hlt (congrArg key heq)

theorem get_eq_some_iff {t : OrderedSet key} {k : K} {x : α} :
    t.get k = some x ↔ x ∈ t.items ∧ key x = k := by
  unfold get
  constructor
  · intro h
    have hk : decide (key x = k) = true := List.find?_some (p := fun y => decide (key y = k)) h
    exact ⟨List.mem_of_find?_eq_some h, of_decide_eq_true hk⟩
  · rintro ⟨hx, rfl⟩
    cases h : t.items.find? (fun y => decide (key y = key x)) with
    | none => exact absurd (decide_eq_true rfl) (List.find?_eq_none.mp h x hx)
    | some y =>
      -- the first item found has the key of `x`, so it is `x`
      have hy := List.mem_of_find?_eq_some h
      have hk : decide (key y = key x) = true :=
        List.find?_some (p := fun z => decide (key z = key x)) h
      rw [eq_of_key_eq hy hx (of_decide_eq_true hk)]

theorem get_eq_none_iff {t : OrderedSet key} {k : K} :
    t.get k = none ↔ ∀ x ∈ t.items, key x ≠ k := by
  simp [get, List.find?_eq_none]

/-- A lookup after `ReplaceOrInsert x` finds `x` under its key and what was
stored under every other key. -/
theorem get_replaceOrInsert (t : OrderedSet key) (x : α) (k : K) :
    (t.replaceOrInsert x).get k = if key x = k then some x else t.get k := by
  split_ifs with hx
  · exact get_eq_some_iff.mpr ⟨mem_replaceOrInsert.mpr (.inl rfl), hx⟩
  · refine Option.ext fun y => ?_
    rw [get_eq_some_iff, get_eq_some_iff, mem_replaceOrInsert]
    constructor
    · rintro ⟨rfl | ⟨hy, -⟩, hk⟩
      · exact absurd hk hx
      · exact ⟨hy, hk⟩
    · rintro ⟨hy, rfl⟩
      exact ⟨.inr ⟨hy, Ne.symm hx⟩, rfl⟩

/-- A lookup after `Delete k` finds nothing under `k` and what was stored under
every other key. -/
theorem get_delete (t : OrderedSet key) (k k' : K) :
    (t.delete k).get k' = if k' = k then none else t.get k' := by
  split_ifs with hk
  · subst hk
    exact get_eq_none_iff.mpr fun y hy => (mem_delete.mp hy).2
  · refine Option.ext fun y => ?_
    rw [get_eq_some_iff, get_eq_some_iff, mem_delete]
    constructor
    · rintro ⟨⟨hy, -⟩, hk'⟩
      exact ⟨hy, hk'⟩
    · rintro ⟨hy, rfl⟩
      exact ⟨⟨hy, hk⟩, rfl⟩

/-- The items of `ReplaceOrInsert x` are `x` and the items of other keys. -/
theorem perm_replaceOrInsert (t : OrderedSet key) (x : α) :
    (t.replaceOrInsert x).items.Perm (x :: t.items.filter fun y => key y ≠ key x) := by
  have hnodup : (x :: t.items.filter fun y => key y ≠ key x).Nodup :=
    List.nodup_cons.mpr ⟨by simp, t.nodup_items.filter _⟩
  refine (List.perm_ext_iff_of_nodup (t.replaceOrInsert x).nodup_items hnodup).mpr fun y => ?_
  simp [mem_replaceOrInsert]

/-- The items are a stored item and the items of other keys. -/
theorem perm_cons_filter {t : OrderedSet key} {x : α} (hx : x ∈ t.items) :
    t.items.Perm (x :: t.items.filter fun y => key y ≠ key x) := by
  have hnodup : (x :: t.items.filter fun y => key y ≠ key x).Nodup :=
    List.nodup_cons.mpr ⟨by simp, t.nodup_items.filter _⟩
  refine (List.perm_ext_iff_of_nodup t.nodup_items hnodup).mpr fun y => ?_
  simp only [List.mem_cons, List.mem_filter, decide_eq_true_eq]
  constructor
  · intro hy
    by_cases hk : key y = key x
    · exact .inl (eq_of_key_eq hy hx hk)
    · exact .inr ⟨hy, hk⟩
  · rintro (rfl | ⟨hy, -⟩)
    · exact hx
    · exact hy

/-- Deleting the key of a stored item drops that one item. -/
theorem len_delete_of_mem {t : OrderedSet key} {x : α} (hx : x ∈ t.items) :
    (t.delete (key x)).len + 1 = t.len := by
  unfold len delete
  rw [(perm_cons_filter hx).length_eq, List.length_cons]

/-! ## Visiting in order -/

/-- `AscendGreaterOrEqual` visits in strictly increasing key order. -/
theorem ascendGreaterOrEqual_sorted (t : OrderedSet key) (k : K) :
    (t.ascendGreaterOrEqual k).Pairwise (fun a b => key a < key b) :=
  t.sorted.filter _

/-- `DescendLessOrEqual` visits in strictly decreasing key order. -/
theorem descendLessOrEqual_sorted (t : OrderedSet key) (k : K) :
    (t.descendLessOrEqual k).Pairwise (fun a b => key b < key a) :=
  List.pairwise_reverse.mpr (t.sorted.filter _)

/-- In a list strictly sorted by key, the elements above the last element of
a prefix are the elements after it. -/
theorem filter_lt_getLast {A B : List α} {x : α} (hs : (A ++ B).Pairwise fun a b => key a < key b)
    (hx : A.getLast? = some x) : (A ++ B).filter (fun b => decide (key x < key b)) = B := by
  obtain ⟨A', rfl⟩ := List.getLast?_eq_some_iff.mp hx
  rw [List.pairwise_append, List.pairwise_append] at hs
  obtain ⟨⟨-, -, hA'x⟩, -, hAB⟩ := hs
  have hA' : A'.filter (fun b => decide (key x < key b)) = [] :=
    List.filter_eq_nil_iff.mpr fun a ha => by
      simpa using le_of_lt (hA'x a ha x (List.mem_singleton_self x))
  have hB : B.filter (fun b => decide (key x < key b)) = B :=
    List.filter_eq_self.mpr fun b hb => by simpa using hAB x (by simp) b hb
  rw [List.filter_append, List.filter_append, hA', hB]
  simp

/-- A callback that stops at the first visited item failing `p` visits the items
satisfying it, when `p` only fails from some point of the visit on. -/
theorem takeWhile_eq_filter {p : α → Bool} :
    ∀ {l : List α}, l.Pairwise (fun a b => p b → p a) → l.takeWhile p = l.filter p
  | [], _ => rfl
  | a :: l, h => by
      have ih := takeWhile_eq_filter (List.Pairwise.of_cons h)
      by_cases ha : p a
      · simp [ha, ih]
      · -- every later item fails too
        have hrest : l.filter p = [] :=
          List.filter_eq_nil_iff.mpr fun b hb hpb => ha (List.rel_of_pairwise_cons h hb hpb)
        simp [ha, hrest]

/-! ## The first item visited -/

/-- The first item `AscendGreaterOrEqual` visits is the least item at or above `k`. -/
theorem ascendGreaterOrEqual_head {t : OrderedSet key} {k : K} {x : α} {rest : List α}
    (h : t.ascendGreaterOrEqual k = x :: rest) :
    x ∈ t.items ∧ k ≤ key x ∧ ∀ y ∈ t.items, k ≤ key y → key x ≤ key y := by
  have hmem : x ∈ t.ascendGreaterOrEqual k := h ▸ List.mem_cons_self
  have hsorted : (t.ascendGreaterOrEqual k).Pairwise (fun a b => key a < key b) :=
    t.sorted.filter _
  rw [h] at hsorted
  refine ⟨(mem_ascendGreaterOrEqual.mp hmem).1, (mem_ascendGreaterOrEqual.mp hmem).2, ?_⟩
  intro y hy hky
  have hy' : y ∈ x :: rest := h ▸ mem_ascendGreaterOrEqual.mpr ⟨hy, hky⟩
  rcases List.mem_cons.mp hy' with rfl | hy'
  · exact le_rfl
  · exact le_of_lt (List.rel_of_pairwise_cons hsorted hy')

/-- The first item `DescendLessOrEqual` visits is the greatest item at or below `k`. -/
theorem descendLessOrEqual_head {t : OrderedSet key} {k : K} {x : α} {rest : List α}
    (h : t.descendLessOrEqual k = x :: rest) :
    x ∈ t.items ∧ key x ≤ k ∧ ∀ y ∈ t.items, key y ≤ k → key y ≤ key x := by
  have hmem : x ∈ t.descendLessOrEqual k := h ▸ List.mem_cons_self
  have hsorted := t.descendLessOrEqual_sorted k
  rw [h] at hsorted
  refine ⟨(mem_descendLessOrEqual.mp hmem).1, (mem_descendLessOrEqual.mp hmem).2, ?_⟩
  intro y hy hyk
  have hy' : y ∈ x :: rest := h ▸ mem_descendLessOrEqual.mpr ⟨hy, hyk⟩
  rcases List.mem_cons.mp hy' with rfl | hy'
  · exact le_rfl
  · exact le_of_lt (List.rel_of_pairwise_cons hsorted hy')

/-! ## Ranks -/

theorem getWithIndex_snd_le_len (t : OrderedSet key) (k : K) : (t.getWithIndex k).2 ≤ t.len :=
  List.length_filter_le _ _

theorem getAt_isSome_iff {t : OrderedSet key} {i : Nat} : (t.getAt i).isSome ↔ i < t.len := by
  simp [getAt, len]

theorem mem_of_getAt {t : OrderedSet key} {i : Nat} {x : α} (h : t.getAt i = some x) : x ∈ t.items :=
  List.mem_of_getElem? h

/-- The rank of a stored item is the number of items below its key. -/
theorem getAt_getWithIndex {t : OrderedSet key} {x : α} (hx : x ∈ t.items) :
    t.getAt (t.getWithIndex (key x)).2 = some x := by
  obtain ⟨A, B, hAB⟩ := List.append_of_mem hx
  have hs := t.sorted
  rw [hAB] at hs
  obtain ⟨-, hcount⟩ := find?_count_present hs rfl
  simp only [getAt, getWithIndex, hAB, hcount]
  simp

/-- Fewer items lie below a smaller key. -/
theorem getWithIndex_snd_mono (t : OrderedSet key) {k k' : K} (h : k ≤ k') :
    (t.getWithIndex k).2 ≤ (t.getWithIndex k').2 :=
  (List.monotone_filter_right _ fun a ha => by
    simp only [decide_eq_true_eq] at ha ⊢
    exact lt_of_lt_of_le ha h).length_le

/-- A stored item below `k` ranks below the number of items below `k`. -/
theorem getWithIndex_snd_lt {t : OrderedSet key} {x : α} {k : K} (hx : x ∈ t.items) (hk : key x < k) :
    (t.getWithIndex (key x)).2 < (t.getWithIndex k).2 := by
  obtain ⟨A, B, hAB⟩ := List.append_of_mem hx
  have hs := t.sorted
  rw [hAB] at hs
  obtain ⟨hA, -⟩ := lt_window hs
  obtain ⟨-, hcount⟩ := find?_count_present hs rfl
  -- below `k` lie the items before `x`, and `x` itself
  have hA' : A.filter (fun a => decide (key a < k)) = A :=
    List.filter_eq_self.mpr fun a ha => by simpa using lt_trans (hA a ha) hk
  simp only [getWithIndex, hAB]
  rw [hcount, List.filter_append, hA', List.length_append,
    List.filter_cons_of_pos (p := fun z => decide (key z < k)) (decide_eq_true hk), List.length_cons]
  omega

end OrderedSet
