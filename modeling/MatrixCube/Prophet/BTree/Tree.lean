import MatrixCube.Prophet.BTree.Query
import MatrixCube.Prophet.BTree.Insert
import MatrixCube.Prophet.BTree.Remove

/-! # The tree over any sequence of writes

`BTree` keeps its root `Good` at height `h` with no lower bound, and a root
that is a leaf or holds an item. `ReplaceOrInsert` splits a full root under a
new one and inserts (`insert_eq`); `deleteItem` removes with the fuel
`2 * height + 2` (`remove_eq`) and replaces a root left without items by its
only child. `Holds t s` says that the tree `t` stores the sorted set `s`: each
write keeps it with the set's own write (`apply_holds`), so every run of writes
from `New` does (`run_holds`), and the queries then answer as the set does.
-/

namespace MatrixCube.Prophet.Btree

variable {α : Type*}

namespace Node

variable {minItems maxItems : Nat}

/-- Only a node of height zero has no children. -/
theorem Good.eq_zero_of_children_eq_nil {h lo : Nat} {n : Node α} (hg : Good minItems maxItems h lo n)
    (hc : n.children = []) : h = 0 := by
  cases h with
  | zero => rfl
  | succ h =>
    have hlen := hg.1
    simp [hc] at hlen

theorem flat_only_child (c : Node α) (indices : List Int) : flat (mk [] [c] indices) = flat c := by
  simp [flat_cons, post]

/-- At every node, `indices[i]` is `children[0].length()` for `i = 0` and
`indices[i-1] + 1 + children[i].length()` after it, as `initSize` computes
them. -/
def RanksOk : Nat → Node α → Prop
  | 0, n => n.indices = sizeIndices (n.children.map Node.length)
  | h + 1, n => n.indices = sizeIndices (n.children.map Node.length) ∧ ∀ c ∈ n.children, RanksOk h c

theorem Good.ranksOk : ∀ {h lo : Nat} {n : Node α}, Good minItems maxItems h lo n → RanksOk h n
  | 0, _, mk _ _ _, hg => by
    obtain ⟨hc, hi, -⟩ := hg
    simp only [children_mk, indices_mk] at hc hi
    simp [RanksOk, hc, hi, sizeIndices]
  | h + 1, _, mk items children indices, hg => by
    refine ⟨?_, fun c hc => (hg.child hc).ranksOk⟩
    rw [map_length_eq_sizes fun c hc => hg.child hc]
    exact hg.2.1

variable [Inhabited α]

/-- The root `ReplaceOrInsert` inserts into: a full root is split around its
middle item under a new root one level up, which is not full and holds an
item. -/
theorem splitRoot_eq (hmax : maxItems = 2 * minItems + 1) (hmin : 1 ≤ minItems) {h : Nat} {root : Node α}
    (hg : Good minItems maxItems h 0 root) (hne : root.children = [] ∨ root.items ≠ []) :
    ∃ root' h', (if maxItems ≤ root.items.length then
        (mk [(root.split (maxItems / 2)).1] [(root.split (maxItems / 2)).2.1, (root.split (maxItems / 2)).2.2]
          []).initSize else root) = root' ∧
      Good minItems maxItems h' 0 root' ∧ root'.items.length < maxItems ∧
      (root'.children = [] ∨ root'.items ≠ []) ∧ flat root' = flat root := by
  by_cases hfull : maxItems ≤ root.items.length
  · rw [if_pos hfull]
    have hlen : root.items.length = 2 * minItems + 1 := by have := hg.le_max; omega
    obtain ⟨items, children, indices⟩ := root
    simp only [items_mk] at hlen
    obtain ⟨X, y, Y, rfl, hX⟩ := List.exists_append_cons_of_lt (show minItems < items.length by omega)
    have hY : Y.length = minItems := by simp at hlen; omega
    obtain ⟨first, second, hsplit, hflat, hfirst, hsecond, -, -⟩ := split_eq hg
    rw [show maxItems / 2 = X.length by omega, hsplit]
    have hcs : ∀ c ∈ [first, second], Good minItems maxItems h minItems c := by
      intro c hc
      simp only [List.mem_cons, List.not_mem_nil, or_false] at hc
      rcases hc with rfl | rfl
      · exact hX ▸ hfirst
      · exact hY ▸ hsecond
    refine ⟨_, h + 1, rfl, ?_, by simp [initSize]; omega, .inr (by simp [initSize]), ?_⟩
    · simp only [initSize, map_length_eq_sizes hcs]
      exact good_internal rfl (Nat.zero_le _) (by simp; omega) hcs
    · rw [initSize, flat_cons, ← hflat]
      simp [post]
  · rw [if_neg hfull]
    exact ⟨root, h, rfl, hg, by omega, hne, rfl⟩

end Node

namespace BTree

open Node

variable {K : Type*} [LinearOrder K] (key : α → K)

/-- The root of a tree holding the items `l` in order: none for the empty
tree, or a well-formed subtree of some height that is a leaf or has an item. -/
def RootHolds (minItems maxItems : Nat) : Option (Node α) → List α → Prop
  | none, l => l = []
  | some root, l => ∃ h, Good minItems maxItems h 0 root ∧ (root.children = [] ∨ root.items ≠ []) ∧ flat root = l

/-- A tree of degree at least 2 holding the sorted set `s`: its root holds the
items of `s` in order and `length` counts them. -/
structure Holds (t : BTree α) (s : OrderedSet key) : Prop where
  degree : 2 ≤ t.degree
  length : t.length = s.len
  root : RootHolds t.minItems t.maxItems t.root s.items

theorem maxItems_eq {t : BTree α} (hd : 2 ≤ t.degree) : t.maxItems = 2 * t.minItems + 1 := by
  simp only [maxItems, minItems]
  omega

theorem one_le_minItems {t : BTree α} (hd : 2 ≤ t.degree) : 1 ≤ t.minItems := by
  simp only [minItems]
  omega

/-- The writes of a tree. -/
inductive Op (α : Type*) where
  | replaceOrInsert (item : α)
  | delete (item : α)
  | deleteMin
  | deleteMax

variable {key}

/-- `Holds` reads only the items of the set. -/
theorem Holds.of_items_eq {t : BTree α} {s s' : OrderedSet key} (ht : Holds key t s) (hs : s.items = s'.items) :
    Holds key t s' :=
  ⟨ht.degree, by simp only [ht.length, OrderedSet.len, hs], hs ▸ ht.root⟩

/-- A tree with no root, or with a root that has no item, holds nothing. -/
theorem Holds.items_eq_nil {t : BTree α} {s : OrderedSet key} (ht : Holds key t s)
    (hr : ∀ root, t.root = some root → root.items = []) : s.items = [] := by
  have hroot := ht.root
  cases hroot' : t.root with
  | none => simpa [hroot', RootHolds] using hroot
  | some root =>
    rw [hroot'] at hroot
    obtain ⟨h, hg, hne, hflat⟩ := hroot
    have hi := hr root hroot'
    have hc : root.children = [] := by simpa [hi] using hne
    obtain ⟨items, children, indices⟩ := root
    simp only [items_mk, children_mk] at hi hc
    subst hi hc
    simpa using hflat.symm

/-- A write on the sorted set: the set after it and the item it returns. -/
def applySet (s : OrderedSet key) : Op α → OrderedSet key × Option α
  | .replaceOrInsert item => (s.replaceOrInsert item, s.get (key item))
  | .delete item => (s.delete (key item), s.get (key item))
  | .deleteMin => (s.deleteMin, s.items.head?)
  | .deleteMax => (s.deleteMax, s.items.getLast?)

/-- The sorted set after writes one after another. -/
def runSet (s : OrderedSet key) : List (Op α) → OrderedSet key
  | [] => s
  | op :: ops => runSet (applySet s op).1 ops

theorem new_holds {d : Nat} (hd : 2 ≤ d) :
    ∃ t, (new d : Option (BTree α)) = some t ∧ Holds key t (OrderedSet.empty key) :=
  ⟨⟨d, none, 0⟩, by simp [new]; omega, hd, rfl, rfl⟩

/-- The root `deleteItem` keeps after a removal: one left without items gives
way to its only child. -/
theorem rootHolds_collapse {minItems maxItems h : Nat} {n : Node α} (hmin : 1 ≤ minItems)
    (hg : Good minItems maxItems h 0 n) :
    RootHolds minItems maxItems (some (if n.items = [] ∧ n.children ≠ [] then n.children.getD 0 default else n))
      (flat n) := by
  by_cases hcol : n.items = [] ∧ n.children ≠ []
  · rw [if_pos hcol]
    obtain ⟨hi, hc⟩ := hcol
    cases h with
    | zero => exact absurd hg.1 hc
    | succ h =>
      obtain ⟨items, children, indices⟩ := n
      simp only [items_mk, children_mk] at hi hc
      subst hi
      -- with no items, the root has exactly one child, which holds at least `minItems`
      obtain ⟨c, rfl⟩ : ∃ c, children = [c] := List.length_eq_one_iff.mp (by simpa using hg.1)
      have hgc : Good minItems maxItems h minItems c := hg.child (by simp)
      refine ⟨h, hgc.mono (Nat.zero_le _), .inr ?_, by simp [flat_only_child]⟩
      exact List.ne_nil_of_length_pos (Nat.lt_of_lt_of_le hmin hgc.lo_le)
  · rw [if_neg hcol]
    refine ⟨h, hg, ?_, rfl⟩
    rcases eq_or_ne n.items [] with hi | hi
    · exact .inl (by simpa [hi] using hcol)
    · exact .inr hi

/-- `Len` is the number of items, and so is the root's `length()`. -/
theorem Holds.getRootLength_eq {t : BTree α} {s : OrderedSet key} (ht : Holds key t s) :
    t.getRootLength = t.len := by
  have hroot := ht.root
  simp only [len, ht.length, OrderedSet.len]
  cases hr : t.root with
  | none =>
    rw [hr] at hroot
    simp [getRootLength, hr, show s.items = [] from hroot]
  | some root =>
    rw [hr] at hroot
    obtain ⟨h, hg, -, hflat⟩ := hroot
    simp [getRootLength, hr, hg.length_eq, hflat]

theorem Holds.ranksOk {t : BTree α} {s : OrderedSet key} (ht : Holds key t s) :
    ∀ root, t.root = some root → RanksOk root.height root := by
  intro root hr
  have hroot := ht.root
  rw [hr] at hroot
  obtain ⟨h, hg, -⟩ := hroot
  rw [hg.height]
  exact hg.ranksOk

/-- `Min()` is the least item, nil for an empty tree. -/
theorem Holds.min_eq {t : BTree α} {s : OrderedSet key} (ht : Holds key t s) : t.min = some s.items.head? := by
  have hroot := ht.root
  cases hr : t.root with
  | none =>
    rw [hr] at hroot
    simp [min, hr, show s.items = [] from hroot]
  | some root =>
    rw [hr] at hroot
    obtain ⟨h, hg, -, hflat⟩ := hroot
    simp only [min, hr]
    rw [Node.min_eq (one_le_minItems ht.degree) hg (by rw [hg.height]; omega), hflat]

/-- `Max()` is the greatest item, nil for an empty tree. -/
theorem Holds.max_eq {t : BTree α} {s : OrderedSet key} (ht : Holds key t s) : t.max = some s.items.getLast? := by
  have hroot := ht.root
  cases hr : t.root with
  | none =>
    rw [hr] at hroot
    simp [max, hr, show s.items = [] from hroot]
  | some root =>
    rw [hr] at hroot
    obtain ⟨h, hg, -, hflat⟩ := hroot
    simp only [max, hr]
    rw [Node.max_eq (one_le_minItems ht.degree) hg (by rw [hg.height]; omega), hflat]

variable [Inhabited α]

variable (key) in
/-- A write on the tree: the tree after it and the item it returns. -/
def apply (t : BTree α) : Op α → Option (BTree α × Option α)
  | .replaceOrInsert item => t.replaceOrInsert key item
  | .delete item => t.delete key item
  | .deleteMin => t.deleteMin key
  | .deleteMax => t.deleteMax key

variable (key) in
/-- The tree after writes one after another; none where a write runs out of
fuel. -/
def run (t : BTree α) : List (Op α) → Option (BTree α)
  | [] => some t
  | op :: ops => (t.apply key op).bind fun r => r.1.run ops

/-- `ReplaceOrInsert` is the sorted set's, and returns the item it replaced. -/
theorem replaceOrInsert_holds {t : BTree α} {s : OrderedSet key} (ht : Holds key t s) (item : α) :
    ∃ t', t.replaceOrInsert key item = some (t', s.get (key item)) ∧ Holds key t' (s.replaceOrInsert item) := by
  have hmax := maxItems_eq ht.degree
  have hroot := ht.root
  cases hr : t.root with
  | none =>
    rw [hr] at hroot
    have hs : s.items = [] := hroot
    refine ⟨⟨t.degree, some (Node.mk [item] [] []), t.length + 1⟩,
      by simp [replaceOrInsert, hr, OrderedSet.get, hs], ht.degree, ?_, ?_⟩
    · simp [OrderedSet.len, OrderedSet.replaceOrInsert, hs, OrderedSet.insertSorted, ht.length]
    · refine ⟨0, good_leaf (by simp) (show 1 ≤ t.maxItems by omega), .inl rfl, ?_⟩
      simp [OrderedSet.replaceOrInsert, hs, OrderedSet.insertSorted]
  | some root =>
    rw [hr] at hroot
    obtain ⟨h, hg, hne, hflat⟩ := hroot
    obtain ⟨root', h', hroot', hg', hlt, hne', hflat'⟩ := splitRoot_eq hmax (one_le_minItems ht.degree) hg hne
    have hs : (flat root').Pairwise fun a b => key a < key b := by
      rw [hflat', hflat]
      exact s.sorted
    -- inserting from the bound `root'.items.length` keeps every item of the root
    obtain ⟨n', hins, hgn, hflatn⟩ := insert_eq key hmax item (hg'.with_lo le_rfl) hlt hs
      (show h' < root'.height + 1 by rw [hg'.height]; omega)
    rw [hflat', hflat] at hins hflatn
    refine ⟨⟨t.degree, some n', if (s.get (key item)).isNone then t.length + 1 else t.length⟩, ?_, ht.degree,
      ?_, ⟨h', hgn.with_lo (Nat.zero_le _), ?_, hflatn⟩⟩
    · simp only [replaceOrInsert, hr, hroot', hins, Option.map_some]
      rfl
    · simp only [OrderedSet.len, OrderedSet.replaceOrInsert, OrderedSet.length_insertSorted item s.sorted,
        OrderedSet.get, ht.length]
      split_ifs <;> simp
    · rcases hne' with hc | hi
      · have h0 := hg'.eq_zero_of_children_eq_nil hc
        subst h0
        exact .inl hgn.1
      · exact .inr (List.ne_nil_of_length_pos (Nat.lt_of_lt_of_le (List.length_pos_of_ne_nil hi) hgn.lo_le))

/-- `deleteItem` removes from the sorted set as `removed` says, and returns the
item removed. -/
theorem deleteItem_holds {t : BTree α} {s : OrderedSet key} (ht : Holds key t s) (item : α) (typ : ToRemove) :
    ∃ t', t.deleteItem key item typ = some (t', (removed key typ item s.items).2) ∧
      Holds key t' ⟨(removed key typ item s.items).1, s.sorted.sublist (removed_sublist key typ item s.items)⟩ := by
  by_cases hempty : ∀ root, t.root = some root → root.items = []
  · -- a tree without items is left as it is
    have hs := ht.items_eq_nil hempty
    have hdel : t.deleteItem key item typ = some (t, none) := by
      cases hr : t.root with
      | none => simp [deleteItem, hr]
      | some root => simp [deleteItem, hr, hempty root hr]
    exact ⟨t, by rw [hdel, hs, removed_nil], ht.of_items_eq (by simp [hs])⟩
  · simp only [not_forall, exists_prop] at hempty
    obtain ⟨root, hr, hne⟩ := hempty
    have hroot := ht.root
    rw [hr] at hroot
    obtain ⟨h, hg, -, hflat⟩ := hroot
    have hs : (flat root).Pairwise fun a b => key a < key b := hflat ▸ s.sorted
    -- a root with an item is good from the bound 1, so the removal may take one
    obtain ⟨n', hrem, hgn, hflatn⟩ := remove_eq key (maxItems_eq ht.degree) typ item
      (hg.with_lo (List.length_pos_of_ne_nil hne)) hs (show 2 * h < 2 * root.height + 2 by rw [hg.height]; omega)
    rw [hflat] at hrem hflatn
    refine ⟨⟨t.degree, some (if n'.items = [] ∧ n'.children ≠ [] then n'.children.getD 0 default else n'),
      if (removed key typ item s.items).2.isSome then t.length - 1 else t.length⟩, ?_, ht.degree, ?_, ?_⟩
    · simp only [deleteItem, hr, if_neg hne, hrem, Option.map_some]
    · have hlen := length_removed key typ item s.sorted
      simp only [OrderedSet.len, ht.length]
      split_ifs at hlen ⊢ <;> omega
    · show RootHolds _ _ _ (removed key typ item s.items).1
      rw [← hflatn]
      exact rootHolds_collapse (one_le_minItems ht.degree) hgn

/-- Each write is the sorted set's, and returns what the set's returns. -/
theorem apply_holds {t : BTree α} {s : OrderedSet key} (ht : Holds key t s) (op : Op α) :
    ∃ t', t.apply key op = some (t', (applySet s op).2) ∧ Holds key t' (applySet s op).1 := by
  cases op with
  | replaceOrInsert item => exact replaceOrInsert_holds ht item
  | delete item => exact deleteItem_holds ht item .removeItem
  | deleteMin => exact deleteItem_holds ht default .removeMin
  | deleteMax => exact deleteItem_holds ht default .removeMax

/-- Every run of writes keeps `Holds`, with the set's run. -/
theorem run_holds {t : BTree α} {s : OrderedSet key} (ht : Holds key t s) (ops : List (Op α)) :
    ∃ t', t.run key ops = some t' ∧ Holds key t' (runSet s ops) := by
  induction ops generalizing t s with
  | nil => exact ⟨t, rfl, ht⟩
  | cons op ops ih =>
    obtain ⟨t₁, hstep, ht₁⟩ := apply_holds ht op
    obtain ⟨t', hrun, ht'⟩ := ih ht₁
    exact ⟨t', by simp [run, hstep, hrun], ht'⟩

variable (key) in
/-- Every tree that writes reach from `New` holds the set the same writes give. -/
theorem new_run_holds {d : Nat} (hd : 2 ≤ d) (ops : List (Op α)) :
    ∃ t, ((new d : Option (BTree α)).bind fun t => t.run key ops) = some t ∧
      Holds key t (runSet (OrderedSet.empty key) ops) := by
  obtain ⟨t₀, hnew, ht₀⟩ : ∃ t, (new d : Option (BTree α)) = some t ∧ Holds key t (OrderedSet.empty key) :=
    new_holds hd
  obtain ⟨t, hrun, ht⟩ := run_holds ht₀ ops
  exact ⟨t, by rw [hnew, Option.bind_some, hrun], ht⟩

/-- `GetAt(k)` is the item of rank `k` for `0 ≤ k < Len()`, and nil outside. -/
theorem Holds.getAt_eq {t : BTree α} {s : OrderedSet key} (ht : Holds key t s) (k : Int) :
    t.getAt k = some (if 0 ≤ k ∧ k < t.len then s.getAt k.toNat else none) := by
  have hroot := ht.root
  -- `Node.getAt_eq` reads a negative rank as nil and one past the items as none
  have hrank : (if k < 0 then none else s.items[k.toNat]?) =
      (if 0 ≤ k ∧ k < t.len then s.getAt k.toNat else none) := by
    simp only [len, ht.length, OrderedSet.len, OrderedSet.getAt]
    by_cases hk : k < 0
    · rw [if_pos hk, if_neg (by omega)]
    · by_cases hlt : k < s.items.length
      · rw [if_neg hk, if_pos ⟨by omega, hlt⟩]
      · rw [if_neg hk, if_neg (by omega), List.getElem?_eq_none (by omega)]
  rw [← hrank]
  cases hr : t.root with
  | none =>
    rw [hr] at hroot
    simp [getAt, hr, show s.items = [] from hroot]
  | some root =>
    rw [hr] at hroot
    obtain ⟨h, hg, -, hflat⟩ := hroot
    simp only [getAt, hr]
    rw [Node.getAt_eq hg (by rw [hg.height]; omega) k, hflat]

/-- `GetWithIndex(x)` is the item of `x`'s key, nil when there is none, with
the number of items below `x`. -/
theorem Holds.getWithIndex_eq {t : BTree α} {s : OrderedSet key} (ht : Holds key t s) (x : α) :
    t.getWithIndex key x = some ((s.getWithIndex (key x)).1, ((s.getWithIndex (key x)).2 : Int)) := by
  have hroot := ht.root
  cases hr : t.root with
  | none =>
    rw [hr] at hroot
    simp [getWithIndex, hr, OrderedSet.getWithIndex, OrderedSet.get, show s.items = [] from hroot]
  | some root =>
    rw [hr] at hroot
    obtain ⟨h, hg, -, hflat⟩ := hroot
    simp only [getWithIndex, hr]
    rw [Node.getWithIndex_eq key hg (hflat ▸ s.sorted) (by rw [hg.height]; omega) x, hflat]
    rfl

/-- `Get(x)` returns the item of the key of `x`, nil when there is none. -/
theorem Holds.get_eq {t : BTree α} {s : OrderedSet key} (ht : Holds key t s) (x : α) :
    t.get key x = some (s.get (key x)) := by
  have hroot := ht.root
  cases hr : t.root with
  | none =>
    rw [hr] at hroot
    simp [get, hr, OrderedSet.get, show s.items = [] from hroot]
  | some root =>
    rw [hr] at hroot
    obtain ⟨h, hg, -, hflat⟩ := hroot
    simp only [get, hr]
    rw [Node.get_eq key hg (hflat ▸ s.sorted) (by rw [hg.height]; omega) x, hflat]
    rfl

theorem Holds.has_eq {t : BTree α} {s : OrderedSet key} (ht : Holds key t s) (x : α) :
    t.has key x = some (s.get (key x)).isSome := by
  rw [has, ht.get_eq, Option.map_some]

variable (key) in
theorem run_orderStatistics {d : Nat} (hd : 2 ≤ d) (ops : List (Op α)) :
    ∃ t, ((new d : Option (BTree α)).bind fun t => t.run key ops) = some t ∧
      Holds key t (runSet (OrderedSet.empty key) ops) ∧
      t.len = (runSet (OrderedSet.empty key) ops).len ∧ t.getRootLength = t.len ∧
      (∀ root, t.root = some root → RanksOk root.height root) ∧
      (∀ k : Int, t.getAt k =
        some (if 0 ≤ k ∧ k < t.len then (runSet (OrderedSet.empty key) ops).getAt k.toNat else none)) ∧
      ∀ x : α, t.getWithIndex key x = some (((runSet (OrderedSet.empty key) ops).getWithIndex (key x)).1,
        (((runSet (OrderedSet.empty key) ops).getWithIndex (key x)).2 : Int)) := by
  obtain ⟨t₀, hnew, ht₀⟩ : ∃ t, (new d : Option (BTree α)) = some t ∧ Holds key t (OrderedSet.empty key) :=
    new_holds hd
  obtain ⟨t, hrun, ht⟩ := run_holds ht₀ ops
  exact ⟨t, by rw [hnew, Option.bind_some, hrun], ht, ht.length, ht.getRootLength_eq, ht.ranksOk, ht.getAt_eq,
    ht.getWithIndex_eq⟩

theorem run_orderStatistics_two : 2 ≤ 2 ∧
    ∃ t, ((new 2 : Option (BTree Nat)).bind fun t =>
        t.run id [.replaceOrInsert 3, .replaceOrInsert 1, .deleteMin]) = some t ∧
      Holds id t (runSet (OrderedSet.empty id) [.replaceOrInsert 3, .replaceOrInsert 1, .deleteMin]) ∧
      t.len = (runSet (OrderedSet.empty id) [.replaceOrInsert 3, .replaceOrInsert 1, .deleteMin]).len ∧
      t.getRootLength = t.len ∧
      (∀ root, t.root = some root → RanksOk root.height root) ∧
      (∀ k : Int, t.getAt k = some (if 0 ≤ k ∧ k < t.len then
        (runSet (OrderedSet.empty id) [.replaceOrInsert 3, .replaceOrInsert 1, .deleteMin]).getAt k.toNat
        else none)) ∧
      ∀ x : Nat, t.getWithIndex id x =
        some (((runSet (OrderedSet.empty id) [.replaceOrInsert 3, .replaceOrInsert 1, .deleteMin]).getWithIndex
          (id x)).1,
        (((runSet (OrderedSet.empty id) [.replaceOrInsert 3, .replaceOrInsert 1, .deleteMin]).getWithIndex
          (id x)).2 : Int)) :=
  ⟨le_rfl, run_orderStatistics id (by decide) _⟩

variable (key) in
theorem run_lookups {d : Nat} (hd : 2 ≤ d) (ops : List (Op α)) :
    ∃ t, ((new d : Option (BTree α)).bind fun t => t.run key ops) = some t ∧
      (∀ x : α, t.get key x = some ((runSet (OrderedSet.empty key) ops).get (key x)) ∧
        t.has key x = some ((runSet (OrderedSet.empty key) ops).get (key x)).isSome) ∧
      t.min = some (runSet (OrderedSet.empty key) ops).items.head? ∧
      t.max = some (runSet (OrderedSet.empty key) ops).items.getLast? := by
  obtain ⟨t, hrun, ht⟩ := new_run_holds key hd ops
  exact ⟨t, hrun, fun x => ⟨ht.get_eq x, ht.has_eq x⟩, ht.min_eq, ht.max_eq⟩

theorem run_lookups_two : 2 ≤ 2 ∧
    ∃ t, ((new 2 : Option (BTree Nat)).bind fun t =>
        t.run id [.replaceOrInsert 3, .replaceOrInsert 1, .deleteMin]) = some t ∧
      (∀ x : Nat, t.get id x =
          some ((runSet (OrderedSet.empty id) [.replaceOrInsert 3, .replaceOrInsert 1, .deleteMin]).get (id x)) ∧
        t.has id x = some ((runSet (OrderedSet.empty id)
          [.replaceOrInsert 3, .replaceOrInsert 1, .deleteMin]).get (id x)).isSome) ∧
      t.min = some (runSet (OrderedSet.empty id) [.replaceOrInsert 3, .replaceOrInsert 1, .deleteMin]).items.head? ∧
      t.max = some (runSet (OrderedSet.empty id) [.replaceOrInsert 3, .replaceOrInsert 1, .deleteMin]).items.getLast? :=
  ⟨le_rfl, run_lookups id (by decide) _⟩

end BTree

end MatrixCube.Prophet.Btree
