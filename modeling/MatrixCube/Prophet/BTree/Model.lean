import MatrixCube.Lib.Search

/-! # The indexed B-tree of prophet

`components/prophet/util/btree` is google/btree with order statistics: an
internal node keeps, beside its items and children, an array `indices` whose
entry `i` is the rank of `items[i]` in the subtree,

    indices[i] = if i == 0 { children[0].length() }
                 else { indices[i-1] + 1 + children[i].length() }

so that its last entry is the size of the subtree. Every operation that moves
items or children between nodes patches these arrays, and `GetAt(k)` and
`GetWithIndex(x)` read them.

Items are ordered by `Less`, a strict weak order; the model compares a key of
each item in a linear order, which every strict weak order is (the quotient
by incomparability). The zero value of an item (`nil`) is `default`. The free
list and the copy-on-write context only recycle nodes (`freeNode` clears
them), so nodes are values. Go panics on an index out of range; the model
reads a default there, and the invariants of the proofs keep every index in
range. Recursion down the tree takes fuel: the height of the tree, twice over
for removal, whose rebalancing calls `remove` again on the same node.
-/

namespace MatrixCube.Prophet.Btree

variable {α K : Type*} [LinearOrder K] (key : α → K) [Inhabited α]

/-- `items.find`: `sort.Search` for the first item above `item`; the item just
before it equals `item` when it is not below it. -/
def findItem (s : List α) (item : α) : Nat × Bool :=
  let i := BinarySearch.search s.length fun i => decide (key item < key (s.getD i default))
  if 0 < i ∧ ¬ key (s.getD (i - 1) default) < key item then (i - 1, true) else (i, false)

/-! ## `indices` -/

namespace Indices

/-- `indices.addAt`: `delta` added to the entries from `index` on. -/
def addAt (s : List Int) (index : Nat) (delta : Int) : List Int :=
  s.take index ++ (s.drop index).map (· + delta)

/-- `indices.insertAt`: one more slot; from the end down to `index`, and not
below 1, each entry becomes the one before it plus `sz + 1`; entry 0 becomes
`sz` when `index` is 0. -/
def insertAt (s : List Int) (index : Nat) (sz : Int) : List Int :=
  (List.range (s.length + 1)).map fun i =>
    if index ≤ i ∧ 0 < i then s.getD (i - 1) (-1) + sz + 1
    else if i = 0 ∧ index = 0 then sz
    else s.getD i (-1)

/-- `indices.push`. -/
def push (s : List Int) (sz : Int) : List Int :=
  match s.getLast? with
  | none => [sz]
  | some last => s ++ [last + 1 + sz]

/-- `indices.split`: child `index` was split, and its part after the moved
item, of size `nextSize`, is child `index + 1`. -/
def split (s : List Int) (index : Nat) (nextSize : Int) : List Int :=
  let s := insertAt s (index + 1) (-1)
  s.set index (s.getD index 0 - (1 + nextSize))

/-- `indices.merge`: children `index` and `index + 1` were merged. -/
def merge (s : List Int) (index : Nat) : List Int :=
  (List.range (s.length - 1)).map fun i => if index ≤ i then s.getD (i + 1) 0 else s.getD i 0

/-- `indices.removeAt`: drop child `index`, returning its size. -/
def removeAt (s : List Int) (index : Nat) : List Int × Int :=
  let sz := if 0 < index then s.getD index 0 - s.getD (index - 1) 0 - 1 else s.getD index 0
  ((List.range (s.length - 1)).map fun i =>
    if index ≤ i then s.getD (i + 1) 0 - sz - 1 else s.getD i 0, sz)

/-- `indices.pop`: drop the last child, returning its size. -/
def pop (s : List Int) : List Int × Int :=
  let l := s.length
  let out := if l ≠ 1 then s.getD (l - 1) 0 - (s.getD (l - 2) 0 + 1) else s.getD (l - 1) 0
  (s.take (l - 1), out)

/-- `indices.find`: `sort.SearchInts` for the first entry at least `k`, and
whether it is `k`. -/
def find (s : List Int) (k : Int) : Nat × Bool :=
  let i := BinarySearch.search s.length fun i => decide (k ≤ s.getD i 0)
  (i, decide (s.getD i 0 = k))

end Indices

/-- The loop of `initSize`: the size of the first child, then each index one
past the one before plus the size of its child. -/
def sizeIndices : List Int → List Int
  | [] => []
  | s :: ss => go s ss
where
  go (acc : Int) : List Int → List Int
    | [] => [acc]
    | s :: ss => acc :: go (acc + 1 + s) ss

/-! ## Nodes -/

/-- `direction`. -/
inductive Direction where
  | descend
  | ascend
  deriving DecidableEq, Repr

/-- `node`: the items, the children (none in a leaf) and their `indices`. -/
inductive Node (α : Type*) where
  | mk (items : List α) (children : List (Node α)) (indices : List Int)

namespace Node

instance : Inhabited (Node α) := ⟨mk [] [] []⟩

/-- The items of a node. -/
def items : Node α → List α
  | mk items _ _ => items

/-- The children of a node. -/
def children : Node α → List (Node α)
  | mk _ children _ => children

/-- The `indices` of a node. -/
def indices : Node α → List Int
  | mk _ _ indices => indices

/-- `node.length`: the last index, or the number of items when there is none. -/
def length (n : Node α) : Int :=
  match n.indices.getLast? with
  | none => n.items.length
  | some last => last

/-- `node.initSize`. -/
def initSize : Node α → Node α
  | mk items children _ => mk items children (sizeIndices (children.map length))

/-- The height of a node along its first children; the fuel of a walk down. -/
def height : Node α → Nat
  | mk _ [] _ => 0
  | mk _ (c :: _) _ => c.height + 1

/-- `node.split`: the item at `i`, the node before it, and a new node holding
what follows it. -/
def split (i : Nat) : Node α → α × Node α × Node α
  | mk items children indices =>
    let item := items.getD i default
    if children = [] then (item, mk (items.take i) [] indices, mk (items.drop (i + 1)) [] [])
    else
      (item, mk (items.take i) (children.take (i + 1)) (indices.take (i + 1)),
        initSize (mk (items.drop (i + 1)) (children.drop (i + 1)) []))

/-- `node.maybeSplitChild`: split child `i` when it holds `maxItems` items;
whether it was split, and the node. -/
def maybeSplitChild (i maxItems : Nat) : Node α → Bool × Node α
  | n@(mk items children indices) =>
    let child := children.getD i default
    if child.items.length < maxItems then (false, n)
    else
      let (item, first, second) := child.split (maxItems / 2)
      (true, mk (items.insertIdx i item) ((children.set i first).insertIdx (i + 1) second)
        (Indices.split indices i second.length))

/-- `node.insert`, with fuel for the levels below: the node and the item it
replaced (nil when it added one). -/
def insert (maxItems : Nat) (item : α) : Nat → Node α → Option (Node α × Option α)
  | 0, _ => none
  | fuel + 1, n@(mk items children indices) =>
    let (i, found) := findItem key items item
    if found then some (mk (items.set i item) children indices, some (items.getD i default))
    else if children = [] then some (mk (items.insertIdx i item) children indices, none)
    else
      let (didSplit, n) := maybeSplitChild i maxItems n
      -- after a split, the item moved up decides the half to descend into
      let inTree := n.items.getD i default
      if didSplit ∧ ¬ key item < key inTree ∧ ¬ key inTree < key item then
        some (mk (n.items.set i item) n.children n.indices, some inTree)
      else
        let i := if didSplit ∧ key inTree < key item then i + 1 else i
        match insert maxItems item fuel (n.children.getD i default) with
        | none => none
        | some (child, out) =>
          some (mk n.items (n.children.set i child)
            (if out.isNone then Indices.addAt n.indices i 1 else n.indices), out)

/-- `node.getAt`: the item of rank `k`, or nil outside the subtree. -/
def getAt : Nat → Node α → Int → Option (Option α)
  | 0, _, _ => none
  | fuel + 1, n, k =>
    if n.length ≤ k ∨ k < 0 then some none
    else if n.children = [] then some (some (n.items.getD k.toNat default))
    else
      let (i, found) := Indices.find n.indices k
      if found then some (some (n.items.getD i default))
      else if i = 0 then getAt fuel (n.children.getD 0 default) k
      else getAt fuel (n.children.getD i default) (k - n.indices.getD (i - 1) 0 - 1)

/-- `node.getWithIndex`: the item equal to `x` (nil when there is none) and
the number of items below `x`. -/
def getWithIndex (x : α) : Nat → Node α → Option (Option α × Int)
  | 0, _ => none
  | fuel + 1, n =>
    let (i, found) := findItem key n.items x
    if found then
      some (some (n.items.getD i default), if n.indices ≠ [] then n.indices.getD i 0 else i)
    else if n.children ≠ [] then
      (getWithIndex x fuel (n.children.getD i default)).map fun (out, rk) =>
        (out, if 0 < i then rk + n.indices.getD (i - 1) 0 + 1 else rk)
    else some (none, i)


/-- `node.get`, with fuel for the levels below: the item of the key of `k`,
or nil. -/
def get (k : α) : Nat → Node α → Option (Option α)
  | 0, _ => none
  | fuel + 1, n =>
    let (i, found) := findItem key n.items k
    if found then some (some (n.items.getD i default))
    else if n.children ≠ [] then get k fuel (n.children.getD i default)
    else some none

/-- `min`, on a node, with fuel for its loop down the first children: the
first item of the leaf it reaches, nil when that has none. -/
def min : Nat → Node α → Option (Option α)
  | 0, _ => none
  | fuel + 1, n => if n.children ≠ [] then min fuel (n.children.getD 0 default) else some n.items.head?

/-- `max`, on a node, with fuel for its loop down the last children. -/
def max : Nat → Node α → Option (Option α)
  | 0, _ => none
  | fuel + 1, n =>
    if n.children ≠ [] then max fuel (n.children.getD (n.children.length - 1) default) else some n.items.getLast?

section Iterate

variable {σ : Type*}

/-- The body of the ascending loop of `node.iterate` at item `x`, after the
child before it: the start item is passed over when it is excluded and no item
was met yet, the walk stops at `stop`, and otherwise the iterator is called.
`hit` and the iterator's state after it, and whether the loop goes on. -/
def ascendItem (start stop : Option α) (includeStart : Bool) (iter : σ → α → σ × Bool) (hit : Bool) (st : σ)
    (x : α) : (Bool × σ) × Bool :=
  if (match start with | some s => !includeStart && !hit && !decide (key s < key x) | none => false) then
    ((true, st), true)
  else if (match stop with | some s => !decide (key x < key s) | none => false) then ((true, st), false)
  else ((true, (iter st x).1), (iter st x).2)

/-- Whether the descending loop of `node.iterate` passes over item `x` and the
child after it: an item not below the start, unless it is the start item, the
start is included, and no item was met yet. -/
def descendSkip (start : Option α) (includeStart hit : Bool) (x : α) : Bool :=
  match start with
  | some s => !decide (key x < key s) && (!includeStart || hit || decide (key s < key x))
  | none => false

/-- The body of the descending loop at item `x`, after the child after it: the
walk stops at `stop`, and otherwise the iterator is called. -/
def descendItem (stop : Option α) (iter : σ → α → σ × Bool) (hit : Bool) (st : σ) (x : α) : (Bool × σ) × Bool :=
  if (match stop with | some s => !decide (key s < key x) | none => false) then ((hit, st), false)
  else ((true, (iter st x).1), (iter st x).2)

/-- A child of the loops of `node.iterate`, walked by `rec`; nothing in a
leaf. -/
def visitChild (rec : Node α → Bool → σ → Option (Bool × Bool × σ)) (n : Node α) (i : Nat) (hit : Bool) (st : σ) :
    Option (Bool × Bool × σ) :=
  if n.children ≠ [] then rec (n.children.getD i default) hit st else some (hit, true, st)

/-- The ascending loop of `node.iterate` from item `i` with `count` items
left: the child before each item, then the item; after the last item, the last
child. `rec` walks a child and `iter` is the iterator, a step on its own
state. -/
def ascendLoop (rec : Node α → Bool → σ → Option (Bool × Bool × σ)) (start stop : Option α)
    (includeStart : Bool) (iter : σ → α → σ × Bool) (n : Node α) :
    Nat → Nat → Bool → σ → Option (Bool × Bool × σ)
  | _, 0, hit, st => visitChild rec n (n.children.length - 1) hit st
  | i, count + 1, hit, st =>
    match visitChild rec n i hit st with
    | none => none
    | some (hit, false, st) => some (hit, false, st)
    | some (hit, true, st) =>
      match ascendItem key start stop includeStart iter hit st (n.items.getD i default) with
      | ((hit, st), true) => ascendLoop rec start stop includeStart iter n (i + 1) count hit st
      | ((hit, st), false) => some (hit, false, st)

/-- The descending loop of `node.iterate` with `i` items left: item `i - 1`
after the child after it, both passed over together; after the first item, the
first child. -/
def descendLoop (rec : Node α → Bool → σ → Option (Bool × Bool × σ)) (start stop : Option α)
    (includeStart : Bool) (iter : σ → α → σ × Bool) (n : Node α) : Nat → Bool → σ → Option (Bool × Bool × σ)
  | 0, hit, st => visitChild rec n 0 hit st
  | i + 1, hit, st =>
    if descendSkip key start includeStart hit (n.items.getD i default) then
      descendLoop rec start stop includeStart iter n i hit st
    else
      match visitChild rec n (i + 1) hit st with
      | none => none
      | some (hit, false, st) => some (hit, false, st)
      | some (hit, true, st) =>
        match descendItem key stop iter hit st (n.items.getD i default) with
        | ((hit, st), true) => descendLoop rec start stop includeStart iter n i hit st
        | ((hit, st), false) => some (hit, false, st)

/-- `node.iterate`, with fuel for the levels below and the iterator a step on
its own state: whether an item was met, whether to go on, and the iterator's
state. Ascending, the loop starts at the first item not below `start`;
descending, at the last item not above it. -/
def iterate (dir : Direction) (start stop : Option α) (includeStart : Bool) (iter : σ → α → σ × Bool) :
    Nat → Node α → Bool → σ → Option (Bool × Bool × σ)
  | 0, _, _, _ => none
  | fuel + 1, n, hit, st =>
    match dir with
    | .ascend =>
      let index := match start with
        | some s => (findItem key n.items s).1
        | none => 0
      ascendLoop key (iterate dir start stop includeStart iter fuel) start stop includeStart iter n index
        (n.items.length - index) hit st
    | .descend =>
      -- the loop runs from `index` down to 0; `i` here counts the items left
      let i := match start with
        | some s => if (findItem key n.items s).2 then (findItem key n.items s).1 + 1 else (findItem key n.items s).1
        | none => n.items.length
      descendLoop key (iterate dir start stop includeStart iter fuel) start stop includeStart iter n i hit st

end Iterate

end Node

/-- `toRemove`. -/
inductive ToRemove where
  | removeItem
  | removeMin
  | removeMax
  deriving DecidableEq, Repr

namespace Node

/-- The rebalancing of `growChildAndRemove`, before it calls `remove` again on
the node: child `i` takes an item from its left sibling, or else from its right
sibling, or else is merged with its right sibling (with its left one when it
is the last child). -/
def growChild (i minItems : Nat) : Node α → Node α
  | mk items children indices =>
    if 0 < i ∧ minItems < (children.getD (i - 1) default).items.length then
      -- steal from the left child: its last item goes up, the separator down
      let child := children.getD i default
      let stealFrom := children.getD (i - 1) default
      let stolenItem := stealFrom.items.getLastD default
      let childItems := items.getD (i - 1) default :: child.items
      let items := items.set (i - 1) stolenItem
      let indices := indices.set (i - 1) (indices.getD (i - 1) 0 - 1)
      if stealFrom.children ≠ [] then
        let (stealIndices, stealSize) := Indices.pop stealFrom.indices
        let indices := indices.set (i - 1) (indices.getD (i - 1) 0 - stealSize)
        let child := mk childItems (stealFrom.children.getLastD default :: child.children)
          (Indices.insertAt child.indices 0 stealSize)
        let stealFrom := mk stealFrom.items.dropLast stealFrom.children.dropLast stealIndices
        mk items ((children.set i child).set (i - 1) stealFrom) indices
      else
        let child := mk childItems child.children child.indices
        let stealFrom := mk stealFrom.items.dropLast stealFrom.children stealFrom.indices
        mk items ((children.set i child).set (i - 1) stealFrom) indices
    else if i < items.length ∧ minItems < (children.getD (i + 1) default).items.length then
      -- steal from the right child: its first item goes up, the separator down
      let child := children.getD i default
      let stealFrom := children.getD (i + 1) default
      let stolenItem := stealFrom.items.headD default
      let childItems := child.items ++ [items.getD i default]
      let items := items.set i stolenItem
      let indices := indices.set i (indices.getD i 0 + 1)
      if stealFrom.children ≠ [] then
        let (stealIndices, stealSize) := Indices.removeAt stealFrom.indices 0
        let indices := indices.set i (indices.getD i 0 + stealSize)
        let child := mk childItems (child.children ++ [stealFrom.children.headD default])
          (Indices.push child.indices stealSize)
        let stealFrom := mk (stealFrom.items.drop 1) (stealFrom.children.drop 1) stealIndices
        mk items ((children.set i child).set (i + 1) stealFrom) indices
      else
        let child := mk childItems child.children child.indices
        let stealFrom := mk (stealFrom.items.drop 1) stealFrom.children stealFrom.indices
        mk items ((children.set i child).set (i + 1) stealFrom) indices
    else
      -- merge with the right child
      let i := if items.length ≤ i then i - 1 else i
      let child := children.getD i default
      let mergeItem := items.getD i default
      let mergeChild := children.getD (i + 1) default
      let child := mk (child.items ++ mergeItem :: mergeChild.items)
        (child.children ++ mergeChild.children)
        (mergeChild.children.foldl (fun ix nn => Indices.push ix nn.length) child.indices)
      mk (items.eraseIdx i) ((children.eraseIdx (i + 1)).set i child) (Indices.merge indices i)

/-- `node.remove`, with fuel: the node and the removed item (nil when nothing
was removed). `growChildAndRemove` is `growChild` followed by `remove` on the
same node. -/
def remove (minItems : Nat) (item : α) (typ : ToRemove) : Nat → Node α → Option (Node α × Option α)
  | 0, _ => none
  | fuel + 1, n@(mk items children indices) =>
    match typ, children with
    | .removeMax, [] => some (mk items.dropLast [] indices, items.getLast?)
    | .removeMin, [] => some (mk (items.drop 1) [] indices, items.head?)
    | .removeItem, [] =>
      let (i, found) := findItem key items item
      some (if found then (mk (items.eraseIdx i) [] indices, some (items.getD i default)) else (n, none))
    | _, _ :: _ =>
      let (i, found) := match typ with
        | .removeMax => (items.length, false)
        | .removeMin => (0, false)
        | .removeItem => findItem key items item
      if (children.getD i default).items.length ≤ minItems then
        remove minItems item typ fuel (growChild i minItems n)
      else
        let child := children.getD i default
        if found then
          -- the largest item of the left child takes the place of the removed one
          match remove minItems default .removeMax fuel child with
          | none => none
          | some (child, pred) =>
            some (mk (items.set i (pred.getD default)) (children.set i child)
              (Indices.addAt indices i (-1)), some (items.getD i default))
        else
          match remove minItems item typ fuel child with
          | none => none
          | some (child, out) =>
            some (mk items (children.set i child)
              (if out.isSome then Indices.addAt indices i (-1) else indices), out)

end Node

/-! ## The tree -/

/-- `BTree`: the degree, the root (nil for an empty tree) and `length`. -/
structure BTree (α : Type*) where
  degree : Nat
  root : Option (Node α)
  length : Int

namespace BTree

open Node

/-- `maxItems`. -/
def maxItems (t : BTree α) : Nat := t.degree * 2 - 1

/-- `minItems`. -/
def minItems (t : BTree α) : Nat := t.degree - 1

/-- `New`: `none` where Go panics with `bad degree`. -/
def new (degree : Nat) : Option (BTree α) :=
  if degree ≤ 1 then none else some ⟨degree, none, 0⟩

/-- `ReplaceOrInsert`: a full root is split under a new root first; the item
replaced, or nil. -/
def replaceOrInsert (t : BTree α) (item : α) : Option (BTree α × Option α) :=
  match t.root with
  | none => some ({ t with root := some (Node.mk [item] [] []), length := t.length + 1 }, none)
  | some root =>
    let root :=
      if t.maxItems ≤ root.items.length then
        let (item2, first, second) := root.split (t.maxItems / 2)
        initSize (Node.mk [item2] [first, second] [])
      else root
    (root.insert key t.maxItems item (root.height + 1)).map fun (root, out) =>
      ({ t with root := some root, length := if out.isNone then t.length + 1 else t.length }, out)

/-- `deleteItem`: an empty root's only child becomes the root. -/
def deleteItem (t : BTree α) (item : α) (typ : ToRemove) : Option (BTree α × Option α) :=
  match t.root with
  | none => some (t, none)
  | some root =>
    if root.items = [] then some (t, none)
    else
      (root.remove key t.minItems item typ (2 * root.height + 2)).map fun (root, out) =>
        let root := if root.items = [] ∧ root.children ≠ [] then root.children.getD 0 default else root
        ({ t with root := some root, length := if out.isSome then t.length - 1 else t.length }, out)

/-- `Delete`. -/
def delete (t : BTree α) (item : α) : Option (BTree α × Option α) :=
  t.deleteItem key item .removeItem

/-- `DeleteMin`. -/
def deleteMin (t : BTree α) : Option (BTree α × Option α) :=
  t.deleteItem key default .removeMin

/-- `DeleteMax`. -/
def deleteMax (t : BTree α) : Option (BTree α × Option α) :=
  t.deleteItem key default .removeMax

/-- `GetAt`. -/
def getAt (t : BTree α) (k : Int) : Option (Option α) :=
  match t.root with
  | none => some none
  | some root => root.getAt (root.height + 1) k

/-- `GetWithIndex`. -/
def getWithIndex (t : BTree α) (x : α) : Option (Option α × Int) :=
  match t.root with
  | none => some (none, 0)
  | some root => root.getWithIndex key x (root.height + 1)

/-- `Len`. -/
def len (t : BTree α) : Int := t.length

/-- `getRootLength`. -/
def getRootLength (t : BTree α) : Int :=
  match t.root with
  | none => 0
  | some root => root.length

/-- `Get`. -/
def get (t : BTree α) (k : α) : Option (Option α) :=
  match t.root with
  | none => some none
  | some root => root.get key k (root.height + 1)

/-- `Has`. -/
def has (t : BTree α) (k : α) : Option Bool := (t.get key k).map Option.isSome

/-- `Min`: nil for an empty tree. -/
def min (t : BTree α) : Option (Option α) :=
  match t.root with
  | none => some none
  | some root => root.min (root.height + 1)

/-- `Max`: nil for an empty tree. -/
def max (t : BTree α) : Option (Option α) :=
  match t.root with
  | none => some none
  | some root => root.max (root.height + 1)

section Iterate

variable {σ : Type*}

/-- What the eight iteration functions share: nothing on an empty tree, and
otherwise `iterate` at the root with no item met yet; the iterator's state at
the end. -/
def iterateRoot (t : BTree α) (dir : Direction) (start stop : Option α) (includeStart : Bool)
    (iter : σ → α → σ × Bool) (st : σ) : Option σ :=
  match t.root with
  | none => some st
  | some root => (root.iterate key dir start stop includeStart iter (root.height + 1) false st).map (·.2.2)

/-- `AscendRange`: the items in `[greaterOrEqual, lessThan)`. -/
def ascendRange (t : BTree α) (greaterOrEqual lessThan : α) (iter : σ → α → σ × Bool) (st : σ) : Option σ :=
  t.iterateRoot key .ascend (some greaterOrEqual) (some lessThan) true iter st

/-- `AscendLessThan`: the items in `[first, pivot)`. -/
def ascendLessThan (t : BTree α) (pivot : α) (iter : σ → α → σ × Bool) (st : σ) : Option σ :=
  t.iterateRoot key .ascend none (some pivot) false iter st

/-- `AscendGreaterOrEqual`: the items in `[pivot, last]`. -/
def ascendGreaterOrEqual (t : BTree α) (pivot : α) (iter : σ → α → σ × Bool) (st : σ) : Option σ :=
  t.iterateRoot key .ascend (some pivot) none true iter st

/-- `Ascend`: every item. -/
def ascend (t : BTree α) (iter : σ → α → σ × Bool) (st : σ) : Option σ :=
  t.iterateRoot key .ascend none none false iter st

/-- `DescendRange`: the items in `[lessOrEqual, greaterThan)`, going down. -/
def descendRange (t : BTree α) (lessOrEqual greaterThan : α) (iter : σ → α → σ × Bool) (st : σ) : Option σ :=
  t.iterateRoot key .descend (some lessOrEqual) (some greaterThan) true iter st

/-- `DescendLessOrEqual`: the items in `[pivot, first]`, going down. -/
def descendLessOrEqual (t : BTree α) (pivot : α) (iter : σ → α → σ × Bool) (st : σ) : Option σ :=
  t.iterateRoot key .descend (some pivot) none true iter st

/-- `DescendGreaterThan`: the items in `(pivot, last]`, going down. -/
def descendGreaterThan (t : BTree α) (pivot : α) (iter : σ → α → σ × Bool) (st : σ) : Option σ :=
  t.iterateRoot key .descend none (some pivot) false iter st

/-- `Descend`: every item, going down. -/
def descend (t : BTree α) (iter : σ → α → σ × Bool) (st : σ) : Option σ :=
  t.iterateRoot key .descend none none false iter st

end Iterate

end BTree

end MatrixCube.Prophet.Btree
