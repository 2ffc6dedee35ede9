import MatrixCube.Lib.Heap

/-! # `TopN` of `statistics`

`TopN` keeps the `n` largest items of each of `k` dimensions. For each
dimension a `singleTopN` splits the items between two `indexedHeap`s: `topn`,
a heap with the least item on top, holds the `n` largest, and `rest`, a
reversed heap with the greatest on top, holds the others; `maintain` moves items
between them. A `ttlList` keeps the IDs in the order of their last `Put`, with
their expiry times, and `TopN.maintain` drops the expired ones. The heaps are
`container/heap` over `indexedHeap`'s `heap.Interface` methods.

`Less(k, than)` is `HotPeerStat.Less`, the only `TopNItem` of the repository: it
compares a rate of dimension `k` (`rate k`, in a linear order). `time.Now()` is
the argument `now` of each call, and a Go panic (an index out of range, an
empty heap popped, a method called on a nil item, a dimension out of range) is
`none`.
-/

namespace MatrixCube.Prophet.Statistics

variable {α : Type} (ID : α → UInt64) {K : Type} [LinearOrder K] (rate : Nat → α → K)

/-- `indexedHeap`: the dimension it compares, whether it is reversed (the
greatest item on top), the items in heap order, and the position of each item
by its ID. -/
structure IndexedHeap (α : Type) where
  k : Nat
  rev : Bool
  items : List α
  index : UInt64 → Option Nat

namespace IndexedHeap

/-- `newTopNHeap`. -/
def newTopNHeap (k : Nat) : IndexedHeap α := ⟨k, false, [], fun _ => none⟩

/-- `newRevTopNHeap`. -/
def newRevTopNHeap (k : Nat) : IndexedHeap α := ⟨k, true, [], fun _ => none⟩

/-- `Len`. -/
def len (hp : IndexedHeap α) : Nat := hp.items.length

/-- `Less`. -/
def less (hp : IndexedHeap α) (i j : Nat) : Option Bool :=
  match hp.items[i]?, hp.items[j]? with
  | some a, some b =>
    some (if !hp.rev then decide (rate hp.k a < rate hp.k b) else decide (rate hp.k b < rate hp.k a))
  | _, _ => none

/-- `Swap`: the two items change places, and the index follows them. -/
def swap (hp : IndexedHeap α) (i j : Nat) : Option (IndexedHeap α) :=
  match hp.items[i]?, hp.items[j]? with
  | some a, some b =>
    some { hp with
      items := hp.items.swap i j
      index := Function.update (Function.update hp.index (ID a) (some j)) (ID b) (some i) }
  | _, _ => none

/-- `Push`. -/
def push (hp : IndexedHeap α) (x : α) : IndexedHeap α :=
  { hp with index := Function.update hp.index (ID x) (some hp.len), items := hp.items ++ [x] }

/-- `Pop`: the last item, out of the items and of the index. -/
def pop (hp : IndexedHeap α) : Option (IndexedHeap α × α) :=
  match hp.items.getLast? with
  | none => none
  | some x => some ({ hp with items := hp.items.dropLast, index := Function.update hp.index (ID x) none }, x)

/-- The `heap.Interface` of `indexedHeap`. -/
def iface : Heap.Interface (IndexedHeap α) α := ⟨len, less rate, swap ID, push ID, pop ID⟩

/-- `Top`. -/
def top (hp : IndexedHeap α) : Option α := hp.items[0]?

/-- `Get`: `nil` for an ID the index does not hold. -/
def get (hp : IndexedHeap α) (id : UInt64) : Option (Option α) :=
  match hp.index id with
  | none => some none
  | some idx => hp.items[idx]?.map some

/-- `GetAll`. -/
def getAll (hp : IndexedHeap α) : List α := hp.items

/-- `Put`: an item of a stored ID replaces it and `heap.Fix` restores the order;
another one is pushed. Whether the ID was stored. -/
def put (hp : IndexedHeap α) (item : α) : Option (IndexedHeap α × Bool) :=
  match hp.index (ID item) with
  | some idx =>
    if idx < hp.len then (Heap.fix (iface ID rate) { hp with items := hp.items.set idx item } idx).map (·, true)
    else none
  | none => (Heap.push (iface ID rate) hp item).map (·, false)

/-- `Remove`: the item of the ID, out of the heap by `heap.Remove`. -/
def remove (hp : IndexedHeap α) (id : UInt64) : Option (IndexedHeap α × Option α) :=
  match hp.index id with
  | some idx => (Heap.remove (iface ID rate) hp idx).map fun r => (r.1, some r.2)
  | none => some (hp, none)

end IndexedHeap

open IndexedHeap

/-- `singleTopN`: the dimension, `n`, the heap of the `n` largest items and the
reversed heap of the others. -/
structure SingleTopN (α : Type) where
  k : Nat
  n : Nat
  topn : IndexedHeap α
  rest : IndexedHeap α

namespace SingleTopN

/-- `newSingleTopN`. -/
def newSingleTopN (k n : Nat) : SingleTopN α := ⟨k, n, newTopNHeap k, newRevTopNHeap k⟩

/-- `Len`. -/
def len (stn : SingleTopN α) : Nat := stn.topn.len + stn.rest.len

/-- `GetTopNMin`. -/
def getTopNMin (stn : SingleTopN α) : Option α := stn.topn.top

/-- `GetAllTopN`. -/
def getAllTopN (stn : SingleTopN α) : List α := stn.topn.getAll

/-- `GetAll`. -/
def getAll (stn : SingleTopN α) : List α := stn.topn.getAll ++ stn.rest.getAll

/-- `Get`. -/
def get (stn : SingleTopN α) (id : UInt64) : Option (Option α) :=
  (stn.topn.get id).bind fun
    | some item => some (some item)
    | none => stn.rest.get id

/-- `promote`: the greatest item of `rest` goes to `topn`. -/
def promote (stn : SingleTopN α) : Option (SingleTopN α) :=
  (Heap.pop (iface ID rate) stn.rest).bind fun r =>
    (Heap.push (iface ID rate) stn.topn r.2).map fun topn => { stn with rest := r.1, topn }

/-- `demote`: the least item of `topn` goes to `rest`. -/
def demote (stn : SingleTopN α) : Option (SingleTopN α) :=
  (Heap.pop (iface ID rate) stn.topn).bind fun r =>
    (Heap.push (iface ID rate) stn.rest r.2).map fun rest => { stn with topn := r.1, rest }

/-- The first loop of `maintain`, with fuel: promote while `topn` holds fewer
than `n` items and `rest` is not empty. -/
def fillLoop : Nat → SingleTopN α → Option (SingleTopN α)
  | 0, _ => none
  | fuel + 1, stn =>
    if stn.topn.len < stn.n ∧ 0 < stn.rest.len then (promote ID rate stn).bind (fillLoop fuel)
    else some stn

/-- The second loop of `maintain`, with fuel: while the least item of `topn`
is less than the greatest of `rest`, demote the one and promote the other. -/
def swapLoop : Nat → SingleTopN α → Option (SingleTopN α)
  | 0, _ => none
  | fuel + 1, stn =>
    match stn.topn.top, stn.rest.top with
    | some topn1, some rest1 =>
      if rate stn.k topn1 < rate stn.k rest1 then
        ((demote ID rate stn).bind (promote ID rate)).bind (swapLoop fuel)
      else some stn
    | _, _ => none

/-- `maintain`. Each round of the first loop moves an item out of `rest`, and
each round of the second lowers the number of items of `rest` above the least
of `topn`, so `rest.Len() + 1` rounds are enough for each. -/
def maintain (stn : SingleTopN α) : Option (SingleTopN α) :=
  (fillLoop ID rate (stn.rest.len + 1) stn).bind fun stn =>
    match stn.rest.top with
    | none => some stn
    | some _ => swapLoop ID rate (stn.rest.len + 1) stn

/-- `Put`: whether the ID was stored. -/
def put (stn : SingleTopN α) (item : α) : Option (SingleTopN α × Bool) :=
  (stn.topn.get (ID item)).bind fun found =>
    let r : Option (SingleTopN α × Bool) :=
      if found.isSome then (stn.topn.put ID rate item).map fun r => ({ stn with topn := r.1 }, true)
      else (stn.rest.put ID rate item).map fun r => ({ stn with rest := r.1 }, r.2)
    r.bind fun r => (maintain ID rate r.1).map (·, r.2)

/-- `Remove`: the item of the ID. -/
def remove (stn : SingleTopN α) (id : UInt64) : Option (SingleTopN α × Option α) :=
  (stn.topn.remove ID rate id).bind fun r =>
    let stn := { stn with topn := r.1 }
    let taken : Option (SingleTopN α × Option α) :=
      match r.2 with
      | some item => some (stn, some item)
      | none => (stn.rest.remove ID rate id).map fun r' => ({ stn with rest := r'.1 }, r'.2)
    taken.bind fun t => (maintain ID rate t.1).map (·, t.2)

end SingleTopN

/-- `ttlList`: each ID with its expiry time, in the order of their last `Put`.
The map `index` from an ID to its element is read as the element with the ID. -/
structure TTLList where
  ttl : Nat
  lst : List (UInt64 × Nat)

namespace TTLList

/-- `newTTLList`. -/
def newTTLList (ttl : Nat) : TTLList := ⟨ttl, []⟩

/-- `Len`. -/
def len (tl : TTLList) : Nat := tl.lst.length

/-- The loop of `TakeExpired`: from the front, the elements that expired by
`now`, up to the first that did not. -/
def takeExpiredLoop (now : Nat) : List (UInt64 × Nat) → List UInt64 × List (UInt64 × Nat)
  | [] => ([], [])
  | e :: l => if now < e.2 then ([], e :: l) else ((takeExpiredLoop now l).1.cons e.1, (takeExpiredLoop now l).2)

/-- `TakeExpired`. -/
def takeExpired (tl : TTLList) (now : Nat) : TTLList × List UInt64 :=
  ({ tl with lst := (takeExpiredLoop now tl.lst).2 }, (takeExpiredLoop now tl.lst).1)

/-- `Put`: the element of the ID moves to the back with a new expiry time;
whether the ID was there. -/
def put (tl : TTLList) (id : UInt64) (now : Nat) : TTLList × Bool :=
  ({ tl with lst := tl.lst.eraseP (·.1 == id) ++ [(id, now + tl.ttl)] }, tl.lst.any (·.1 == id))

/-- `Remove`. -/
def remove (tl : TTLList) (id : UInt64) : TTLList × Bool :=
  ({ tl with lst := tl.lst.eraseP (·.1 == id) }, tl.lst.any (·.1 == id))

end TTLList

open SingleTopN TTLList

/-- `TopN`: a `singleTopN` for each dimension, and the TTL list. -/
structure TopN (α : Type) where
  topns : List (SingleTopN α)
  ttlLst : TTLList

namespace TopN

/-- `NewTopN`, which panics unless `k` and `n` are positive. -/
def newTopN (k n : Int) (ttl : Nat) : Option (TopN α) :=
  if k ≤ 0 ∨ n ≤ 0 then none
  else some ⟨(List.range k.toNat).map fun i => newSingleTopN i n.toNat, newTTLList ttl⟩

/-- `Len`. -/
def len (tn : TopN α) : Nat := tn.ttlLst.len

/-- `GetTopNMin`. -/
def getTopNMin (tn : TopN α) (k : Nat) : Option (Option α) := tn.topns[k]?.map SingleTopN.getTopNMin

/-- `GetAllTopN`. -/
def getAllTopN (tn : TopN α) (k : Nat) : Option (List α) := tn.topns[k]?.map SingleTopN.getAllTopN

/-- `GetAll`. -/
def getAll (tn : TopN α) : Option (List α) := tn.topns[0]?.map SingleTopN.getAll

/-- `Get`. -/
def get (tn : TopN α) (id : UInt64) : Option (Option α) := tn.topns[0]?.bind (·.get id)

/-- The loop of `maintain` for one expired ID: it leaves every dimension. -/
def removeEverywhere (topns : List (SingleTopN α)) (id : UInt64) : Option (List (SingleTopN α)) :=
  topns.mapM fun stn => (stn.remove ID rate id).map Prod.fst

/-- `maintain`: the expired IDs leave every dimension. -/
def maintain (tn : TopN α) (now : Nat) : Option (TopN α) :=
  ((tn.ttlLst.takeExpired now).2.foldlM (removeEverywhere ID rate) tn.topns).map fun topns =>
    ⟨topns, (tn.ttlLst.takeExpired now).1⟩

/-- `Put`: the item goes to every dimension, and whether the last one held its
ID already is the answer. -/
def put (tn : TopN α) (item : α) (now : Nat) : Option (TopN α × Bool) :=
  (tn.topns.foldlM (fun (acc : List (SingleTopN α) × Bool) (stn : SingleTopN α) =>
      (stn.put ID rate item).map fun r => (acc.1 ++ [r.1], r.2)) ([], false)).bind fun r =>
    (maintain ID rate ⟨r.1, (tn.ttlLst.put (ID item) now).1⟩ now).map (·, r.2)

/-- `RemoveExpired`. -/
def removeExpired (tn : TopN α) (now : Nat) : Option (TopN α) := maintain ID rate tn now

/-- `Remove`: the ID leaves every dimension, and the item the last one held is
the answer. -/
def remove (tn : TopN α) (id : UInt64) (now : Nat) : Option (TopN α × Option α) :=
  (tn.topns.foldlM (fun (acc : List (SingleTopN α) × Option α) (stn : SingleTopN α) =>
      (stn.remove ID rate id).map fun r => (acc.1 ++ [r.1], r.2)) ([], none)).bind fun r =>
    (maintain ID rate ⟨r.1, (tn.ttlLst.remove id).1⟩ now).map (·, r.2)

end TopN

end MatrixCube.Prophet.Statistics
