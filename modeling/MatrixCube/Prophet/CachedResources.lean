import MatrixCube.Prophet.ResourceTree

/-! # The resource cache of prophet

`CachedResources` (`components/prophet/core/resource.go`) keeps five indices
of the resources it caches: a `resourceTree` per group, the `resourceMap` by
ID with the running totals of sizes and key counts, and four maps from a
container ID to a `resourceSubTree` (a range tree with its own running
totals): `leaders`, `followers`, `learners` and `pendingPeers`.
`SetResource` drops the cached version from the tree and the map when the
range changed and from the sub-trees when `shouldRemoveFromSubTree` says so,
then calls `AddResource`, which inserts into the tree of the group (removing
every resource the insertion overlaps with `RemoveResource`), the map, and the
sub-tree of the container of each peer.

A Go map that has no entry for a key reads here as the empty tree: every
modelled operation treats a missing entry as an empty one (`AddResource`
creates it, and a nil `resourceSubTree` has length zero). The totals are
`int64` sums of `uint64` statistics; they are integers here.
-/

namespace MatrixCube.Prophet

open KeyRange CachedResource

/-- The key the resource map is indexed by: the resource ID. -/
def resourceID (r : CachedResource) : Nat := r.meta_.id.toNat

/-- `resourceMap`: the resources by ID, with the totals of their approximate
sizes and key counts. -/
structure ResourceMap where
  m : OrderedSet resourceID
  totalSize : Int
  totalKeys : Int

namespace ResourceMap

/-- `newResourceMap`. -/
def empty : ResourceMap := ⟨OrderedSet.empty resourceID, 0, 0⟩

/-- `resourceMap.Get`. -/
def get (rm : ResourceMap) (id : UInt64) : Option CachedResource := rm.m.get id.toNat

/-- `resourceMap.Put`: replace the resource of the same ID, moving the totals
from the old statistics to the new ones. -/
def put (rm : ResourceMap) (res : CachedResource) : ResourceMap :=
  let (totalSize, totalKeys) :=
    match rm.get res.meta_.id with
    | some old => (rm.totalSize - old.approximateSize, rm.totalKeys - old.approximateKeys)
    | none => (rm.totalSize, rm.totalKeys)
  { m := rm.m.replaceOrInsert res
    totalSize := totalSize + res.approximateSize
    totalKeys := totalKeys + res.approximateKeys }

/-- `resourceMap.Delete`. -/
def delete (rm : ResourceMap) (id : UInt64) : ResourceMap :=
  match rm.get id with
  | some old =>
    { m := rm.m.delete id.toNat
      totalSize := rm.totalSize - old.approximateSize
      totalKeys := rm.totalKeys - old.approximateKeys }
  | none => rm

end ResourceMap

/-- `resourceSubTree`: a resource tree with the totals of its resources. -/
structure ResourceSubTree where
  tree : ResourceTree
  totalSize : Int
  totalKeys : Int

namespace ResourceSubTree

/-- `newResourceSubTree`. -/
def empty : ResourceSubTree := ⟨ResourceTree.empty, 0, 0⟩

/-- `resourceSubTree.update`: add the statistics of `res`, subtract those of
every resource the tree update overlapped. -/
def update (rst : ResourceSubTree) (res : CachedResource) : ResourceSubTree :=
  let (tree, overlaps) := rst.tree.update res
  overlaps.foldl
    (fun rst r => { rst with
      totalSize := rst.totalSize - r.approximateSize
      totalKeys := rst.totalKeys - r.approximateKeys })
    { tree
      totalSize := rst.totalSize + res.approximateSize
      totalKeys := rst.totalKeys + res.approximateKeys }

/-- `resourceSubTree.remove`: when the tree removes an item, subtract the
statistics of the argument. -/
def remove (rst : ResourceSubTree) (res : CachedResource) : ResourceSubTree :=
  if rst.tree.length = 0 then rst
  else
    match rst.tree.remove res with
    | (tree, some _) =>
      { tree
        totalSize := rst.totalSize - res.approximateSize
        totalKeys := rst.totalKeys - res.approximateKeys }
    | (_, none) => rst

end ResourceSubTree

/-- `CachedResources`, without the factory of search metadata. -/
structure CachedResources where
  trees : UInt64 → ResourceTree
  resources : ResourceMap
  leaders : UInt64 → ResourceSubTree
  followers : UInt64 → ResourceSubTree
  learners : UInt64 → ResourceSubTree
  pendingPeers : UInt64 → ResourceSubTree

/-- `NewCachedResources`. -/
def newCachedResources : CachedResources :=
  ⟨fun _ => ResourceTree.empty, ResourceMap.empty, fun _ => ResourceSubTree.empty,
    fun _ => ResourceSubTree.empty, fun _ => ResourceSubTree.empty, fun _ => ResourceSubTree.empty⟩

/-- Add `res` to the sub-tree of a container, creating it if missing. -/
def addToSubTree (subTrees : UInt64 → ResourceSubTree) (containerID : UInt64)
    (res : CachedResource) : UInt64 → ResourceSubTree :=
  Function.update subTrees containerID ((subTrees containerID).update res)

/-- Remove `res` from the sub-tree of a container. -/
def removeFromSubTree (subTrees : UInt64 → ResourceSubTree) (containerID : UInt64)
    (res : CachedResource) : UInt64 → ResourceSubTree :=
  Function.update subTrees containerID ((subTrees containerID).remove res)

/-- `checkPeersChange` of `shouldRemoveFromSubTree`: the lists differ in
length, or, sorted by peer ID, in some container or ID. -/
def checkPeersChange (origin other : List Peer) : Bool :=
  if origin.length ≠ other.length then true
  else
    let byID := fun a b : Peer => decide (a.id ≤ b.id)
    ((origin.mergeSort byID).zip (other.mergeSort byID)).any
      fun pq => !(pq.1.containerID == pq.2.containerID && pq.1.id == pq.2.id)

/-- `shouldRemoveFromSubTree`: the leader, the voters, the learners or the
pending peers changed. -/
def shouldRemoveFromSubTree (res origin : CachedResource) : Bool :=
  origin.getLeaderID != res.getLeaderID ||
    checkPeersChange origin.getVoters res.getVoters ||
    checkPeersChange origin.getLearners res.getLearners ||
    checkPeersChange origin.pendingPeers res.pendingPeers

namespace CachedResources

/-- `GetResource`. -/
def getResource (r : CachedResources) (resourceID : UInt64) : Option CachedResource :=
  r.resources.get resourceID

/-- `removeResourceFromTreeAndMap`. -/
def removeResourceFromTreeAndMap (r : CachedResources) (res : CachedResource) : CachedResources :=
  { r with
    trees := Function.update r.trees res.meta_.group ((r.trees res.meta_.group).remove res).1
    resources := r.resources.delete res.meta_.id }

/-- `removeResourceFromSubTree`: for the container of every peer of `res`,
remove it from the four sub-trees. -/
def removeResourceFromSubTree (r : CachedResources) (res : CachedResource) : CachedResources :=
  res.meta_.peers.foldl
    (fun r peer => { r with
      leaders := removeFromSubTree r.leaders peer.containerID res
      followers := removeFromSubTree r.followers peer.containerID res
      learners := removeFromSubTree r.learners peer.containerID res
      pendingPeers := removeFromSubTree r.pendingPeers peer.containerID res })
    r

/-- `RemoveResource`. -/
def removeResource (r : CachedResources) (res : CachedResource) : CachedResources :=
  (r.removeResourceFromTreeAndMap res).removeResourceFromSubTree res

/-- `treeNeedAdd` of `AddResource`: false when `res` is cached and the tree of
its group holds, at its start, a resource of the same range and ID. -/
def treeNeedAdd (r : CachedResources) (res : CachedResource) : Bool :=
  match r.getResource res.meta_.id with
  | none => true
  | some _ =>
    match (r.trees res.meta_.group).find res with
    | none => true
    | some resOld =>
      !(decide (resOld.getStartKey = res.getStartKey) && decide (resOld.getEndKey = res.getEndKey) &&
        resOld.meta_.id == res.meta_.id)

/-- The tree part of `AddResource`: `resOld.res = res` in place, or `update`
the tree of the group and remove each overlapped resource, as the map holds
it, with `RemoveResource`. An overlapped resource the map does not hold makes
`RemoveResource` dereference nil: `none`. -/
def addToTree (r : CachedResources) (res : CachedResource) :
    Option (CachedResources × List CachedResource) :=
  let group := res.meta_.group
  if r.treeNeedAdd res then
    let (tree, overlaps) := (r.trees group).update res
    let r := { r with trees := Function.update r.trees group tree }
    (overlaps.foldlM (fun (r : CachedResources) item => (r.getResource item.meta_.id).map r.removeResource)
      r).map
      fun r => (r, overlaps)
  else
    some ({ r with trees := Function.update r.trees group ((r.trees group).replaceOrInsert res) }, [])

/-- The peer indices of `AddResource`: the container of each voter gets `res`
in `leaders` when the voter is the leader and in `followers` otherwise, that
of each learner in `learners` and that of each pending peer in
`pendingPeers`. -/
def addToSubTrees (r : CachedResources) (res : CachedResource) : CachedResources :=
  let r := res.getVoters.foldl
    (fun r peer =>
      if peer.id = res.getLeaderID then { r with leaders := addToSubTree r.leaders peer.containerID res }
      else { r with followers := addToSubTree r.followers peer.containerID res })
    r
  let r := { r with
    learners := res.getLearners.foldl (fun ts (peer : Peer) => addToSubTree ts peer.containerID res)
      r.learners }
  { r with
    pendingPeers := res.pendingPeers.foldl (fun ts (peer : Peer) => addToSubTree ts peer.containerID res)
      r.pendingPeers }

/-- `AddResource`: the tree, then the map, then the peer indices; it returns
the overlapped resources. -/
def addResource (r : CachedResources) (res : CachedResource) :
    Option (CachedResources × List CachedResource) := do
  let (r, overlaps) ← r.addToTree res
  let r := { r with resources := r.resources.put res }
  pure (r.addToSubTrees res, overlaps)

/-- `SetResource`. -/
def setResource (r : CachedResources) (res : CachedResource) :
    Option (CachedResources × List CachedResource) :=
  match r.getResource res.meta_.id with
  | none => r.addResource res
  | some origin =>
    let r :=
      if origin.getStartKey ≠ res.getStartKey ∨ origin.getEndKey ≠ res.getEndKey then
        r.removeResourceFromTreeAndMap origin
      else r
    let r := if shouldRemoveFromSubTree res origin then r.removeResourceFromSubTree origin else r
    r.addResource res

/-- `GetOverlaps`: the overlapped resources in the tree of the group of `res`
(a group without a tree has an empty one). -/
def getOverlaps (r : CachedResources) (res : CachedResource) : List CachedResource :=
  (r.trees res.meta_.group).getOverlaps res

end CachedResources

/-! ## The totals of the resource map -/

/-- The sum of one statistic over a list of resources. -/
def statSum (stat : CachedResource → Nat) (rs : List CachedResource) : Int :=
  (rs.map fun r => (stat r : Int)).sum

@[simp] theorem statSum_cons (stat : CachedResource → Nat) (r : CachedResource)
    (rs : List CachedResource) : statSum stat (r :: rs) = stat r + statSum stat rs := by
  simp [statSum]

theorem statSum_perm (stat : CachedResource → Nat) {rs rs' : List CachedResource}
    (h : rs.Perm rs') : statSum stat rs = statSum stat rs' :=
  (h.map _).sum_eq

namespace ResourceMap

/-- The totals of the map are the sums over the resources it holds. -/
structure Consistent (rm : ResourceMap) : Prop where
  totalSize : rm.totalSize = statSum approximateSize rm.m.items
  totalKeys : rm.totalKeys = statSum approximateKeys rm.m.items

theorem consistent_empty : empty.Consistent := ⟨rfl, rfl⟩

/-- A sum over the map after `ReplaceOrInsert`: the new resource, and the
resources of other IDs. -/
theorem statSum_replaceOrInsert (stat : CachedResource → Nat) (rm : ResourceMap) (res : CachedResource) :
    statSum stat (rm.m.replaceOrInsert res).items =
      stat res + statSum stat (rm.m.items.filter fun y => resourceID y ≠ resourceID res) := by
  rw [statSum_perm stat (rm.m.perm_replaceOrInsert res), statSum_cons]

/-- A sum over the map: a stored resource, and the resources of other IDs. -/
theorem statSum_of_mem (stat : CachedResource → Nat) {rm : ResourceMap} {old : CachedResource}
    (hold : old ∈ rm.m.items) :
    statSum stat rm.m.items =
      stat old + statSum stat (rm.m.items.filter fun y => resourceID y ≠ resourceID old) := by
  rw [statSum_perm stat (OrderedSet.perm_cons_filter hold), statSum_cons]

theorem Consistent.put {rm : ResourceMap} (h : rm.Consistent) (res : CachedResource) :
    (rm.put res).Consistent := by
  cases hget : rm.get res.meta_.id with
  | none =>
    -- a new ID: no stored resource shares it
    have hall : ∀ y ∈ rm.m.items, resourceID y ≠ resourceID res := OrderedSet.get_eq_none_iff.mp hget
    have hfilter : (rm.m.items.filter fun y => resourceID y ≠ resourceID res) = rm.m.items :=
      List.filter_eq_self.mpr fun y hy => decide_eq_true (hall y hy)
    constructor <;>
      simp only [ResourceMap.put, hget, statSum_replaceOrInsert, hfilter, h.totalSize, h.totalKeys] <;>
      ring
  | some old =>
    -- the stored resource of the ID leaves the sums, the new one enters
    obtain ⟨hold, hkey⟩ := OrderedSet.get_eq_some_iff.mp hget
    have hid : resourceID old = resourceID res := hkey
    constructor <;>
      simp only [ResourceMap.put, hget, statSum_replaceOrInsert, h.totalSize, h.totalKeys,
        statSum_of_mem _ hold, hid] <;>
      ring

theorem Consistent.delete {rm : ResourceMap} (h : rm.Consistent) (id : UInt64) :
    (rm.delete id).Consistent := by
  cases hget : rm.get id with
  | none => simpa only [ResourceMap.delete, hget] using h
  | some old =>
    obtain ⟨hold, hkey⟩ := OrderedSet.get_eq_some_iff.mp hget
    have hitems : (rm.m.delete id.toNat).items = rm.m.items.filter fun y => resourceID y ≠ resourceID old := by
      rw [hkey]; rfl
    constructor <;>
      simp only [ResourceMap.delete, hget, hitems, h.totalSize, h.totalKeys, statSum_of_mem _ hold] <;>
      ring

/-- A lookup after `Put` finds `res` under its ID and what was stored under
every other ID. -/
theorem get_put (rm : ResourceMap) (res : CachedResource) (id : UInt64) :
    (rm.put res).get id = if id = res.meta_.id then some res else rm.get id := by
  have hkey : resourceID res = id.toNat ↔ id = res.meta_.id := by
    rw [resourceID, UInt64.toNat_inj, eq_comm]
  simp only [get, put, OrderedSet.get_replaceOrInsert, hkey]

/-- A lookup after `Delete` finds nothing under the deleted ID and what was
stored under every other ID. -/
theorem get_delete (rm : ResourceMap) (id' id : UInt64) :
    (rm.delete id').get id = if id = id' then none else rm.get id := by
  unfold delete
  split
  · simp only [get, OrderedSet.get_delete, UInt64.toNat_inj]
  · next hget =>
    split_ifs with h
    · rw [h]
      exact hget
    · rfl

end ResourceMap

/-! ## The sub-trees stay range trees -/

namespace ResourceSubTree

/-- The loop of `update` over the overlaps moves only the totals. -/
theorem foldl_totals_tree (overlaps : List CachedResource) (rst : ResourceSubTree) :
    (overlaps.foldl
      (fun rst r => { rst with
        totalSize := rst.totalSize - r.approximateSize
        totalKeys := rst.totalKeys - r.approximateKeys }) rst).tree = rst.tree := by
  induction overlaps generalizing rst with
  | nil => rfl
  | cons r overlaps ih => exact ih _

theorem update_tree (rst : ResourceSubTree) (res : CachedResource) :
    (rst.update res).tree = (rst.tree.update res).1 :=
  foldl_totals_tree _ _

/-- `remove` leaves the tree as it was or as the tree's `remove` leaves it. -/
theorem remove_tree (rst : ResourceSubTree) (res : CachedResource) :
    (rst.remove res).tree = rst.tree ∨ (rst.remove res).tree = (rst.tree.remove res).1 := by
  unfold remove
  split_ifs
  · exact .inl rfl
  split
  · next tree _ heq => exact .inr (by rw [heq])
  · exact .inl rfl

end ResourceSubTree

/-- Every sub-tree of a container map is a well-formed range tree. -/
def SubTreesWellFormed (subTrees : UInt64 → ResourceSubTree) : Prop :=
  ∀ containerID, (subTrees containerID).tree.WellFormed

theorem subTreesWellFormed_empty : SubTreesWellFormed fun _ => ResourceSubTree.empty :=
  fun _ => ResourceTree.wellFormed_empty

section SubTrees

variable {subTrees : UInt64 → ResourceSubTree} {res : CachedResource}

theorem SubTreesWellFormed.addToSubTree (h : SubTreesWellFormed subTrees)
    (hs : Below res.meta_.end_ res.meta_.start) (containerID : UInt64) :
    SubTreesWellFormed (addToSubTree subTrees containerID res) := by
  intro c
  rw [Prophet.addToSubTree, Function.update_apply]
  split_ifs with hc
  · rw [ResourceSubTree.update_tree]
    exact (h containerID).update hs
  · exact h c

theorem SubTreesWellFormed.removeFromSubTree (h : SubTreesWellFormed subTrees)
    (containerID : UInt64) (res : CachedResource) :
    SubTreesWellFormed (removeFromSubTree subTrees containerID res) := by
  intro c
  rw [Prophet.removeFromSubTree, Function.update_apply]
  split_ifs with hc
  · rcases ResourceSubTree.remove_tree (subTrees containerID) res with htree | htree <;>
      rw [htree]
    · exact h containerID
    · exact (h containerID).remove res
  · exact h c

/-- The loops of `AddResource` over learners and pending peers. -/
theorem SubTreesWellFormed.foldl_addToSubTree (hs : Below res.meta_.end_ res.meta_.start) :
    ∀ (peers : List Peer) {subTrees : UInt64 → ResourceSubTree}, SubTreesWellFormed subTrees →
      SubTreesWellFormed
        (peers.foldl (fun ts (peer : Peer) => Prophet.addToSubTree ts peer.containerID res) subTrees)
  | [], _, h => h
  | peer :: peers, _, h => foldl_addToSubTree hs peers (h.addToSubTree hs peer.containerID)

end SubTrees

/-! ## The invariant of the cache -/

namespace CachedResources

/-- What every operation of the cache keeps: the tree of every group and the
sub-tree of every container are well-formed range trees, and the totals of the
resource map are the sums over its resources. -/
structure Inv (r : CachedResources) : Prop where
  trees : ∀ group, (r.trees group).WellFormed
  resources : r.resources.Consistent
  leaders : SubTreesWellFormed r.leaders
  followers : SubTreesWellFormed r.followers
  learners : SubTreesWellFormed r.learners
  pendingPeers : SubTreesWellFormed r.pendingPeers

theorem inv_newCachedResources : newCachedResources.Inv :=
  ⟨fun _ => ResourceTree.wellFormed_empty, ResourceMap.consistent_empty, subTreesWellFormed_empty,
    subTreesWellFormed_empty, subTreesWellFormed_empty, subTreesWellFormed_empty⟩

variable {r : CachedResources}

/-- Setting the tree of one group to a well-formed tree. -/
theorem trees_update (h : r.Inv) {tree : ResourceTree} (htree : tree.WellFormed) (group : UInt64) :
    ∀ g, (Function.update r.trees group tree g).WellFormed := by
  intro g
  rw [Function.update_apply]
  split_ifs
  · exact htree
  · exact h.trees g

/-- Setting the tree of one group to a well-formed tree keeps the invariant. -/
theorem Inv.setTree (h : r.Inv) {tree : ResourceTree} (htree : tree.WellFormed) (group : UInt64) :
    Inv { r with trees := Function.update r.trees group tree } :=
  { h with trees := trees_update h htree group }

theorem Inv.removeResourceFromTreeAndMap (h : r.Inv) (res : CachedResource) :
    (r.removeResourceFromTreeAndMap res).Inv :=
  { h with
    trees := trees_update h ((h.trees res.meta_.group).remove res) res.meta_.group
    resources := h.resources.delete res.meta_.id }

theorem Inv.removeResourceFromSubTree (h : r.Inv) (res : CachedResource) :
    (r.removeResourceFromSubTree res).Inv := by
  unfold CachedResources.removeResourceFromSubTree
  -- one pass per peer of `res`, each removing it from the four sub-trees of its container
  induction res.meta_.peers generalizing r with
  | nil => exact h
  | cons peer peers ih =>
    exact ih { h with
      leaders := h.leaders.removeFromSubTree peer.containerID res
      followers := h.followers.removeFromSubTree peer.containerID res
      learners := h.learners.removeFromSubTree peer.containerID res
      pendingPeers := h.pendingPeers.removeFromSubTree peer.containerID res }

theorem Inv.removeResource (h : r.Inv) (res : CachedResource) : (r.removeResource res).Inv :=
  (h.removeResourceFromTreeAndMap res).removeResourceFromSubTree res

/-- The induction rule of the loop of `AddResource` that removes the
overlapped resources: a property that `RemoveResource` keeps holds after it. -/
theorem foldlM_removeResource_induction {P : CachedResources → Prop}
    (hP : ∀ r x, P r → P (r.removeResource x)) :
    ∀ (items : List CachedResource) {r r' : CachedResources}, P r →
      items.foldlM (fun (r : CachedResources) item => (r.getResource item.meta_.id).map r.removeResource) r =
        some r' → P r'
  | [], _, _, h, hrun => by
    cases hrun
    exact h
  | item :: items, r, _, h, hrun => by
    rw [List.foldlM_cons] at hrun
    cases hget : r.getResource item.meta_.id with
    | none => simp [hget] at hrun
    | some x =>
      simp only [hget, Option.map_some, Option.bind_eq_bind, Option.bind_some] at hrun
      exact foldlM_removeResource_induction hP items (hP r x h) hrun

/-- The loop of `AddResource` that removes the overlapped resources. -/
theorem Inv.foldlM_removeResource (items : List CachedResource) {r r' : CachedResources} (h : r.Inv)
    (hrun : items.foldlM (fun (r : CachedResources) item => (r.getResource item.meta_.id).map r.removeResource)
      r = some r') : r'.Inv :=
  foldlM_removeResource_induction (fun _ x h => h.removeResource x) items h hrun

/-- When `treeNeedAdd` is false, the tree of the group holds, at the start of
`res`, a resource of the same range. -/
theorem exists_of_treeNeedAdd_eq_false (h : r.Inv) {res : CachedResource}
    (hneed : r.treeNeedAdd res = false) :
    ∃ old ∈ (r.trees res.meta_.group).items, res.range = old.range := by
  unfold treeNeedAdd at hneed
  split at hneed
  · cases hneed
  split at hneed
  · cases hneed
  next resOld hfind =>
    simp only [Bool.not_eq_false', Bool.and_eq_true, decide_eq_true_eq, beq_iff_eq] at hneed
    obtain ⟨⟨hstart, hend⟩, -⟩ := hneed
    refine ⟨resOld, ((ResourceTree.find_eq_some_iff (h.trees _)).mp hfind).1, ?_⟩
    simp only [CachedResource.range, ← hstart, ← hend]

theorem Inv.addToTree (h : r.Inv) {res : CachedResource} (hs : Below res.meta_.end_ res.meta_.start)
    {r' : CachedResources} {overlaps : List CachedResource} (hadd : r.addToTree res = some (r', overlaps)) :
    r'.Inv := by
  unfold CachedResources.addToTree at hadd
  split_ifs at hadd with hneed
  · -- `update` the tree, then remove each overlapped resource
    obtain ⟨r'', hrun, hpair⟩ := Option.map_eq_some_iff.mp hadd
    cases hpair
    exact Inv.foldlM_removeResource _ (h.setTree ((h.trees res.meta_.group).update hs) _) hrun
  · -- replace in place: `res` takes the place of a resource of the same range
    cases hadd
    obtain ⟨old, hold, hrange⟩ := exists_of_treeNeedAdd_eq_false h (Bool.eq_false_iff.mpr hneed)
    exact h.setTree ((h.trees res.meta_.group).replaceOrInsert hold hrange) _

/-- The voters' loop of `AddResource`, which fills `leaders` and `followers`. -/
theorem Inv.foldl_voters {res : CachedResource} (hs : Below res.meta_.end_ res.meta_.start) :
    ∀ (voters : List Peer) {r : CachedResources}, r.Inv →
      (voters.foldl
        (fun r peer =>
          if peer.id = res.getLeaderID then { r with leaders := addToSubTree r.leaders peer.containerID res }
          else { r with followers := addToSubTree r.followers peer.containerID res })
        r).Inv
  | [], _, h => h
  | peer :: voters, r, h => by
    rw [List.foldl_cons]
    split_ifs
    · have h' : Inv { r with leaders := addToSubTree r.leaders peer.containerID res } :=
        { h with leaders := h.leaders.addToSubTree hs peer.containerID }
      exact Inv.foldl_voters hs voters h'
    · have h' : Inv { r with followers := addToSubTree r.followers peer.containerID res } :=
        { h with followers := h.followers.addToSubTree hs peer.containerID }
      exact Inv.foldl_voters hs voters h'

theorem Inv.addToSubTrees (h : r.Inv) {res : CachedResource} (hs : Below res.meta_.end_ res.meta_.start) :
    (r.addToSubTrees res).Inv :=
  have h₁ := Inv.foldl_voters hs res.getVoters h
  { h₁ with
    learners := SubTreesWellFormed.foldl_addToSubTree hs _ h₁.learners
    pendingPeers := SubTreesWellFormed.foldl_addToSubTree hs _ h₁.pendingPeers }

theorem Inv.addResource (h : r.Inv) {res : CachedResource} (hs : Below res.meta_.end_ res.meta_.start)
    {r' : CachedResources} {overlaps : List CachedResource} (hadd : r.addResource res = some (r', overlaps)) :
    r'.Inv := by
  unfold CachedResources.addResource at hadd
  cases htree : r.addToTree res with
  | none => simp [htree] at hadd
  | some p =>
    obtain ⟨r₁, o⟩ := p
    simp only [htree, Option.bind_eq_bind, Option.bind_some, Option.pure_def, Option.some.injEq,
      Prod.mk.injEq] at hadd
    obtain ⟨rfl, -⟩ := hadd
    have h₁ := h.addToTree hs htree
    have h₂ : Inv { r₁ with resources := r₁.resources.put res } := { h₁ with resources := h₁.resources.put res }
    exact h₂.addToSubTrees hs

theorem Inv.setResource (h : r.Inv) {res : CachedResource} (hs : Below res.meta_.end_ res.meta_.start)
    {r' : CachedResources} {overlaps : List CachedResource} (hset : r.setResource res = some (r', overlaps)) :
    r'.Inv := by
  unfold CachedResources.setResource at hset
  split at hset
  · exact h.addResource hs hset
  next origin _ =>
    -- the cached version leaves the tree and map, then the sub-trees, as the checks decide
    dsimp only at hset
    split_ifs at hset
    · exact ((h.removeResourceFromTreeAndMap origin).removeResourceFromSubTree origin).addResource hs hset
    · exact (h.removeResourceFromSubTree origin).addResource hs hset
    · exact (h.removeResourceFromTreeAndMap origin).addResource hs hset
    · exact h.addResource hs hset

/-! ## What `SetResource` keeps of the map and what it returns -/

/-- `r'` holds, in its map and in the tree of every group, only resources that
`r` holds there. -/
structure Removes (r r' : CachedResources) : Prop where
  map : ∀ id x, r'.getResource id = some x → r.getResource id = some x
  trees : ∀ g, ∀ x ∈ (r'.trees g).items, x ∈ (r.trees g).items

theorem Removes.refl (r : CachedResources) : Removes r r := ⟨fun _ _ => id, fun _ _ => id⟩

theorem Removes.trans {r₁ r₂ r₃ : CachedResources} (h₁ : Removes r₁ r₂) (h₂ : Removes r₂ r₃) :
    Removes r₁ r₃ :=
  ⟨fun id x hx => h₁.map id x (h₂.map id x hx), fun g x hx => h₁.trees g x (h₂.trees g x hx)⟩

@[simp] theorem removeResourceFromSubTree_trees (res : CachedResource) :
    (r.removeResourceFromSubTree res).trees = r.trees := by
  unfold removeResourceFromSubTree
  induction res.meta_.peers generalizing r with
  | nil => rfl
  | cons peer peers ih => exact ih

@[simp] theorem removeResourceFromSubTree_resources (res : CachedResource) :
    (r.removeResourceFromSubTree res).resources = r.resources := by
  unfold removeResourceFromSubTree
  induction res.meta_.peers generalizing r with
  | nil => rfl
  | cons peer peers ih => exact ih

theorem removes_removeResourceFromSubTree (res : CachedResource) :
    Removes r (r.removeResourceFromSubTree res) where
  map id x hx := by rwa [getResource, removeResourceFromSubTree_resources] at hx
  trees g x hx := by rwa [removeResourceFromSubTree_trees] at hx

theorem removes_removeResourceFromTreeAndMap (res : CachedResource) :
    Removes r (r.removeResourceFromTreeAndMap res) where
  map id x hx := by
    simp only [getResource, removeResourceFromTreeAndMap, ResourceMap.get_delete] at hx
    split_ifs at hx
    exact hx
  trees g x hx := by
    simp only [removeResourceFromTreeAndMap, Function.update_apply] at hx
    split_ifs at hx with hg
    · subst hg
      exact ResourceTree.mem_of_mem_remove hx
    · exact hx

theorem removes_removeResource (res : CachedResource) : Removes r (r.removeResource res) :=
  (removes_removeResourceFromTreeAndMap res).trans (removes_removeResourceFromSubTree res)

@[simp] theorem addToSubTrees_resources (res : CachedResource) :
    (r.addToSubTrees res).resources = r.resources := by
  unfold addToSubTrees
  dsimp only
  -- only the voters' loop could touch the map, and each of its steps moves one sub-tree
  induction res.getVoters generalizing r with
  | nil => rfl
  | cons peer voters ih =>
    rw [List.foldl_cons]
    split_ifs <;> exact ih

/-- What `addToTree` does: with `treeNeedAdd`, it updates the tree of the
group, returns what `getOverlaps` finds there and removes it; otherwise it
replaces in place and returns nothing. -/
theorem addToTree_cases {res : CachedResource} {r' : CachedResources} {overlaps : List CachedResource}
    (hadd : r.addToTree res = some (r', overlaps)) :
    (overlaps = (r.trees res.meta_.group).getOverlaps res ∧
      overlaps.foldlM (fun (r : CachedResources) item => (r.getResource item.meta_.id).map r.removeResource)
        { r with trees := Function.update r.trees res.meta_.group ((r.trees res.meta_.group).update res).1 } =
          some r') ∨
    (overlaps = [] ∧
      r' = { r with trees := Function.update r.trees res.meta_.group ((r.trees res.meta_.group).replaceOrInsert res) }) := by
  unfold addToTree at hadd
  split_ifs at hadd
  · obtain ⟨r'', hrun, hpair⟩ := Option.map_eq_some_iff.mp hadd
    cases hpair
    exact .inl ⟨rfl, hrun⟩
  · cases hadd
    exact .inr ⟨rfl, rfl⟩

/-- What `AddResource` does: `addToTree`, then `Put` into the map, then the
peer indices, which leave the map alone. -/
theorem addResource_cases {res : CachedResource} {r' : CachedResources} {overlaps : List CachedResource}
    (hadd : r.addResource res = some (r', overlaps)) :
    ∃ r₁, r.addToTree res = some (r₁, overlaps) ∧
      r'.resources = r₁.resources.put res := by
  unfold addResource at hadd
  cases htree : r.addToTree res with
  | none => simp [htree] at hadd
  | some p =>
    obtain ⟨r₁, o⟩ := p
    simp only [htree, Option.bind_eq_bind, Option.bind_some, Option.pure_def, Option.some.injEq,
      Prod.mk.injEq] at hadd
    obtain ⟨rfl, rfl⟩ := hadd
    exact ⟨r₁, rfl, addToSubTrees_resources res⟩

/-- What `SetResource` does: it takes resources out of the map and the trees
(the cached version of `res`, when its range or peers changed), then calls
`AddResource`. -/
theorem setResource_cases {res : CachedResource} {r' : CachedResources} {overlaps : List CachedResource}
    (hset : r.setResource res = some (r', overlaps)) :
    ∃ r₁, Removes r r₁ ∧ r₁.addResource res = some (r', overlaps) := by
  unfold setResource at hset
  split at hset
  · exact ⟨r, Removes.refl r, hset⟩
  next origin _ =>
    dsimp only at hset
    split_ifs at hset
    · exact ⟨_, (removes_removeResourceFromTreeAndMap origin).trans
        (removes_removeResourceFromSubTree origin), hset⟩
    · exact ⟨_, removes_removeResourceFromSubTree origin, hset⟩
    · exact ⟨_, removes_removeResourceFromTreeAndMap origin, hset⟩
    · exact ⟨r, Removes.refl r, hset⟩

variable {res : CachedResource} {r' : CachedResources} {overlaps : List CachedResource}

/-- The map after `SetResource`: `res` put into a map that holds at most what
the map of `r` held. -/
theorem setResource_map (hset : r.setResource res = some (r', overlaps)) :
    ∃ r₁ : CachedResources, (∀ id x, r₁.getResource id = some x → r.getResource id = some x) ∧
      r'.resources = r₁.resources.put res := by
  obtain ⟨r₁, hr₁, hadd⟩ := setResource_cases hset
  obtain ⟨r₂, htree, hmap⟩ := addResource_cases hadd
  -- updating the tree leaves the map, and the loop over the overlaps only removes
  have hr₂ : ∀ id x, r₂.getResource id = some x → r₁.getResource id = some x := by
    rcases addToTree_cases htree with ⟨-, hrun⟩ | ⟨-, rfl⟩
    · refine foldlM_removeResource_induction
        (P := fun r' => ∀ id x, r'.getResource id = some x → r₁.getResource id = some x)
        (fun _ y h id x hx => h id x ((removes_removeResource y).map id x hx)) _ ?_ hrun
      exact fun _ _ => id
    · exact fun _ _ => id
  exact ⟨r₂, fun id x hx => hr₁.map id x (hr₂ id x hx), hmap⟩

/-- After `SetResource`, the map holds `res` under its ID. -/
theorem getResource_setResource_self (hset : r.setResource res = some (r', overlaps)) :
    r'.getResource res.meta_.id = some res := by
  obtain ⟨r₁, -, hmap⟩ := setResource_map hset
  rw [getResource, hmap, ResourceMap.get_put, if_pos rfl]

/-- After `SetResource`, the map holds under every other ID at most what it
held before: an overlapped resource leaves it, nothing else changes. -/
theorem getResource_setResource_of_ne (hset : r.setResource res = some (r', overlaps))
    {id : UInt64} (hid : id ≠ res.meta_.id) {x : CachedResource} (hx : r'.getResource id = some x) :
    r.getResource id = some x := by
  obtain ⟨r₁, hr₁, hmap⟩ := setResource_map hset
  rw [getResource, hmap, ResourceMap.get_put, if_neg hid] at hx
  exact hr₁ id x hx

/-- The resources `SetResource` returns as overlapped are among those
`GetOverlaps` finds before it, on a well-formed tree of the group of `res`. -/
theorem mem_getOverlaps_of_setResource (hw : (r.trees res.meta_.group).WellFormed)
    (hs : Below res.meta_.end_ res.meta_.start) (hset : r.setResource res = some (r', overlaps))
    {x : CachedResource} (hx : x ∈ overlaps) : x ∈ r.getOverlaps res := by
  obtain ⟨r₁, hr₁, hadd⟩ := setResource_cases hset
  obtain ⟨r₂, htree, -⟩ := addResource_cases hadd
  rcases addToTree_cases htree with ⟨rfl, -⟩ | ⟨rfl, -⟩
  · -- the tree `addToTree` updates holds fewer resources than that of `r`
    exact ResourceTree.mem_getOverlaps_of_subset hw (hr₁.trees _) hs hx
  · cases hx

/-- The states of the cache reached from `NewCachedResources` by `SetResource`
of resources with non-empty ranges and by `RemoveResource`. -/
inductive Reachable : CachedResources → Prop where
  | init : Reachable newCachedResources
  | setResource {r r' : CachedResources} {res : CachedResource} {overlaps : List CachedResource} :
      Reachable r → Below res.meta_.end_ res.meta_.start → r.setResource res = some (r', overlaps) →
        Reachable r'
  | removeResource {r : CachedResources} (res : CachedResource) :
      Reachable r → Reachable (r.removeResource res)

theorem Reachable.inv (hr : Reachable r) : r.Inv := by
  induction hr with
  | init => exact inv_newCachedResources
  | setResource _ hs hset ih => exact ih.setResource hs hset
  | removeResource res _ ih => exact ih.removeResource res

/-! ## The leaders index across groups

The sub-trees are indexed by container only, while the trees of resources are
per group: resources of two groups may cover the same keys, but one
container's sub-tree keeps at most one of them. -/

/-- A voter of `res` on the container is its leader. -/
def LeaderOn (res : CachedResource) (containerID : UInt64) : Prop :=
  ∃ peer ∈ res.getVoters, peer.id = res.getLeaderID ∧ peer.containerID = containerID

/-- The leaders index is exact: the sub-tree of each container holds the cached
resources whose leader is on it, and only those. -/
def LeadersExact (r : CachedResources) : Prop :=
  ∀ containerID x, x ∈ (r.leaders containerID).tree.items ↔
    x ∈ r.resources.m.items ∧ LeaderOn x containerID

/-- In no reachable state is the leaders index exact while two cached resources
with overlapping ranges are led from one container. -/
theorem Reachable.not_leadersExact (hr : Reachable r) {a b : CachedResource} {containerID : UInt64}
    (ha : a ∈ r.resources.m.items) (hb : b ∈ r.resources.m.items) (hne : a ≠ b)
    (hoverlap : ¬ Disjoint a.range b.range) (hla : LeaderOn a containerID)
    (hlb : LeaderOn b containerID) : ¬ r.LeadersExact := by
  intro hexact
  have hta := (hexact containerID a).mpr ⟨ha, hla⟩
  have htb := (hexact containerID b).mpr ⟨hb, hlb⟩
  exact hoverlap ((hr.inv.leaders containerID).disjoint a hta b htb hne)

/-- Two resources of groups 0 and 1, both over all keys and led from container
1: after `SetResource` of both, the first is cached and in the tree of its
group, but the leaders sub-tree of container 1 holds only the second. -/
theorem setResource_second_group_evicts_leader :
    ((newCachedResources.setResource
        { meta_ := { id := 1, group := 0, peers := [{ id := 1, containerID := 1 }] },
          leader := some { id := 1, containerID := 1 } }).bind fun p =>
      p.1.setResource
        { meta_ := { id := 2, group := 1, peers := [{ id := 2, containerID := 1 }] },
          leader := some { id := 2, containerID := 1 } }).map
      (fun p => (p.1.getResource 1, (p.1.trees 0).items, (p.1.leaders 1).tree.items)) =
    some (some { meta_ := { id := 1, group := 0, peers := [{ id := 1, containerID := 1 }] },
                 leader := some { id := 1, containerID := 1 } },
          [{ meta_ := { id := 1, group := 0, peers := [{ id := 1, containerID := 1 }] },
             leader := some { id := 1, containerID := 1 } }],
          [{ meta_ := { id := 2, group := 1, peers := [{ id := 2, containerID := 1 }] },
             leader := some { id := 2, containerID := 1 } }]) := by
  decide

end CachedResources

end MatrixCube.Prophet
