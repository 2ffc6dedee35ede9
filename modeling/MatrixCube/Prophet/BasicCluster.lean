import MatrixCube.Prophet.Heartbeat

/-! # The basic cluster of prophet

`BasicCluster` (`core/basic_cluster.go`) holds the cached containers and
resources, the IDs of the removed resources and the resources waiting to be
created. `CheckAndPutResource` files a resource by the state of its metadata:
a removed one joins the removed IDs, one waiting to be created joins the
waiting map, and any other is checked by `PreCheckPutResource` and put.

`PreCheckPutResource` returns the cached version together with its error, and
nil in place of the cached version when the error is a stale overlap.
`CheckAndPutResource` logs the metadata of what it returned on every error,
so a stale overlap dereferences nil.

The containers are not read here and are left out; the roaring bitmap of
removed IDs is a list.
-/

namespace MatrixCube.Prophet

open CachedResource

/-- `metapb.ResourceState`. -/
inductive ResourceState where
  | running
  | waittingCreate
  | removed
  deriving DecidableEq, Repr

/-- `BasicCluster`, without the containers. -/
structure BasicCluster where
  resources : CachedResources
  removedResources : List UInt64
  waittingCreateResources : UInt64 → Option Shard

namespace BasicCluster

/-- `AddRemovedResources` of one ID. -/
def addRemovedResources (bc : BasicCluster) (id : UInt64) : BasicCluster :=
  { bc with removedResources := bc.removedResources.insert id }

/-- `AddWaittingCreateResources` of one resource. -/
def addWaittingCreateResources (bc : BasicCluster) (res : Shard) : BasicCluster :=
  { bc with waittingCreateResources := Function.update bc.waittingCreateResources res.id (some res) }

/-- `PreCheckPutResource` with both of its results: the resource it returns
and the error. -/
def preCheckPutResourceWithOrigin (bc : BasicCluster) (res : CachedResource) :
    Option CachedResource × Option HeartbeatError :=
  match bc.resources.staleOverlap res, bc.resources.getResource res.meta_.id with
  | some item, _ => (none, some (.resourceIsStale res.meta_ item.meta_))
  | none, none => (none, none)
  | none, some origin =>
    if res.isStale origin then (some origin, some (.resourceIsStale res.meta_ origin.meta_))
    else (some origin, none)

/-- `PutResource`: `SetResource` on the cached resources; `none` is its panic. -/
def putResource (bc : BasicCluster) (res : CachedResource) : Option (BasicCluster × List CachedResource) :=
  (bc.resources.setResource res).map fun (r, overlaps) => ({ bc with resources := r }, overlaps)

/-- `CheckAndPutResource`, where `state` is `res.Meta.State()`. A rejected
resource is returned for deletion after the log of `origin.Meta`, and `none`
is the dereference of a nil `origin` there, or a panic of `PutResource`. -/
def checkAndPutResource (bc : BasicCluster) (state : ResourceState) (res : CachedResource) :
    Option (BasicCluster × List CachedResource) :=
  match state with
  | .removed => some (bc.addRemovedResources res.meta_.id, [])
  | .waittingCreate => some (bc.addWaittingCreateResources res.meta_, [])
  | .running =>
    match bc.preCheckPutResourceWithOrigin res with
    | (origin, some _) => origin.map fun _ => (bc, [res])
    | (_, none) => bc.putResource res

variable {bc : BasicCluster} {res : CachedResource}

/-- The error of `PreCheckPutResource` is the one of the cache's check, which
returns the cached version when it passes. -/
theorem preCheckPutResource_eq (bc : BasicCluster) (res : CachedResource) :
    bc.resources.preCheckPutResource res =
      match bc.preCheckPutResourceWithOrigin res with
      | (_, some err) => .error err
      | (origin, none) => .ok origin := by
  unfold preCheckPutResourceWithOrigin CachedResources.preCheckPutResource
  cases bc.resources.staleOverlap res with
  | some item => rfl
  | none =>
    cases bc.resources.getResource res.meta_.id with
    | none => rfl
    | some origin => by_cases hs : res.isStale origin <;> simp [hs]

/-- `PreCheckPutResource` returns nil with its error exactly when the error is
a stale overlap. -/
theorem preCheckPutResourceWithOrigin_fst_eq_none {err : HeartbeatError}
    (h : (bc.preCheckPutResourceWithOrigin res).2 = some err) :
    (bc.preCheckPutResourceWithOrigin res).1 = none ↔ (bc.resources.staleOverlap res).isSome := by
  unfold preCheckPutResourceWithOrigin at h ⊢
  cases hstale : bc.resources.staleOverlap res with
  | some item => simp
  | none =>
    rw [hstale] at h
    cases horigin : bc.resources.getResource res.meta_.id with
    | none =>
      rw [horigin] at h
      cases h
    | some origin =>
      rw [horigin] at h
      by_cases hs : res.isStale origin <;> simp [hs] at h ⊢

/-- On a rejected resource `CheckAndPutResource` dereferences nil when a
stale overlap rejected it, and otherwise returns it for deletion with the
cluster unchanged. -/
theorem checkAndPutResource_of_rejected {err : HeartbeatError}
    (h : bc.resources.preCheckPutResource res = .error err) :
    bc.checkAndPutResource .running res =
      if (bc.resources.staleOverlap res).isSome then none else some (bc, [res]) := by
  rw [preCheckPutResource_eq] at h
  rcases hpair : bc.preCheckPutResourceWithOrigin res with ⟨origin, err'⟩
  rw [hpair] at h
  cases err' with
  | none => cases h
  | some e =>
    have hnil := preCheckPutResourceWithOrigin_fst_eq_none (by rw [hpair])
    rw [hpair] at hnil
    simp only [checkAndPutResource, hpair]
    cases origin with
    | none => simp [hnil.mp rfl]
    | some o =>
      -- a cached version came back, so the rejection was not by an overlap
      have hnone : (bc.resources.staleOverlap res).isSome = false := by
        cases hs : (bc.resources.staleOverlap res).isSome with
        | false => rfl
        | true => exact nomatch hnil.mpr hs
      simp [hnone]

/-- A resource that passes `PreCheckPutResource` is put. -/
theorem checkAndPutResource_of_passed {o : Option CachedResource}
    (h : bc.resources.preCheckPutResource res = .ok o) :
    bc.checkAndPutResource .running res = bc.putResource res := by
  rw [preCheckPutResource_eq] at h
  rcases hpair : bc.preCheckPutResourceWithOrigin res with ⟨origin, err⟩
  rw [hpair] at h
  cases err with
  | none => simp only [checkAndPutResource, hpair]
  | some e => cases h

/-- A removed resource, or one waiting to be created, leaves the cached
resources as they are and nothing to delete. -/
theorem checkAndPutResource_not_running {state : ResourceState} (hstate : state ≠ .running) :
    ∃ bc', bc.checkAndPutResource state res = some (bc', []) ∧ bc'.resources = bc.resources := by
  cases state with
  | running => exact absurd rfl hstate
  | waittingCreate => exact ⟨_, rfl, rfl⟩
  | removed => exact ⟨_, rfl, rfl⟩

/-- `CheckAndPutResource` faults on a reachable cache: a resource of a new ID
whose range overlaps a cached resource of a greater version is rejected by
the overlap check, `PreCheckPutResource` returns nil with the error, and the
log dereferences it. -/
theorem checkAndPutResource_stale_overlap_panics :
    let cached : CachedResource := { meta_ := { id := 1, start := [1], end_ := [3], epoch := { version := 2 } } }
    let res : CachedResource := { meta_ := { id := 2, start := [2], end_ := [4], epoch := { version := 1 } } }
    ∃ bc : BasicCluster, CachedResources.Reachable bc.resources ∧ bc.resources.getResource 1 = some cached ∧
      bc.resources.preCheckPutResource res = .error (.resourceIsStale res.meta_ cached.meta_) ∧
      bc.checkAndPutResource .running res = none := by
  intro cached res
  let r := ((newCachedResources.setResource cached).map Prod.fst).getD newCachedResources
  have hset : newCachedResources.setResource cached = some (r, []) := rfl
  have hreach : CachedResources.Reachable r := .setResource .init (by decide) hset
  have hpre : r.preCheckPutResource res = .error (.resourceIsStale res.meta_ cached.meta_) := by decide
  refine ⟨⟨r, [], fun _ => none⟩, hreach, by decide, hpre, ?_⟩
  rw [checkAndPutResource_of_rejected hpre]
  rfl

end BasicCluster

end MatrixCube.Prophet
