import MatrixCube.Prophet.CachedResources
import MatrixCube.Lib.Transition

/-! # Resource heartbeats

`RaftCluster.processResourceHeartbeat` (`cluster/cluster.go`) puts the resource
a heartbeat reports into the cache in two locked sections. Under the read lock,
`PreCheckPutResource` (`core/basic_cluster.go`) rejects a stale heartbeat and
returns the cached version, from which the heartbeat decides what to save
(`saveKV`, `saveCache`, `isNew`). Under the write lock, when `saveCache`, it
checks the heartbeat again and calls `PutResource`, that is `SetResource`.
Other heartbeats run between the two sections, so the model is a transition
system: its state is the cache with the heartbeats waiting for their second
section, and its events are the first section of a new heartbeat and the
second section of a waiting one.

The check under the write lock keeps the cache fresh: a cached resource is
replaced only by one of no smaller version, conf version and term, and a
heartbeat whose range is new or changed displaces as overlapping only
resources of no greater version. A displaced resource leaves the cache,
though, and its version is forgotten: a later heartbeat of it with a smaller
version and a range that overlaps nothing puts it back.

What the sections also write (the stored metadata, the hot-region statistics,
the container status, the events) is not modelled. Whether the metadata of
the resource, cached or stored, is in state `Removed` is a parameter of the
first section.
-/

namespace MatrixCube.Prophet

open KeyRange

/-- A resource reported by a heartbeat. Its range is non-empty, as the range
of every shard is. -/
structure Heartbeat where
  res : CachedResource
  nonempty : Below res.meta_.end_ res.meta_.start

/-- `errResourceIsStale` and `errResourceRemoved`. -/
inductive HeartbeatError where
  | resourceIsStale (res origin : Shard)
  | resourceRemoved
  deriving DecidableEq, Repr

namespace CachedResource

/-- `res` is at least as fresh as `origin`: its version, conf version and
term are no smaller. -/
structure FreshLe (origin res : CachedResource) : Prop where
  version : origin.meta_.epoch.version ≤ res.meta_.epoch.version
  confVer : origin.meta_.epoch.confVer ≤ res.meta_.epoch.confVer
  term : origin.term ≤ res.term

theorem FreshLe.refl (r : CachedResource) : FreshLe r r := ⟨le_rfl, le_rfl, le_rfl⟩

theorem FreshLe.trans {a b c : CachedResource} (hab : FreshLe a b) (hbc : FreshLe b c) : FreshLe a c :=
  ⟨hab.version.trans hbc.version, hab.confVer.trans hbc.confVer, hab.term.trans hbc.term⟩

/-- The staleness test of `PreCheckPutResource` against the cached version:
an older version or conf version, or a term behind. -/
def isStale (res origin : CachedResource) : Bool :=
  decide (res.meta_.epoch.version < origin.meta_.epoch.version) ||
    decide (res.meta_.epoch.confVer < origin.meta_.epoch.confVer) || decide (res.term < origin.term)

theorem isStale_eq_false_iff {res origin : CachedResource} :
    res.isStale origin = false ↔ FreshLe origin res := by
  simp only [isStale, Bool.or_eq_false_iff, decide_eq_false_iff_not, not_lt]
  exact ⟨fun ⟨⟨h1, h2⟩, h3⟩ => ⟨h1, h2, h3⟩, fun ⟨h1, h2, h3⟩ => ⟨⟨h1, h2⟩, h3⟩⟩

end CachedResource

open CachedResource

/-- The range test of `PreCheckPutResource`: no version of the resource is
cached, or the cached one has another range. -/
def rangeChanged (origin : Option CachedResource) (res : CachedResource) : Bool :=
  match origin with
  | none => true
  | some origin => origin.getStartKey != res.getStartKey || origin.getEndKey != res.getEndKey

namespace CachedResources

/-- The overlap loop of `PreCheckPutResource`: when the resource is new or its
range changed, the first overlapped resource of a greater version. -/
def staleOverlap (r : CachedResources) (res : CachedResource) : Option CachedResource :=
  if rangeChanged (r.getResource res.meta_.id) res then
    (r.getOverlaps res).find? fun item => decide (res.meta_.epoch.version < item.meta_.epoch.version)
  else none

/-- `PreCheckPutResource`: a stale overlap makes the resource stale, then so
does a fresher cached version. It returns the cached version. -/
def preCheckPutResource (r : CachedResources) (res : CachedResource) :
    Except HeartbeatError (Option CachedResource) :=
  match r.staleOverlap res, r.getResource res.meta_.id with
  | some item, _ => .error (.resourceIsStale res.meta_ item.meta_)
  | none, none => .ok none
  | none, some origin =>
    if res.isStale origin then .error (.resourceIsStale res.meta_ origin.meta_) else .ok (some origin)

variable {r : CachedResources} {res : CachedResource}

/-- Without a stale overlap, a resource whose range is new or changed is of no
smaller version than any overlapped resource. -/
theorem version_le_of_staleOverlap_eq_none (hstale : r.staleOverlap res = none)
    (hchanged : rangeChanged (r.getResource res.meta_.id) res = true) :
    ∀ item ∈ r.getOverlaps res, item.meta_.epoch.version ≤ res.meta_.epoch.version := by
  intro item hitem
  rw [staleOverlap, if_pos hchanged] at hstale
  exact not_lt.mp (of_decide_eq_false (Bool.eq_false_iff.mpr (List.find?_eq_none.mp hstale item hitem)))

/-- What a passed `PreCheckPutResource` guarantees: it returned the cached
version, `res` is at least as fresh as it, and, when the range is new or
changed, of no smaller version than any overlapped resource. -/
theorem preCheckPutResource_ok {o : Option CachedResource} (h : r.preCheckPutResource res = .ok o) :
    o = r.getResource res.meta_.id ∧
      (∀ origin, r.getResource res.meta_.id = some origin → FreshLe origin res) ∧
      (rangeChanged (r.getResource res.meta_.id) res = true →
        ∀ item ∈ r.getOverlaps res, item.meta_.epoch.version ≤ res.meta_.epoch.version) := by
  unfold preCheckPutResource at h
  split at h
  · cases h
  · -- no version cached
    next hstale horigin =>
    cases h
    refine ⟨horigin.symm, fun origin h' => ?_, version_le_of_staleOverlap_eq_none hstale⟩
    rw [horigin] at h'
    cases h'
  · -- a version cached, and the second test passed too
    next origin hstale horigin =>
    split_ifs at h with hs
    cases h
    refine ⟨horigin.symm, fun origin' h' => ?_, version_le_of_staleOverlap_eq_none hstale⟩
    rw [horigin] at h'
    cases h'
    exact isStale_eq_false_iff.mp (Bool.eq_false_iff.mpr hs)

end CachedResources

/-! ## The two sections of a heartbeat -/

/-- `SortedPeersEqual`: the same length and the same IDs, position by position. -/
def sortedPeersEqual (peersA peersB : List Peer) : Bool :=
  peersA.length == peersB.length && (peersA.zip peersB).all fun (a, b) => a.id == b.id

/-- `SortedPeersStatsEqual`: `SortedPeersEqual` on the peers of the stats. -/
def sortedPeersStatsEqual (peersA peersB : List PeerStats) : Bool :=
  sortedPeersEqual (peersA.map (·.peer)) (peersB.map (·.peer))

/-- What a heartbeat decides after its first section: `saveKV` (store the
metadata), `saveCache` (put the resource into the cache) and `isNew` (the
cached version has no leader). -/
structure SaveFlags where
  saveKV : Bool
  saveCache : Bool
  isNew : Bool
  deriving DecidableEq, Repr

/-- The flags of `processResourceHeartbeat` from the cached version: everything
for a new resource; else the metadata when the epoch grew or the peer count
changed, and the cache also when the leader, the down or pending peers, the
approximate size or keys or the flow changed. -/
def saveFlags (res : CachedResource) : Option CachedResource → SaveFlags
  | none => ⟨true, true, true⟩
  | some origin =>
    let epochGrew := decide (origin.meta_.epoch.version < res.meta_.epoch.version) ||
      decide (origin.meta_.epoch.confVer < res.meta_.epoch.confVer)
    let leaderChanged := res.getLeaderID != origin.getLeaderID
    let saveKV := epochGrew || res.meta_.peers.length != origin.meta_.peers.length
    let saveCache := saveKV || leaderChanged ||
      !sortedPeersStatsEqual res.downPeers origin.downPeers ||
      !sortedPeersEqual res.pendingPeers origin.pendingPeers ||
      res.approximateSize != origin.approximateSize || res.approximateKeys != origin.approximateKeys ||
      res.writtenBytes != origin.writtenBytes || res.readBytes != origin.readBytes ||
      res.writtenKeys != origin.writtenKeys || res.readKeys != origin.readKeys
    ⟨saveKV, saveCache, leaderChanged && origin.getLeaderID == 0⟩

/-- A heartbeat waiting for its second section. -/
structure PendingHeartbeat where
  hb : Heartbeat
  flags : SaveFlags

/-- The first locked section of `processResourceHeartbeat` and the checks
after it. `removed` says whether the metadata of the resource is in state
`Removed`, `hot` whether the hot-region checks returned items. The heartbeat
then waits for its second section, or returns: with an error, or with nothing
to write. -/
def beginHeartbeat (r : CachedResources) (hb : Heartbeat) (removed hot : Bool) :
    Except HeartbeatError (Option PendingHeartbeat) := do
  let origin ← r.preCheckPutResource hb.res
  if removed then throw .resourceRemoved
  let flags := saveFlags hb.res origin
  if !hot && !flags.saveKV && !flags.saveCache && !flags.isNew then return none
  return some ⟨hb, flags⟩

/-- The second locked section: with `saveCache`, `PreCheckPutResource` again,
then `PutResource`. It returns the cache and the overlapped resources, or the
error; `none` where `SetResource` panics. -/
def putHeartbeat (r : CachedResources) (p : PendingHeartbeat) :
    Option (Except HeartbeatError (CachedResources × List CachedResource)) :=
  if p.flags.saveCache then
    match r.preCheckPutResource p.hb.res with
    | .error e => some (.error e)
    | .ok _ => (r.setResource p.hb.res).map .ok
  else some (.ok (r, []))

variable {r r' : CachedResources} {p : PendingHeartbeat} {overlaps : List CachedResource}

/-- What the second section does to the cache: nothing, or `SetResource` of a
resource that passed `PreCheckPutResource` on that same cache. -/
theorem putHeartbeat_cases {result : Except HeartbeatError (CachedResources × List CachedResource)}
    (h : putHeartbeat r p = some result) :
    (∃ e, result = .error e) ∨ result = .ok (r, []) ∨
      ∃ o r' overlaps, r.preCheckPutResource p.hb.res = .ok o ∧
        r.setResource p.hb.res = some (r', overlaps) ∧ result = .ok (r', overlaps) := by
  unfold putHeartbeat at h
  split_ifs at h
  · split at h
    · cases h
      exact .inl ⟨_, rfl⟩
    · next o hpre =>
      obtain ⟨⟨r', overlaps⟩, hset, rfl⟩ := Option.map_eq_some_iff.mp h
      exact .inr (.inr ⟨o, r', overlaps, hpre, hset, rfl⟩)
  · cases h
    exact .inr (.inl rfl)

/-- A heartbeat whose range is new or changed displaces as overlapping only
resources of no greater version, on a cache whose trees are well formed. -/
theorem putHeartbeat_displaced_version_le (hr : r.Inv)
    (h : putHeartbeat r p = some (.ok (r', overlaps)))
    (hchanged : rangeChanged (r.getResource p.hb.res.meta_.id) p.hb.res = true) :
    ∀ item ∈ overlaps, item.meta_.epoch.version ≤ p.hb.res.meta_.epoch.version := by
  intro item hitem
  rcases putHeartbeat_cases h with ⟨e, he⟩ | he | ⟨o, r'', overlaps', hpre, hset, he⟩
  · cases he
  · cases he
    cases hitem
  · cases he
    -- the overlapped resources were found, and checked, before `SetResource`
    have hfound := CachedResources.mem_getOverlaps_of_setResource (hr.trees _) p.hb.nonempty hset hitem
    exact (CachedResources.preCheckPutResource_ok hpre).2.2 hchanged item hfound

/-! ## Interleaved heartbeats -/

/-- The cache of a `RaftCluster` with the heartbeats waiting for their second
section. -/
structure HeartbeatCluster where
  core : CachedResources
  pending : List PendingHeartbeat

/-- The first section of a heartbeat, or the second section of the waiting
heartbeat at an index. -/
inductive HeartbeatEvent where
  | begin (hb : Heartbeat) (removed hot : Bool)
  | finish (i : Nat)

namespace HeartbeatCluster

/-- One locked section; `none` when no heartbeat waits at the index or
`SetResource` panics. -/
def step (c : HeartbeatCluster) : HeartbeatEvent → Option HeartbeatCluster
  | .begin hb removed hot =>
    match beginHeartbeat c.core hb removed hot with
    | .ok (some p) => some { c with pending := c.pending ++ [p] }
    | _ => some c
  | .finish i =>
    match c.pending[i]? with
    | none => none
    | some p =>
      (putHeartbeat c.core p).map fun
        | .error _ => { c with pending := c.pending.eraseIdx i }
        | .ok (core, _) => { core, pending := c.pending.eraseIdx i }

/-- A cluster starts from a cache reached by `SetResource` and
`RemoveResource` (loading the stored resources), with no heartbeat waiting. -/
def Initial (c : HeartbeatCluster) : Prop :=
  CachedResources.Reachable c.core ∧ c.pending = []

/-- The states of every interleaving of heartbeats. -/
abbrev Reachable : HeartbeatCluster → Prop := Transition.Reachable step Initial

variable {c c' : HeartbeatCluster} {e : HeartbeatEvent}

/-- What one section does to the cache: nothing, or `SetResource` of a waiting
heartbeat that passed `PreCheckPutResource` on that same cache. -/
theorem step_cases (h : c.step e = some c') :
    c'.core = c.core ∨
      ∃ p ∈ c.pending, ∃ o overlaps, c.core.preCheckPutResource p.hb.res = .ok o ∧
        c.core.setResource p.hb.res = some (c'.core, overlaps) := by
  cases e with
  | begin hb removed hot =>
    -- the first section only adds a waiting heartbeat
    left
    simp only [step] at h
    split at h <;> cases h <;> rfl
  | finish i =>
    simp only [step] at h
    split at h
    · cases h
    · next p hp =>
      obtain ⟨result, hput, rfl⟩ := Option.map_eq_some_iff.mp h
      rcases putHeartbeat_cases hput with ⟨e, rfl⟩ | rfl | ⟨o, r', overlaps, hpre, hset, rfl⟩
      · exact .inl rfl
      · exact .inl rfl
      · exact .inr ⟨p, List.mem_of_getElem? hp, o, overlaps, hpre, hset⟩

/-- The cache of every reachable cluster is reached by `SetResource` of
resources with non-empty ranges. -/
theorem Reachable.core (hc : c.Reachable) : CachedResources.Reachable c.core := by
  refine Transition.Reachable.induction (P := fun c => CachedResources.Reachable c.core)
    (fun _ hinit => hinit.1) (fun c _ c' hcore hstep => ?_) hc
  rcases step_cases hstep with heq | ⟨p, -, -, overlaps, -, hset⟩
  · rw [heq]
    exact hcore
  · exact .setResource hcore p.hb.nonempty hset

/-- One section never makes a cached resource staler: an ID cached before and
after it is cached after with no smaller version, conf version and term. -/
theorem step_freshLe (h : c.step e = some c') {id : UInt64} {o n : CachedResource}
    (ho : c.core.getResource id = some o) (hn : c'.core.getResource id = some n) : FreshLe o n := by
  rcases step_cases h with heq | ⟨p, -, o', overlaps, hpre, hset⟩
  · rw [heq, ho] at hn
    cases hn
    exact FreshLe.refl o
  · by_cases hid : id = p.hb.res.meta_.id
    · -- the ID of the heartbeat: the check under the write lock compared it with `o`
      subst hid
      rw [CachedResources.getResource_setResource_self hset] at hn
      cases hn
      exact (CachedResources.preCheckPutResource_ok hpre).2.1 o ho
    · -- another ID keeps its resource or leaves the cache
      have hkept := CachedResources.getResource_setResource_of_ne hset hid hn
      rw [ho] at hkept
      cases hkept
      exact FreshLe.refl o

/-- A step after which the resource of `id` is cached. -/
def StepKeeping (id : UInt64) (c c' : HeartbeatCluster) : Prop :=
  (∃ e, c.step e = some c') ∧ (c'.core.getResource id).isSome

/-- The run lemma: along a run in which the resource of `id` stays cached, it
only gets fresher. -/
theorem freshLe_of_keeping {id : UInt64} {o : CachedResource} (ho : c.core.getResource id = some o)
    (hrun : Relation.ReflTransGen (StepKeeping id) c c') :
    ∃ n, c'.core.getResource id = some n ∧ FreshLe o n := by
  induction hrun with
  | refl => exact ⟨o, ho, FreshLe.refl o⟩
  | tail _ hstep ih =>
    obtain ⟨m, hm, hom⟩ := ih
    obtain ⟨⟨e, he⟩, hcached⟩ := hstep
    obtain ⟨n, hn⟩ := Option.isSome_iff_exists.mp hcached
    exact ⟨n, hn, hom.trans (step_freshLe he hm hn)⟩

/-- Heartbeat freshness over every interleaving of heartbeats: from a
reachable cluster, along any run in which a resource stays cached, its
version, conf version and term never decrease; and the second section of a
waiting heartbeat whose range is new or changed displaces as overlapping only
resources of no greater version. -/
theorem processResourceHeartbeat_keeps_cache_fresh (hc : c.Reachable) :
    (∀ id c' o n, Relation.ReflTransGen (StepKeeping id) c c' →
      c.core.getResource id = some o → c'.core.getResource id = some n → FreshLe o n) ∧
    ∀ p ∈ c.pending, ∀ core overlaps, putHeartbeat c.core p = some (.ok (core, overlaps)) →
      rangeChanged (c.core.getResource p.hb.res.meta_.id) p.hb.res = true →
        ∀ item ∈ overlaps, item.meta_.epoch.version ≤ p.hb.res.meta_.epoch.version := by
  refine ⟨fun id c' o n hrun ho hn => ?_, fun p _ core overlaps hput hchanged => ?_⟩
  · obtain ⟨n', hn', hfresh⟩ := freshLe_of_keeping ho hrun
    rw [hn] at hn'
    cases hn'
    exact hfresh
  · exact putHeartbeat_displaced_version_le hc.core.inv hput hchanged

/-- A reached cluster: resource 1 over `[1, 3)` at version 5 is cached, and
the heartbeat of resource 2 over the same range at version 6 waits for its
second section, which would displace resource 1. -/
theorem processResourceHeartbeat_keeps_cache_fresh_waiting :
    let x : CachedResource := { meta_ := { id := 1, start := [1], end_ := [3], epoch := { version := 5 } } }
    let y : CachedResource := { meta_ := { id := 2, start := [1], end_ := [3], epoch := { version := 6 } } }
    let c := (Transition.runFrom step ⟨newCachedResources, []⟩
      [.begin ⟨x, by decide⟩ false false, .finish 0, .begin ⟨y, by decide⟩ false false]).getD
        ⟨newCachedResources, []⟩
    c.core.getResource 1 = some x ∧ c.pending.map (·.hb.res) = [y] ∧
      c.pending.map (fun p => ((putHeartbeat c.core p).bind Except.toOption).map Prod.snd) = [some [x]] ∧
      c.Reachable ∧
      (∀ id c' o n, Relation.ReflTransGen (StepKeeping id) c c' →
        c.core.getResource id = some o → c'.core.getResource id = some n → FreshLe o n) ∧
      ∀ p ∈ c.pending, ∀ core overlaps, putHeartbeat c.core p = some (.ok (core, overlaps)) →
        rangeChanged (c.core.getResource p.hb.res.meta_.id) p.hb.res = true →
          ∀ item ∈ overlaps, item.meta_.epoch.version ≤ p.hb.res.meta_.epoch.version := by
  intro x y c
  have hrun : Transition.runFrom step ⟨newCachedResources, []⟩
      [.begin ⟨x, by decide⟩ false false, .finish 0, .begin ⟨y, by decide⟩ false false] = some c := rfl
  have hc : c.Reachable := Transition.Reachable.runFrom (.init ⟨.init, rfl⟩) _ hrun
  exact ⟨by decide, by decide, by decide, hc, processResourceHeartbeat_keeps_cache_fresh hc⟩

/-- A resource displaced as overlapping comes back older. Resource 1 over
`[1, 3)` at version 5 is cached; resource 2 over the same range at version 6
displaces it; then a heartbeat of resource 1 at version 1 over `[5, 7)`, which
overlaps nothing, puts it back. -/
theorem heartbeat_displaced_resource_returns_older :
    let x : CachedResource := { meta_ := { id := 1, start := [1], end_ := [3], epoch := { version := 5 } } }
    let y : CachedResource := { meta_ := { id := 2, start := [1], end_ := [3], epoch := { version := 6 } } }
    let x' : CachedResource := { meta_ := { id := 1, start := [5], end_ := [7], epoch := { version := 1 } } }
    let run := fun evs => (Transition.runFrom step ⟨newCachedResources, []⟩ evs).map fun c => c.core.getResource 1
    run [.begin ⟨x, by decide⟩ false false, .finish 0] = some (some x) ∧
      run [.begin ⟨x, by decide⟩ false false, .finish 0, .begin ⟨y, by decide⟩ false false, .finish 0] =
        some none ∧
      run [.begin ⟨x, by decide⟩ false false, .finish 0, .begin ⟨y, by decide⟩ false false, .finish 0,
        .begin ⟨x', by decide⟩ false false, .finish 0] = some (some x') := by
  exact ⟨rfl, rfl, rfl⟩

end HeartbeatCluster

end MatrixCube.Prophet
