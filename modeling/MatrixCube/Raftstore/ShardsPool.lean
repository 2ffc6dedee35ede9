import MatrixCube.Pb
import MatrixCube.Lib.BigEndian

/-! # The dynamic shards pool job

`dynamicShardsPool` keeps, for each group, a pool of shards created ahead of
need. `maybeCreate` creates the next shard of a group (`Seq` grows) while it has
fewer idle shards than its capacity, `doAllocLocked` hands out the next idle one
(`AllocatedOffset` grows) and records the purpose it was asked for, and
`gcAllocating` forgets allocations whose shard has been written. A failed
`AsyncAddResources` or save puts back the clone of the data taken first.

The state holds the job data (`mu.pools`) and the shards the cluster has
created for the job: the cluster adds a requested shard unless one with its
`Unique` already exists. Whether a request reaches the cluster, and whether a
save succeeds, are inputs of each call.

`Inv` is kept by every call: within a run of `n` calls each pool has
`AllocatedOffset ≤ Seq ≤ n`, distinct purposes and distinct `AllocatedAt` in
`(0, AllocatedOffset]`, and the shards of one group have distinct uniques, so
their ranges are distinct windows of the group's prefix.
-/

namespace MatrixCube.Raftstore.ShardsPool

open BigEndian

/-- `metapb.ResourcePool`. -/
structure ResourcePool where
  group : UInt64 := 0
  capacity : UInt64 := 0
  rangePrefix : Bytes := []
  deriving DecidableEq, Repr

/-- `bhmetapb.AllocatedShard`. -/
structure AllocatedShard where
  shardID : UInt64 := 0
  allocatedAt : UInt64 := 0
  purpose : Bytes := []
  deriving DecidableEq, Repr

/-- `bhmetapb.ShardPool`. -/
structure ShardPool where
  capacity : UInt64 := 0
  rangePrefix : Bytes := []
  allocatedShards : List AllocatedShard := []
  seq : UInt64 := 0
  allocatedOffset : UInt64 := 0
  deriving DecidableEq, Repr

/-- `bhmetapb.ShardsPoolAllocCmd`. -/
structure ShardsPoolAllocCmd where
  group : UInt64 := 0
  purpose : Bytes := []
  deriving DecidableEq, Repr

/-- The job data `mu.pools.Pools` and the shards the cluster created for the job. -/
structure PoolState where
  pools : UInt64 → Option ShardPool
  created : List Shard

/-- `Start` on a job without saved data: an empty pool for each configured group. -/
def start (pools : List ResourcePool) : PoolState where
  pools := pools.foldl (fun m p =>
    Function.update m p.group (some { capacity := p.capacity, rangePrefix := p.rangePrefix }))
    fun _ => none
  created := []

def addPrefix (rangePrefix : Bytes) (v : UInt64) : Bytes :=
  -- `format.Uint64ToBytes`, and `buf.Uint64ToBytesTo` after the prefix
  if rangePrefix.length = 0 then putUint64 v else rangePrefix ++ putUint64 v

/-- `unique`: `fmt.Sprintf("%d-%d-%d", dsp.job.Type, g, seq)` of the
`JobType_CreateResourcePool` job, whose type is `1`. -/
def unique (g seq : UInt64) : String := "1-" ++ toString g ++ "-" ++ toString seq

/-! ## `doAllocLocked` -/

/-- The ways `doAllocLocked` fails. -/
inductive AllocError where
  /-- the `*ShardPool` of a group the job does not have is nil: a panic -/
  | nilPool
  /-- `logger.Fatalf("BUG: missing alloced shard")` -/
  | missingShard
  /-- the error of `saveLocked` -/
  | saveFailed
  deriving DecidableEq, Repr

/-- The ID `fn` leaves after visiting `resources`: that of the last one with the unique. -/
def findID (unique : String) (resources : List Shard) (id : UInt64) : UInt64 :=
  resources.foldl (fun id res => if res.unique = unique then res.id else id) id

/-- `doAllocLocked`, with the waiting-create resources and the group's resources
it looks the new shard up in, and whether the save succeeds. A panic or a fatal
log ends the process before anything is saved, so the job data stays as it was. -/
def doAllocLocked (st : PoolState) (cmd : ShardsPoolAllocCmd) (waiting resources : List Shard)
    (saveOk : Bool) : Except AllocError (Option AllocatedShard) × PoolState :=
  match st.pools cmd.group with
  | none => (.error .nilPool, st)
  | some p =>
    -- no idle shard left: nothing is returned and the client retries later
    if p.seq - p.allocatedOffset = 0 then (.ok none, st)
    else
      match p.allocatedShards.find? (·.purpose == cmd.purpose) with
      | some allocated => (.ok (some allocated), st)
      | none =>
        let allocatedOffset := p.allocatedOffset + 1
        let unique := unique cmd.group allocatedOffset
        let id := findID unique waiting 0
        let id := if id = 0 then findID unique resources id else id
        if id = 0 then (.error .missingShard, st)
        else
          let allocated : AllocatedShard := ⟨id, allocatedOffset, cmd.purpose⟩
          let p := { p with allocatedOffset, allocatedShards := p.allocatedShards ++ [allocated] }
          -- a failed save puts back the clone taken before `AllocatedOffset++`
          if saveOk then (.ok (some allocated), { st with pools := Function.update st.pools cmd.group (some p) })
          else (.error .saveFailed, st)

/-! ## `maybeCreate` -/

/-- The shard `maybeCreate` asks for after `p.Seq++`. -/
def poolShard (g : UInt64) (p : ShardPool) : Shard :=
  { group := g, start := addPrefix p.rangePrefix p.seq, end_ := addPrefix p.rangePrefix (p.seq + 1),
    unique := unique g p.seq }

/-- One turn of the loop over the groups: a group with no shard yet, or with
fewer idle shards than its capacity while the batch has room, gets its next
shard. `int(...)` is Go's conversion of a `uint64` to a 64-bit `int`. -/
def createStep (acc : (UInt64 → Option ShardPool) × List Shard) (g : UInt64) :
    (UInt64 → Option ShardPool) × List Shard :=
  match acc.1 g with
  | none => acc
  | some p =>
    if p.seq = 0 ∨ (toInt64 (p.seq - p.allocatedOffset) < toInt64 p.capacity ∧ acc.2.length < 8) then
      let p := { p with seq := p.seq + 1 }
      (Function.update acc.1 g (some p), acc.2 ++ [poolShard g p])
    else acc

/-- What `HandleCreateResources` creates of a batch: each resource whose unique
no created resource has. -/
def addResources (created creates : List Shard) : List Shard :=
  created ++ creates.filter fun res => !created.any (·.unique == res.unique)

/-- `maybeCreate`, visiting the groups in `order` (Go's map order, each group
once), with whether the batch reaches the cluster, whether `AsyncAddResources`
returns no error and whether the save succeeds. -/
def maybeCreate (st : PoolState) (order : List UInt64) (sent addOk saveOk : Bool) : PoolState :=
  let (pools, creates) := order.foldl createStep (st.pools, [])
  if creates.length > 0 then
    let created := if sent then addResources st.created creates else st.created
    -- either failure puts back the clone taken before the loop
    if addOk ∧ saveOk then { pools, created } else { st with created }
  else st

/-! ## `gcAllocating` -/

/-- The indices of the allocations whose shard has written keys. -/
def gcIndices (p : ShardPool) (written : UInt64 → Bool) : List Nat :=
  (p.allocatedShards.zipIdx.filter fun (a, _) => written a.shardID).map (·.2)

/-- The pool `gcAllocating` leaves for a group with indices `ids` to drop.
`newP := p` copies the pointer, so truncating `newP.AllocatedShards` truncates
the slice the loop then ranges over. -/
def gcPool (p : ShardPool) (ids : List Nat) : ShardPool :=
  let newP := { p with allocatedShards := p.allocatedShards.take 0 }
  { newP with allocatedShards := (newP.allocatedShards.zipIdx.filter fun (_, idx) => idx ∉ ids).map (·.1) }

/-- A turn of the second loop of `gcAllocating`, for group `g`. -/
def gcStep (written : UInt64 → Bool) (pools : UInt64 → Option ShardPool) (g : UInt64) :
    UInt64 → Option ShardPool :=
  match pools g with
  | some p =>
    if gcIndices p written ≠ [] then Function.update pools g (some (gcPool p (gcIndices p written)))
    else pools
  | none => pools

/-- `gcAllocating` over the groups in `order`; its save has no rollback. -/
def gcAllocating (st : PoolState) (order : List UInt64) (written : UInt64 → Bool) : PoolState :=
  { st with pools := order.foldl (gcStep written) st.pools }

/-! ## Runs -/

/-- A call of the job, with what the environment decides in it. -/
inductive PoolEvent where
  | maybeCreate (order : {l : List UInt64 // l.Nodup}) (sent addOk saveOk : Bool)
  | alloc (cmd : ShardsPoolAllocCmd) (waiting resources : List Shard) (saveOk : Bool)
  | gcAllocating (order : List UInt64) (written : UInt64 → Bool)

def PoolState.exec (st : PoolState) : PoolEvent → PoolState
  | .maybeCreate order sent addOk saveOk => maybeCreate st order.1 sent addOk saveOk
  | .alloc cmd waiting resources saveOk => (doAllocLocked st cmd waiting resources saveOk).2
  | .gcAllocating order written => gcAllocating st order written

def PoolState.run (st : PoolState) : List PoolEvent → PoolState
  | [] => st
  | ev :: evs => (st.exec ev).run evs

theorem addPrefix_eq (rangePrefix : Bytes) (v : UInt64) :
    addPrefix rangePrefix v = rangePrefix ++ putUint64 v := by
  unfold addPrefix
  split_ifs with h
  · rw [List.eq_nil_of_length_eq_zero h, List.nil_append]
  · rfl

/-- `gcAllocating` leaves no allocation in a group it rewrites. -/
theorem gcPool_eq (p : ShardPool) (ids : List Nat) : gcPool p ids = { p with allocatedShards := [] } := by
  simp [gcPool]

/-! ## The invariant of one pool -/

/-- What each pool keeps within a run of `n` calls. -/
structure PoolInv (n : Nat) (p : ShardPool) : Prop where
  seq_le : p.seq.toNat ≤ n
  offset_le : p.allocatedOffset ≤ p.seq
  nodup_purpose : (p.allocatedShards.map (·.purpose)).Nodup
  nodup_allocatedAt : (p.allocatedShards.map (·.allocatedAt)).Nodup
  allocatedAt_mem : ∀ a ∈ p.allocatedShards, 0 < a.allocatedAt ∧ a.allocatedAt ≤ p.allocatedOffset

section PoolInv
variable {n m : Nat} {p : ShardPool}

theorem PoolInv.mono (h : PoolInv n p) (hn : n ≤ m) : PoolInv m p :=
  { h with seq_le := h.seq_le.trans hn }

/-- `Seq++` within `2 ^ 64` calls does not wrap. -/
theorem PoolInv.create (h : PoolInv n p) (hn : n + 1 < 2 ^ 64) :
    PoolInv (n + 1) { p with seq := p.seq + 1 } := by
  have hseq := h.seq_le
  have hoff := UInt64.le_iff_toNat_le.mp h.offset_le
  have hsucc : (p.seq + 1).toNat = p.seq.toNat + 1 := by
    rw [UInt64.toNat_add, UInt64.toNat_one, Nat.mod_eq_of_lt (by omega)]
  refine { h with seq_le := ?_, offset_le := ?_ }
  · show (p.seq + 1).toNat ≤ n + 1
    omega
  · show p.allocatedOffset ≤ p.seq + 1
    rw [UInt64.le_iff_toNat_le, hsucc]
    omega

/-- Handing out the next idle shard for a new purpose keeps the pool's facts. -/
theorem PoolInv.alloc (h : PoolInv n p) (hidle : p.seq - p.allocatedOffset ≠ 0)
    {purpose : Bytes} (hfind : p.allocatedShards.find? (·.purpose == purpose) = none) (id : UInt64) :
    PoolInv (n + 1)
      { p with
        allocatedOffset := p.allocatedOffset + 1
        allocatedShards := p.allocatedShards ++ [⟨id, p.allocatedOffset + 1, purpose⟩] } := by
  have hoff := UInt64.le_iff_toNat_le.mp h.offset_le
  -- an idle shard means `AllocatedOffset < Seq`, so `AllocatedOffset + 1` does not wrap
  have hlt : p.allocatedOffset.toNat < p.seq.toNat := by
    rcases Nat.lt_or_eq_of_le hoff with hlt | heq
    · exact hlt
    · exact absurd (by rw [UInt64.toNat_inj.mp heq, sub_self]) hidle
  have hsucc : (p.allocatedOffset + 1).toNat = p.allocatedOffset.toNat + 1 := by
    rw [UInt64.toNat_add, UInt64.toNat_one, Nat.mod_eq_of_lt (by have := p.seq.toNat_lt; omega)]
  have hnew : ∀ a ∈ p.allocatedShards, a.allocatedAt.toNat ≤ p.allocatedOffset.toNat :=
    fun a ha => UInt64.le_iff_toNat_le.mp (h.allocatedAt_mem a ha).2
  refine ⟨h.seq_le.trans (Nat.le_succ n), ?_, ?_, ?_, ?_⟩
  · show p.allocatedOffset + 1 ≤ p.seq
    rw [UInt64.le_iff_toNat_le, hsucc]
    omega
  · rw [List.map_append, List.nodup_append]
    refine ⟨h.nodup_purpose, List.nodup_singleton _, ?_⟩
    rintro _ hx _ hy rfl
    obtain ⟨a, ha, rfl⟩ := List.mem_map.mp hx
    rw [List.map_singleton, List.mem_singleton] at hy
    exact List.find?_eq_none.mp hfind a ha (by simpa using hy)
  · rw [List.map_append, List.nodup_append]
    refine ⟨h.nodup_allocatedAt, List.nodup_singleton _, ?_⟩
    rintro _ hx _ hy rfl
    obtain ⟨a, ha, rfl⟩ := List.mem_map.mp hx
    rw [List.map_singleton, List.mem_singleton] at hy
    have := hnew a ha
    rw [hy, hsucc] at this
    omega
  · intro a ha
    rw [UInt64.lt_iff_toNat_lt, UInt64.le_iff_toNat_le, hsucc]
    rcases List.mem_append.mp ha with ha | ha
    · have := hnew a ha
      have := UInt64.lt_iff_toNat_lt.mp (h.allocatedAt_mem a ha).1
      exact ⟨by simpa using this, by omega⟩
    · rw [List.mem_singleton] at ha
      subst ha
      exact ⟨by simp [hsucc], by simp [hsucc]⟩

theorem PoolInv.gc (h : PoolInv n p) : PoolInv n { p with allocatedShards := [] } :=
  ⟨h.seq_le, h.offset_le, List.nodup_nil, List.nodup_nil, fun _ ha => absurd ha List.not_mem_nil⟩

end PoolInv

/-! ## The invariant of the job -/

/-- A shard the cluster created for the job: window `s` of its group's prefix,
with the unique of `s`. -/
def IsPoolShard (pools : UInt64 → Option ShardPool) (sh : Shard) : Prop :=
  ∃ pre s, (pools sh.group).map (·.rangePrefix) = some pre ∧ sh.start = addPrefix pre s ∧
    sh.end_ = addPrefix pre (s + 1) ∧ sh.unique = unique sh.group s

/-- What every state reached within `n` calls keeps. -/
structure Inv (n : Nat) (st : PoolState) : Prop where
  pool : ∀ g p, st.pools g = some p → PoolInv n p
  created : ∀ sh ∈ st.created, IsPoolShard st.pools sh
  distinct : st.created.Pairwise fun a b => a.group = b.group → a.unique ≠ b.unique

/-- Every group keeps its pool or has it changed by `R`. -/
def Changes (R : ShardPool → ShardPool → Prop) (pools pools' : UInt64 → Option ShardPool) : Prop :=
  ∀ g, pools' g = pools g ∨ ∃ p p', pools g = some p ∧ pools' g = some p' ∧ R p p'

section Changes
variable {R : ShardPool → ShardPool → Prop} {pools pools' : UInt64 → Option ShardPool}

theorem Changes.prefix_eq (hc : Changes R pools pools')
    (hR : ∀ p p', R p p' → p'.rangePrefix = p.rangePrefix) (g : UInt64) :
    (pools' g).map (·.rangePrefix) = (pools g).map (·.rangePrefix) := by
  rcases hc g with h | ⟨p, p', hp, hp', hr⟩
  · rw [h]
  · rw [hp, hp', Option.map_some, Option.map_some, hR p p' hr]

theorem IsPoolShard.of_prefix_eq {sh : Shard} (h : IsPoolShard pools sh)
    (hpre : ∀ g, (pools' g).map (·.rangePrefix) = (pools g).map (·.rangePrefix)) :
    IsPoolShard pools' sh := by
  obtain ⟨pre, s, hg, rest⟩ := h
  exact ⟨pre, s, (hpre sh.group).trans hg, rest⟩

/-- Changing pools by a step that keeps each pool's facts and prefix keeps the invariant. -/
theorem Inv.of_changes {n : Nat} {st : PoolState} (hi : Inv n st) (hc : Changes R st.pools pools')
    (hR : ∀ p p', R p p' → PoolInv n p → PoolInv (n + 1) p')
    (hpre : ∀ p p', R p p' → p'.rangePrefix = p.rangePrefix) :
    Inv (n + 1) { st with pools := pools' } where
  pool g p' hp' := by
    change pools' g = some p' at hp'
    rcases hc g with h | ⟨p, p'', hp, hp'', hr⟩
    · exact (hi.pool g p' (h ▸ hp')).mono (Nat.le_succ n)
    · rw [hp'', Option.some.injEq] at hp'
      exact hp' ▸ hR p p'' hr (hi.pool g p hp)
  created sh hsh := (hi.created sh hsh).of_prefix_eq (hc.prefix_eq hpre)
  distinct := hi.distinct

end Changes

theorem Inv.mono {n : Nat} {st : PoolState} (hi : Inv n st) : Inv (n + 1) st :=
  ⟨fun g p hp => (hi.pool g p hp).mono (Nat.le_succ n), hi.created, hi.distinct⟩

/-- The cluster adding a batch of pool shards, one per group, keeps the invariant. -/
theorem Inv.addResources {n : Nat} {st : PoolState} (hi : Inv n st) {creates : List Shard}
    (hnew : ∀ c ∈ creates, IsPoolShard st.pools c) (hgroups : (creates.map (·.group)).Nodup) :
    Inv n { st with created := addResources st.created creates } := by
  refine ⟨hi.pool, fun sh hsh => ?_, ?_⟩
  · rcases List.mem_append.mp hsh with h | h
    · exact hi.created sh h
    · exact hnew sh (List.mem_filter.mp h).1
  · refine List.pairwise_append.mpr ⟨hi.distinct, ?_, ?_⟩
    · -- two new shards are of two groups
      refine List.Pairwise.imp (fun hne heq => absurd heq hne) ?_
      exact (List.pairwise_map.mp hgroups).sublist List.filter_sublist
    · -- a new shard's unique is none of the created ones
      intro a ha b hb _ hab
      have hfree := (List.mem_filter.mp hb).2
      simp only [Bool.not_eq_true', List.any_eq_false, beq_iff_eq] at hfree
      exact hfree a ha hab

theorem Changes.update {pools : UInt64 → Option ShardPool} {g : UInt64} {p : ShardPool}
    (hp : pools g = some p) (p' : ShardPool) :
    Changes (fun q q' => q = p ∧ q' = p') pools (Function.update pools g (some p')) := by
  intro g'
  by_cases hg : g' = g
  · subst hg
    exact .inr ⟨p, p', hp, Function.update_self .., rfl, rfl⟩
  · exact .inl (Function.update_of_ne hg ..)

/-! ## One call -/

/-- What `doAllocLocked` can do to the job data: nothing, or record the next
idle shard for a purpose not yet allocated. -/
theorem doAllocLocked_cases (st : PoolState) (cmd : ShardsPoolAllocCmd) (waiting resources : List Shard)
    (saveOk : Bool) :
    (doAllocLocked st cmd waiting resources saveOk).2 = st ∨
    ∃ p id, st.pools cmd.group = some p ∧ p.seq - p.allocatedOffset ≠ 0 ∧
      p.allocatedShards.find? (·.purpose == cmd.purpose) = none ∧
      (doAllocLocked st cmd waiting resources saveOk).2 =
        { st with pools := Function.update st.pools cmd.group (some
          { p with
            allocatedOffset := p.allocatedOffset + 1
            allocatedShards := p.allocatedShards ++ [⟨id, p.allocatedOffset + 1, cmd.purpose⟩] }) } := by
  unfold doAllocLocked
  cases hp : st.pools cmd.group with
  | none => exact .inl rfl
  | some p =>
    dsimp only
    by_cases hidle : p.seq - p.allocatedOffset = 0
    · rw [if_pos hidle]
      exact .inl rfl
    · rw [if_neg hidle]
      cases hfind : p.allocatedShards.find? (·.purpose == cmd.purpose) with
      | some a => exact .inl rfl
      | none =>
        dsimp only
        -- a missing shard and a failed save leave the data; a saved allocation is the change
        split_ifs <;> first | exact .inl rfl | exact .inr ⟨p, _, rfl, hidle, hfind, rfl⟩

theorem Inv.alloc {n : Nat} {st : PoolState} (hi : Inv n st) (cmd : ShardsPoolAllocCmd)
    (waiting resources : List Shard) (saveOk : Bool) :
    Inv (n + 1) (doAllocLocked st cmd waiting resources saveOk).2 := by
  rcases doAllocLocked_cases st cmd waiting resources saveOk with h | ⟨p, id, hp, hidle, hfind, h⟩ <;>
    rw [h]
  · exact hi.mono
  · refine hi.of_changes (Changes.update hp _) ?_ ?_
    · rintro q q' ⟨rfl, rfl⟩ hq
      exact hq.alloc hidle hfind id
    · rintro q q' ⟨rfl, rfl⟩
      rfl

/-- What one turn of the loop of `maybeCreate` can do. -/
theorem createStep_cases (acc : (UInt64 → Option ShardPool) × List Shard) (g : UInt64) :
    createStep acc g = acc ∨ ∃ p, acc.1 g = some p ∧
      createStep acc g = (Function.update acc.1 g (some { p with seq := p.seq + 1 }),
        acc.2 ++ [poolShard g { p with seq := p.seq + 1 }]) := by
  unfold createStep
  split
  · exact .inl rfl
  · next p hp =>
    split_ifs
    · exact .inr ⟨p, hp, rfl⟩
    · exact .inl rfl

theorem foldl_createStep_of_not_mem {g : UInt64} (order : List UInt64) (hg : g ∉ order)
    (acc : (UInt64 → Option ShardPool) × List Shard) : (order.foldl createStep acc).1 g = acc.1 g := by
  induction order generalizing acc with
  | nil => rfl
  | cons g' order ih =>
    rw [List.mem_cons, not_or] at hg
    rw [List.foldl_cons, ih hg.2]
    rcases createStep_cases acc g' with h | ⟨p, -, h⟩ <;> rw [h]
    exact Function.update_of_ne hg.1 ..

/-- The loop of `maybeCreate` over groups visited once each: every group keeps
its pool or takes its next `Seq`, and the batch gains one shard for each group
that did, the window of its new `Seq`. -/
theorem foldl_createStep (order : List UInt64) (hnd : order.Nodup)
    (acc : (UInt64 → Option ShardPool) × List Shard) :
    ∃ new, (order.foldl createStep acc).2 = acc.2 ++ new ∧
      Changes (fun p p' => p' = { p with seq := p.seq + 1 }) acc.1 (order.foldl createStep acc).1 ∧
      (new.map (·.group)).Sublist order ∧
      ∀ c ∈ new, ∃ p', (order.foldl createStep acc).1 c.group = some p' ∧ c = poolShard c.group p' := by
  induction order generalizing acc with
  | nil => exact ⟨[], by simp, fun _ => .inl rfl, List.Sublist.slnil, by simp⟩
  | cons g order ih =>
    rw [List.nodup_cons] at hnd
    obtain ⟨new, hcreates, hchanges, hsub, hnew⟩ := ih hnd.2 (createStep acc g)
    rw [List.foldl_cons]
    rcases createStep_cases acc g with h | ⟨p, hp, h⟩ <;> rw [h] at hcreates hchanges hnew ⊢
    · exact ⟨new, hcreates, hchanges, hsub.cons g, hnew⟩
    · -- `g` takes its next `Seq` now and no later turn visits it again
      have hlast : (order.foldl createStep (Function.update acc.1 g (some { p with seq := p.seq + 1 }),
          acc.2 ++ [poolShard g { p with seq := p.seq + 1 }])).1 g = some { p with seq := p.seq + 1 } := by
        rw [foldl_createStep_of_not_mem order hnd.1]
        exact Function.update_self ..
      refine ⟨poolShard g { p with seq := p.seq + 1 } :: new, by rw [hcreates]; simp, ?_, hsub.cons_cons g, ?_⟩
      · intro g'
        by_cases hg' : g' = g
        · subst hg'
          exact .inr ⟨p, _, hp, hlast, rfl⟩
        · rcases hchanges g' with hc | ⟨q, q', hq, hq', hr⟩
          · exact .inl (hc.trans (Function.update_of_ne hg' ..))
          · exact .inr ⟨q, q', by simpa [Function.update_of_ne hg'] using hq, hq', hr⟩
      · intro c hc
        rcases List.mem_cons.mp hc with rfl | hc
        · exact ⟨_, hlast, rfl⟩
        · exact hnew c hc

theorem Inv.maybeCreate {n : Nat} {st : PoolState} (hi : Inv n st) (hn : n + 1 < 2 ^ 64)
    (order : List UInt64) (hnd : order.Nodup) (sent addOk saveOk : Bool) :
    Inv (n + 1) (maybeCreate st order sent addOk saveOk) := by
  obtain ⟨new, hcreates, hchanges, hsub, hnew⟩ := foldl_createStep order hnd (st.pools, [])
  have hpre := hchanges.prefix_eq (fun p p' (h : p' = _) => h ▸ rfl)
  have hpools : Inv (n + 1) { st with pools := (order.foldl createStep (st.pools, [])).1 } :=
    hi.of_changes hchanges (fun p p' (h : p' = _) hp => h ▸ hp.create hn) (fun p p' (h : p' = _) => h ▸ rfl)
  -- every shard of the batch is a window of its group's prefix
  have hshard : ∀ c ∈ new, IsPoolShard (order.foldl createStep (st.pools, [])).1 c := by
    intro c hc
    obtain ⟨p', hp', hc'⟩ := hnew c hc
    rw [hc']
    exact ⟨p'.rangePrefix, p'.seq, by simp only [poolShard, hp', Option.map_some], rfl, rfl, rfl⟩
  have hgroups : (new.map (·.group)).Nodup := hnd.sublist hsub
  unfold MatrixCube.Raftstore.ShardsPool.maybeCreate
  rw [List.nil_append] at hcreates
  dsimp only
  rw [hcreates]
  split_ifs with hlen hsent hok hok
  · -- the batch reaches the cluster and the new `Seq`s are saved
    exact hpools.addResources hshard hgroups
  · exact hpools
  · -- the batch reaches the cluster, but the clone is put back
    exact (hi.addResources (fun c hc => (hshard c hc).of_prefix_eq fun g => (hpre g).symm) hgroups).mono
  · exact hi.mono
  · exact hi.mono

theorem gcStep_changes (written : UInt64 → Bool) (pools : UInt64 → Option ShardPool) (g : UInt64) :
    Changes (fun p p' => p' = { p with allocatedShards := [] }) pools (gcStep written pools g) := by
  unfold gcStep
  split
  · next p hp =>
    split_ifs
    · intro g'
      rcases Changes.update hp (gcPool p (gcIndices p written)) g' with h | ⟨q, q', hq, hq', rfl, rfl⟩
      · exact .inl h
      · exact .inr ⟨q, _, hq, hq', gcPool_eq _ _⟩
    · exact fun _ => .inl rfl
  · exact fun _ => .inl rfl

/-- The loop of `gcAllocating`: each group keeps its pool or loses all its
allocations; a group visited twice is cleared once. -/
theorem foldl_gcStep (written : UInt64 → Bool) (order : List UInt64) (pools : UInt64 → Option ShardPool) :
    Changes (fun p p' => p' = { p with allocatedShards := [] }) pools (order.foldl (gcStep written) pools) := by
  induction order generalizing pools with
  | nil => exact fun _ => .inl rfl
  | cons g order ih =>
    intro h
    rw [List.foldl_cons]
    rcases ih (gcStep written pools g) h with h1 | ⟨q, q', hq, hq', rfl⟩ <;>
      rcases gcStep_changes written pools g h with h2 | ⟨p, p', hp, hp', rfl⟩
    · exact .inl (h1.trans h2)
    · exact .inr ⟨p, _, hp, h1.trans hp', rfl⟩
    · exact .inr ⟨q, _, h2 ▸ hq, hq', rfl⟩
    · rw [hp', Option.some.injEq] at hq
      subst hq
      exact .inr ⟨p, _, hp, hq', rfl⟩

theorem Inv.gcAllocating {n : Nat} {st : PoolState} (hi : Inv n st) (order : List UInt64)
    (written : UInt64 → Bool) : Inv (n + 1) (gcAllocating st order written) :=
  hi.of_changes (foldl_gcStep written order st.pools)
    (fun _ _ (h : _ = _) hp => h ▸ hp.gc.mono (Nat.le_succ n)) (fun _ _ (h : _ = _) => h ▸ rfl)

theorem Inv.exec {n : Nat} {st : PoolState} (hi : Inv n st) (hn : n + 1 < 2 ^ 64) :
    ∀ ev : PoolEvent, Inv (n + 1) (st.exec ev)
  | .maybeCreate order sent addOk saveOk => hi.maybeCreate hn order.1 order.2 sent addOk saveOk
  | .alloc cmd waiting resources saveOk => hi.alloc cmd waiting resources saveOk
  | .gcAllocating order written => hi.gcAllocating order written

/-! ## Runs -/

theorem Inv.run {n : Nat} {st : PoolState} (hi : Inv n st) (evs : List PoolEvent)
    (hlen : n + evs.length < 2 ^ 64) : Inv (n + evs.length) (st.run evs) := by
  induction evs generalizing n st with
  | nil => exact hi
  | cons ev evs ih =>
    rw [List.length_cons] at hlen ⊢
    rw [show n + (evs.length + 1) = n + 1 + evs.length by omega]
    exact ih (hi.exec (by omega) ev) (by omega)

/-- The loop of `Start` writes fresh pools only. -/
theorem foldl_start_pool (rs : List ResourcePool) (m : UInt64 → Option ShardPool)
    (hm : ∀ g p, m g = some p → PoolInv 0 p) (g : UInt64) (p : ShardPool)
    (hp : (rs.foldl (fun m (r : ResourcePool) =>
      Function.update m r.group (some { capacity := r.capacity, rangePrefix := r.rangePrefix })) m) g = some p) :
    PoolInv 0 p := by
  induction rs generalizing m with
  | nil => exact hm g p hp
  | cons r rs ih =>
    refine ih _ (fun g' q hq => ?_) hp
    beta_reduce at hq
    by_cases hg : g' = r.group
    · subst hg
      rw [Function.update_self, Option.some.injEq] at hq
      subst hq
      exact ⟨le_refl 0, UInt64.le_refl _, List.nodup_nil, List.nodup_nil, fun _ h => nomatch h⟩
    · exact hm g' q (by rwa [Function.update_of_ne hg] at hq)

theorem inv_start (pools : List ResourcePool) : Inv 0 (start pools) where
  pool := foldl_start_pool pools _ fun _ _ h => nomatch h
  created _ h := nomatch h
  distinct := List.Pairwise.nil

/-! ## What the invariant gives -/

/-- The shards created for one group have disjoint ranges: their uniques differ,
so their `Seq`s do. -/
theorem Inv.created_disjoint {n : Nat} {st : PoolState} (hi : Inv n st) :
    st.created.Pairwise fun a b => a.group = b.group →
      ∀ k, ¬((a.start ≤ k ∧ k < a.end_) ∧ (b.start ≤ k ∧ k < b.end_)) := by
  refine hi.distinct.imp_of_mem fun {a b} ha hb hne hg k ⟨hka, hkb⟩ => ?_
  obtain ⟨pre, s, hpre, hs, he, hu⟩ := hi.created a ha
  obtain ⟨pre', s', hpre', hs', he', hu'⟩ := hi.created b hb
  rw [hg, hpre', Option.some.injEq] at hpre
  subst hpre
  have hss : s ≠ s' := fun h => hne hg (by rw [hu, hu', hg, h])
  rw [hs, he, addPrefix_eq, addPrefix_eq] at hka
  rw [hs', he', addPrefix_eq, addPrefix_eq] at hkb
  exact windows_disjoint hss hka hkb

/-- `doAllocLocked` for an allocated purpose: nothing when no shard is idle,
since that check comes first, and else the allocation already made. -/
theorem doAllocLocked_of_mem {st : PoolState} {cmd : ShardsPoolAllocCmd} {p : ShardPool} {a : AllocatedShard}
    (hp : st.pools cmd.group = some p) (hnd : (p.allocatedShards.map (·.purpose)).Nodup)
    (ha : a ∈ p.allocatedShards) (hpur : a.purpose = cmd.purpose) (waiting resources : List Shard)
    (saveOk : Bool) :
    doAllocLocked st cmd waiting resources saveOk =
      (if p.seq = p.allocatedOffset then .ok none else .ok (some a), st) := by
  unfold doAllocLocked
  rw [hp]
  dsimp only
  by_cases hidle : p.seq = p.allocatedOffset
  · rw [if_pos (by rw [hidle, sub_self]), if_pos hidle]
  · rw [if_neg (fun h => hidle (sub_eq_zero.mp h)), if_neg hidle]
    -- the first allocation with the purpose is `a`, the only one
    obtain ⟨b, hb⟩ : ∃ b, p.allocatedShards.find? (·.purpose == cmd.purpose) = some b :=
      Option.ne_none_iff_exists'.mp fun hnone =>
        List.find?_eq_none.mp hnone a ha (by simp [hpur])
    have hbp : b.purpose = cmd.purpose := by simpa using List.find?_some hb
    rw [hb, List.inj_on_of_nodup_map hnd (List.mem_of_find?_eq_some hb) ha (hbp.trans hpur.symm)]

/-! ## Two behaviours of the code -/

/-- `Seq` is a `uint64`: a pool at `2 ^ 64 - 1` whose next create goes ahead
wraps to `0`, below an `AllocatedOffset` that is not. This is why the
invariant is stated for runs of fewer than `2 ^ 64` calls. -/
theorem createStep_wraps {acc : (UInt64 → Option ShardPool) × List Shard} {g : UInt64} {p : ShardPool}
    (hp : acc.1 g = some p) (hseq : p.seq = 18446744073709551615) (hoff : 0 < p.allocatedOffset)
    (hcap : toInt64 (p.seq - p.allocatedOffset) < toInt64 p.capacity) (hroom : acc.2.length < 8) :
    ∃ p', (createStep acc g).1 g = some p' ∧ p'.seq < p'.allocatedOffset := by
  unfold createStep
  rw [hp]
  dsimp only
  rw [if_pos (.inr ⟨hcap, hroom⟩)]
  refine ⟨_, Function.update_self .., ?_⟩
  show p.seq + 1 < p.allocatedOffset
  rw [hseq]
  exact hoff

theorem gcIndices_ne_nil {p : ShardPool} {written : UInt64 → Bool} {a : AllocatedShard}
    (ha : a ∈ p.allocatedShards) (hw : written a.shardID = true) : gcIndices p written ≠ [] := by
  obtain ⟨x, hx, rfl⟩ := List.mem_map.mp ((List.zipIdx_map_fst 0 p.allocatedShards).symm ▸ ha)
  unfold gcIndices
  rw [ne_eq, List.map_eq_nil_iff, List.filter_eq_nil_iff, not_forall]
  exact ⟨x, by simpa [hx] using hw⟩

theorem gcStep_of_ne {written : UInt64 → Bool} {pools : UInt64 → Option ShardPool} {g g' : UInt64}
    (hne : g ≠ g') : gcStep written pools g' g = pools g := by
  unfold gcStep
  cases pools g' with
  | none => rfl
  | some q =>
    dsimp only
    split_ifs
    · exact Function.update_of_ne hne ..
    · rfl

/-- `gcAllocating` drops every allocation of a group with one written shard,
not only the written ones: `newP := p` shares the pool, so the loop that keeps
the others ranges over the slice already truncated. -/
theorem gcAllocating_clears (st : PoolState) {order : List UInt64} {written : UInt64 → Bool} {g : UInt64}
    {p : ShardPool} (hg : g ∈ order) (hp : st.pools g = some p) {a : AllocatedShard}
    (ha : a ∈ p.allocatedShards) (hw : written a.shardID = true) :
    (gcAllocating st order written).pools g = some { p with allocatedShards := [] } := by
  show (order.foldl (gcStep written) st.pools) g = _
  generalize st.pools = pools at hp
  induction order generalizing pools with
  | nil => exact absurd hg List.not_mem_nil
  | cons g' order ih =>
    rw [List.foldl_cons]
    by_cases hg' : g = g'
    · -- the first visit clears the group, and a later one finds nothing to drop
      subst hg'
      have hstep : gcStep written pools g g = some { p with allocatedShards := [] } := by
        simp only [gcStep, hp, if_pos (gcIndices_ne_nil ha hw), Function.update_self, gcPool_eq]
      rcases foldl_gcStep written order (gcStep written pools g) g with h | ⟨q, q', hq, hq', rfl⟩
      · rw [h, hstep]
      · rw [hstep, Option.some.injEq] at hq
        rw [hq', ← hq]
    · exact ih (List.mem_of_ne_of_mem hg' hg) _ (by rw [gcStep_of_ne hg', hp])

theorem shardsPool_invariant (pools : List ResourcePool) (evs : List PoolEvent) (hlen : evs.length < 2 ^ 64)
    (st : PoolState) (hst : (start pools).run evs = st) :
    (∀ g p, st.pools g = some p →
      p.allocatedOffset ≤ p.seq ∧ (p.allocatedShards.map (·.purpose)).Nodup ∧
        (p.allocatedShards.map (·.allocatedAt)).Nodup ∧
        ∀ a ∈ p.allocatedShards, 0 < a.allocatedAt ∧ a.allocatedAt ≤ p.allocatedOffset) ∧
    st.created.Pairwise (fun a b => a.group = b.group →
      ∀ k, ¬((a.start ≤ k ∧ k < a.end_) ∧ (b.start ≤ k ∧ k < b.end_))) ∧
    ∀ (cmd : ShardsPoolAllocCmd) (waiting resources : List Shard) (saveOk : Bool) p a,
      st.pools cmd.group = some p → a ∈ p.allocatedShards → a.purpose = cmd.purpose →
      doAllocLocked st cmd waiting resources saveOk =
        (if p.seq = p.allocatedOffset then .ok none else .ok (some a), st) := by
  have hi := (inv_start pools).run evs (by rwa [Nat.zero_add])
  rw [Nat.zero_add, hst] at hi
  refine ⟨fun g p hp => ?_, hi.created_disjoint, fun cmd waiting resources saveOk p a hp ha hpur => ?_⟩
  · have h := hi.pool g p hp
    exact ⟨h.offset_le, h.nodup_purpose, h.nodup_allocatedAt, h.allocatedAt_mem⟩
  · exact doAllocLocked_of_mem hp (hi.pool _ p hp).nodup_purpose ha hpur waiting resources saveOk

/-- Two creations, allocations for two purposes and a third creation: three
shards created, two of them allocated. -/
theorem shardsPool_invariant_two_allocs : ∃ st,
    (start [{ group := 0, capacity := 2, rangePrefix := [98] }]).run
      [.maybeCreate ⟨[0], List.nodup_singleton 0⟩ true true true,
       .maybeCreate ⟨[0], List.nodup_singleton 0⟩ true true true,
       .alloc { group := 0, purpose := [1] } [] [{ id := 7, unique := unique 0 1 }] true,
       .alloc { group := 0, purpose := [2] } [{ id := 8, unique := unique 0 2 }] [] true,
       .maybeCreate ⟨[0], List.nodup_singleton 0⟩ true true true] = st ∧
    st.created.length = 3 ∧ (st.pools 0).map (·.allocatedShards.map (·.shardID)) = some [7, 8] ∧
    (∀ g p, st.pools g = some p →
      p.allocatedOffset ≤ p.seq ∧ (p.allocatedShards.map (·.purpose)).Nodup ∧
        (p.allocatedShards.map (·.allocatedAt)).Nodup ∧
        ∀ a ∈ p.allocatedShards, 0 < a.allocatedAt ∧ a.allocatedAt ≤ p.allocatedOffset) ∧
    st.created.Pairwise (fun a b => a.group = b.group →
      ∀ k, ¬((a.start ≤ k ∧ k < a.end_) ∧ (b.start ≤ k ∧ k < b.end_))) ∧
    ∀ (cmd : ShardsPoolAllocCmd) (waiting resources : List Shard) (saveOk : Bool) p a,
      st.pools cmd.group = some p → a ∈ p.allocatedShards → a.purpose = cmd.purpose →
      doAllocLocked st cmd waiting resources saveOk =
        (if p.seq = p.allocatedOffset then .ok none else .ok (some a), st) :=
  ⟨_, rfl, by decide, by decide, shardsPool_invariant _ _ (by decide) _ rfl⟩

/-- After one shard is created and allocated for purpose `[1]`, an Alloc for
`[1]` returns nothing: no shard is idle, and that check comes before the
purpose lookup. -/
theorem doAllocLocked_allocated_no_idle : ∃ st p,
    (start [{ group := 0, capacity := 2, rangePrefix := [98] }]).run
      [.maybeCreate ⟨[0], List.nodup_singleton 0⟩ true true true,
       .alloc { group := 0, purpose := [1] } [{ id := 7, unique := unique 0 1 }] [] true] = st ∧
    st.pools 0 = some p ∧ { shardID := 7, allocatedAt := 1, purpose := [1] } ∈ p.allocatedShards ∧
    (doAllocLocked st { group := 0, purpose := [1] } [] [] true).1 = .ok none :=
  ⟨_, _, rfl, rfl, by decide, rfl⟩

end MatrixCube.Raftstore.ShardsPool
