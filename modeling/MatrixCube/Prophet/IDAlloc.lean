import Mathlib.Data.UInt
import MatrixCube.Lib.Transition

/-! # ID allocation through etcd

`etcdKV.AllocID` (`components/prophet/storage/kv_etcd.go`) hands out IDs
from a local batch `(base, end]`. When the batch is used up, `generate` reads
the shared id key with `getID` (an absent key reads 0) and writes
`value + idBatch` back in one etcd transaction guarded by `DoIfLeader`:
`createID` when it read 0, which requires the key to be absent, and
`updateID` otherwise, which requires the key to still hold the value read.
Only when the transaction reports success does the instance take
`(end - idBatch, end]` as its batch.

Each instance holds its own lock through `AllocID`, so its steps follow one
another, but the read and the transaction of `generate` are two etcd requests
between which other instances act. The counter is a `uint64`, and
`value + idBatch` wraps around 2^64.
-/

namespace MatrixCube.Prophet

/-- `idBatch`. -/
def idBatch : UInt64 := 1000

/-- The allocation state of one `etcdKV`: its batch `(base, end]`, and the
value `generate` read with `getID` while its transaction is still to be sent. -/
structure IDAllocator where
  base : UInt64 := 0
  end_ : UInt64 := 0
  pending : Option UInt64 := none
  deriving DecidableEq, Repr

/-- How the transaction of `createID` or `updateID` ends: `DoIfLeader`
reports success (its compare held and the put was applied); or it reports
failure and nothing was applied (a compare failed, leadership was lost, or the
request failed); or it returns an error although etcd applied the put. -/
inductive TxnOutcome where
  | succeeded
  | failed
  | appliedButFailed
  deriving DecidableEq, Repr

/-- The id key (`none` while it does not exist) and the instances by number.
The last two fields are ghost state: the IDs `AllocID` returned without
error, in order, and whether a transaction has written a value that wrapped
around 2^64. -/
structure IDAllocState where
  idKey : Option UInt64
  instances : Nat → IDAllocator
  issued : List UInt64
  wrapped : Bool

/-- An `AllocID` call, cut at its etcd requests. -/
inductive IDAllocEvent where
  /-- `AllocID` on an instance whose batch is not used up -/
  | allocLocal (i : Nat)
  /-- `AllocID` on an instance whose batch is used up: `generate` reads the key -/
  | getID (i : Nat)
  /-- the transaction of `createID` or `updateID`, with its outcome -/
  | txn (i : Nat) (outcome : TxnOutcome)

namespace IDAllocState

/-- `s.base++; return s.base`, the end of `AllocID` on instance `i` holding `a`. -/
def allocNext (s : IDAllocState) (i : Nat) (a : IDAllocator) : IDAllocState :=
  { s with instances := Function.update s.instances i { a with base := a.base + 1 }
           issued := s.issued ++ [a.base + 1] }

/-- The compare of the transaction `generate` sends after reading `value`:
`createID` asks for an absent key, `updateID` for the value read. -/
def txnCompare (idKey : Option UInt64) (value : UInt64) : Bool :=
  if value = 0 then idKey.isNone else idKey == some value

/-- A write of `value + idBatch` that wraps around 2^64. -/
def wraps (value : UInt64) : Bool := decide (2 ^ 64 ≤ value.toNat + idBatch.toNat)

/-- The put of the transaction: the key holds `value + idBatch`. -/
def putID (s : IDAllocState) (value : UInt64) : IDAllocState :=
  { s with idKey := some (value + idBatch), wrapped := s.wrapped || wraps value }

/-- Instance `i` holds `a`. -/
def setInstance (s : IDAllocState) (i : Nat) (a : IDAllocator) : IDAllocState :=
  { s with instances := Function.update s.instances i a }

end IDAllocState

open IDAllocState

/-- One step of an `AllocID` call; `none` when the step is not enabled. -/
def idAllocStep (s : IDAllocState) : IDAllocEvent → Option IDAllocState
  | .allocLocal i =>
    let a := s.instances i
    if a.pending = none ∧ a.base ≠ a.end_ then some (s.allocNext i a) else none
  | .getID i =>
    let a := s.instances i
    if a.pending = none ∧ a.base = a.end_ then
      some (s.setInstance i { a with pending := some (s.idKey.getD 0) })
    else none
  | .txn i outcome =>
    let a := s.instances i
    match a.pending with
    | none => none
    | some value =>
      let idle := { a with pending := none }
      match outcome with
      | .succeeded =>
        if txnCompare s.idKey value then
          -- `s.end = end; s.base = s.end - idBatch`, then the increment of `AllocID`
          let max := value + idBatch
          some ((s.putID value).allocNext i { idle with end_ := max, base := max - idBatch })
        else none
      | .failed => some (s.setInstance i idle)
      | .appliedButFailed =>
        if txnCompare s.idKey value then some ((s.putID value).setInstance i idle) else none

/-- The initial states: every instance new, nothing issued, and the id key as
earlier runs left it. -/
def IDAllocInit (idKey₀ : Option UInt64) (s : IDAllocState) : Prop :=
  s = ⟨idKey₀, fun _ => {}, [], false⟩

/-- The states reached by any interleaving of `AllocID` calls on any number of
instances sharing the id key. -/
abbrev IDAllocReachable (idKey₀ : Option UInt64) : IDAllocState → Prop :=
  Transition.Reachable idAllocStep (IDAllocInit idKey₀)

/-! ## The invariant below the counter -/

/-- The counter the id key holds, 0 while it is absent. -/
def IDAllocState.counter (s : IDAllocState) : Nat := (s.idKey.getD 0).toNat

/-- `n` lies in the batch `(base, end]` of `a`. -/
def IDAllocator.InBatch (a : IDAllocator) (n : Nat) : Prop := a.base.toNat < n ∧ n ≤ a.end_.toNat

namespace IDAllocState

variable {s : IDAllocState} {i j : Nat} {a : IDAllocator}

theorem setInstance_instances : (s.setInstance i a).instances j = if j = i then a else s.instances j :=
  Function.update_apply _ _ _ _

theorem allocNext_instances :
    (s.allocNext i a).instances j = if j = i then { a with base := a.base + 1 } else s.instances j :=
  Function.update_apply _ _ _ _

@[simp] theorem putID_instances {value : UInt64} : (s.putID value).instances = s.instances := rfl

@[simp] theorem putID_issued {value : UInt64} : (s.putID value).issued = s.issued := rfl

theorem allocNext_setInstance : (s.setInstance i a).allocNext i a = s.allocNext i a := by
  simp [allocNext, setInstance]

/-- The transaction's compare holds only when the value read is the counter. -/
theorem counter_of_txnCompare {value : UInt64} (h : txnCompare s.idKey value = true) :
    s.counter = value.toNat := by
  unfold txnCompare at h
  unfold counter
  split_ifs at h with hv
  · rw [Option.isNone_iff_eq_none.mp h, hv]
    rfl
  · rw [beq_iff_eq.mp h]
    rfl

theorem toNat_add_idBatch {value : UInt64} (hwrap : wraps value = false) :
    (value + idBatch).toNat = value.toNat + 1000 := by
  unfold wraps at hwrap
  have hbatch : idBatch.toNat = 1000 := rfl
  rw [hbatch, decide_eq_false_iff_not] at hwrap
  rw [UInt64.toNat_add, hbatch, Nat.mod_eq_of_lt (by omega)]

theorem counter_putID {value : UInt64} (hwrap : wraps value = false) :
    (s.putID value).counter = value.toNat + 1000 :=
  toNat_add_idBatch hwrap

end IDAllocState

open IDAllocState

/-- The IDs issued and the batches of the instances lie in `(0, counter]`,
apart from one another; an instance waits for its transaction only with its
batch used up. -/
structure IDAllocInv (s : IDAllocState) : Prop where
  issued_pos : ∀ id ∈ s.issued, 0 < id.toNat
  issued_le : ∀ id ∈ s.issued, id.toNat ≤ s.counter
  nodup : s.issued.Nodup
  base_le_end : ∀ i, (s.instances i).base.toNat ≤ (s.instances i).end_.toNat
  end_le : ∀ i, (s.instances i).end_.toNat ≤ s.counter
  issued_not_in_batch : ∀ i, ∀ id ∈ s.issued, ¬ (s.instances i).InBatch id.toNat
  batches_disjoint : ∀ i j, i ≠ j → ∀ n, (s.instances i).InBatch n → ¬ (s.instances j).InBatch n
  pending_used_up : ∀ i, (s.instances i).pending ≠ none → (s.instances i).base = (s.instances i).end_

theorem idAllocInv_init (idKey₀ : Option UInt64) : IDAllocInv ⟨idKey₀, fun _ => {}, [], false⟩ where
  issued_pos := by simp
  issued_le := by simp
  nodup := List.nodup_nil
  base_le_end _ := le_rfl
  end_le _ := Nat.zero_le _
  issued_not_in_batch := by simp
  batches_disjoint _ _ _ _ h := absurd h.2 (by simp [IDAllocator.InBatch] at h ⊢; omega)
  pending_used_up _ h := absurd rfl h

namespace IDAllocInv

variable {s : IDAllocState} {i : Nat} {a : IDAllocator}

/-- Changing only whether instance `i` waits for a transaction, with its batch
used up whenever it does, keeps the invariant. -/
theorem setInstance_sameBatch (h : IDAllocInv s) (hbase : a.base = (s.instances i).base)
    (hend : a.end_ = (s.instances i).end_) (hpending : a.pending ≠ none → a.base = a.end_) :
    IDAllocInv (s.setInstance i a) := by
  have hbatch : ∀ n, a.InBatch n ↔ (s.instances i).InBatch n := by
    simp [IDAllocator.InBatch, hbase, hend]
  constructor
  · exact h.issued_pos
  · exact h.issued_le
  · exact h.nodup
  all_goals simp only [setInstance_instances]
  · intro j
    split_ifs
    · rw [hbase, hend]; exact h.base_le_end i
    · exact h.base_le_end j
  · intro j
    split_ifs
    · rw [hend]; exact h.end_le i
    · exact h.end_le j
  · intro j id hid
    split_ifs
    · rw [hbatch]; exact h.issued_not_in_batch i id hid
    · exact h.issued_not_in_batch j id hid
  · intro j k hjk n
    split_ifs with hj hk hk
    · exact absurd (hj.trans hk.symm) hjk
    · rw [hbatch, ← hj]; exact h.batches_disjoint j k hjk n
    · rw [hbatch, ← hk]; exact h.batches_disjoint j k hjk n
    · exact h.batches_disjoint j k hjk n
  · intro j
    split_ifs
    · exact hpending
    · exact h.pending_used_up j

/-- Handing out the next ID of a batch that is not used up keeps the invariant:
the ID leaves the batch of its instance, which no issued ID lies in. -/
theorem allocNext (h : IDAllocInv s) (ha : s.instances i = a) (hpending : a.pending = none)
    (hlt : a.base.toNat < a.end_.toNat) : IDAllocInv (s.allocNext i a) := by
  have hid : (a.base + 1).toNat = a.base.toNat + 1 := by
    rw [UInt64.toNat_add, UInt64.toNat_one, Nat.mod_eq_of_lt (by have := a.end_.toNat_lt; omega)]
  have hin : a.InBatch (a.base + 1).toNat := by
    rw [IDAllocator.InBatch, hid]; omega
  -- the batch of `i` after the step is a part of its batch before
  have hshrink : ∀ n, ({ a with base := a.base + 1 } : IDAllocator).InBatch n → a.InBatch n := by
    intro n hn
    simp only [IDAllocator.InBatch, hid] at hn ⊢
    omega
  have hnew : a.base + 1 ∉ s.issued := fun hmem => h.issued_not_in_batch i _ hmem (ha ▸ hin)
  have hend : a.end_.toNat ≤ s.counter := ha ▸ h.end_le i
  constructor
  · simp only [IDAllocState.allocNext, List.mem_append, List.mem_singleton]
    rintro id (hmem | rfl)
    · exact h.issued_pos id hmem
    · omega
  · simp only [IDAllocState.allocNext, List.mem_append, List.mem_singleton]
    rintro id (hmem | rfl)
    · exact h.issued_le id hmem
    · exact (hin.2).trans hend
  · exact List.nodup_append.mpr ⟨h.nodup, List.nodup_singleton _, fun x hx y hy hxy => by
      rw [List.mem_singleton.mp hy] at hxy
      exact hnew (hxy ▸ hx)⟩
  all_goals simp only [allocNext_instances]
  · intro j
    split_ifs
    · simp only [hid]; omega
    · exact h.base_le_end j
  · intro j
    split_ifs
    · exact hend
    · exact h.end_le j
  · intro j id hmem
    simp only [IDAllocState.allocNext, List.mem_append, List.mem_singleton] at hmem
    split_ifs with hj
    · rcases hmem with hmem | rfl
      · exact fun hb => h.issued_not_in_batch i id hmem (ha ▸ hshrink _ hb)
      · simp [IDAllocator.InBatch]
    · rcases hmem with hmem | rfl
      · exact h.issued_not_in_batch j id hmem
      · exact h.batches_disjoint i j (Ne.symm hj) _ (ha ▸ hin)
  · intro j k hjk n
    split_ifs with hj hk hk
    · exact absurd (hj.trans hk.symm) hjk
    · exact fun hn => h.batches_disjoint i k (hj ▸ hjk) n (ha ▸ hshrink n hn)
    · exact fun hn hk' => h.batches_disjoint i j (hk ▸ hjk.symm) n (ha ▸ hshrink n hk') hn
    · exact h.batches_disjoint j k hjk n
  · intro j
    split_ifs
    · exact fun hp => absurd hpending hp
    · exact h.pending_used_up j

/-- The put of a transaction whose compare held and which does not wrap only
raises the counter. -/
theorem putID (h : IDAllocInv s) {value : UInt64} (hcmp : txnCompare s.idKey value = true)
    (hwrap : wraps value = false) : IDAllocInv (s.putID value) := by
  have hle : s.counter ≤ (s.putID value).counter := by
    rw [counter_putID hwrap, counter_of_txnCompare hcmp]; omega
  exact ⟨h.issued_pos, fun id hid => (h.issued_le id hid).trans hle, h.nodup, h.base_le_end,
    fun i => (h.end_le i).trans hle, h.issued_not_in_batch, h.batches_disjoint, h.pending_used_up⟩

/-- After the put, instance `i` takes the batch `(value, value + idBatch]`,
just above everything handed out. -/
theorem newBatch (h : IDAllocInv s) {value : UInt64} (hcmp : txnCompare s.idKey value = true)
    (hwrap : wraps value = false) :
    IDAllocInv ((s.putID value).setInstance i ⟨value, value + idBatch, none⟩) := by
  have hK := counter_of_txnCompare hcmp
  have hadd := toNat_add_idBatch hwrap
  have hK' : ((s.putID value).setInstance i ⟨value, value + idBatch, none⟩).counter =
      value.toNat + 1000 :=
    counter_putID (s := s) hwrap
  -- every other batch, and every issued ID, is at most the old counter
  have hbelow : ∀ j n, (s.instances j).InBatch n → n ≤ value.toNat := fun j n hn =>
    hK ▸ hn.2.trans (h.end_le j)
  have hnew : ∀ n, (⟨value, value + idBatch, none⟩ : IDAllocator).InBatch n → value.toNat < n :=
    fun n hn => hn.1
  constructor
  · exact h.issued_pos
  · intro id hid
    have := h.issued_le id hid
    omega
  · exact h.nodup
  all_goals simp only [setInstance_instances, putID_instances]
  · intro j
    split_ifs
    · simp only [hadd]; omega
    · exact h.base_le_end j
  · intro j
    split_ifs
    · rw [hadd, hK']
    · have := h.end_le j
      omega
  · intro j id hid
    split_ifs
    · intro hn
      have := h.issued_le id hid
      have := hnew _ hn
      omega
    · exact h.issued_not_in_batch j id hid
  · intro j k hjk n
    split_ifs with hj hk hk
    · exact absurd (hj.trans hk.symm) hjk
    · intro hn hk'
      have := hnew n hn
      have := hbelow k n hk'
      omega
    · intro hj' hn
      have := hnew n hn
      have := hbelow j n hj'
      omega
    · exact h.batches_disjoint j k hjk n
  · intro j
    split_ifs
    · exact fun hp => absurd rfl hp
    · exact h.pending_used_up j

/-- One step of an `AllocID` call that does not wrap the counter keeps the
invariant. -/
theorem step (h : IDAllocInv s) {e : IDAllocEvent} {s' : IDAllocState}
    (hstep : idAllocStep s e = some s') (hwrap : s'.wrapped = false) : IDAllocInv s' := by
  cases e with
  | allocLocal i =>
    simp only [idAllocStep] at hstep
    split_ifs at hstep with hc
    cases hstep
    have := h.base_le_end i
    have hne : (s.instances i).base.toNat ≠ (s.instances i).end_.toNat :=
      fun heq => hc.2 (UInt64.toNat_inj.mp heq)
    exact h.allocNext rfl hc.1 (by omega)
  | getID i =>
    simp only [idAllocStep] at hstep
    split_ifs at hstep with hc
    cases hstep
    exact h.setInstance_sameBatch rfl rfl fun _ => hc.2
  | txn i outcome =>
    simp only [idAllocStep] at hstep
    split at hstep
    · cases hstep
    rename_i value hpending
    cases outcome with
    | succeeded =>
      simp only at hstep
      split_ifs at hstep with hcmp
      cases hstep
      have hw : wraps value = false := by
        simp only [IDAllocState.allocNext, IDAllocState.putID, Bool.or_eq_false_iff] at hwrap
        exact hwrap.2
      -- the new batch, then the first ID of it
      rw [add_sub_cancel_right, ← allocNext_setInstance]
      exact (h.newBatch hcmp hw).allocNext (by simp [setInstance_instances]) rfl
        (by dsimp only; rw [toNat_add_idBatch hw]; omega)
    | failed =>
      cases hstep
      exact h.setInstance_sameBatch rfl rfl fun hp => absurd rfl hp
    | appliedButFailed =>
      simp only at hstep
      split_ifs at hstep with hcmp
      cases hstep
      have hw : wraps value = false := by
        simp only [IDAllocState.setInstance, IDAllocState.putID, Bool.or_eq_false_iff] at hwrap
        exact hwrap.2
      exact (h.putID hcmp hw).setInstance_sameBatch rfl rfl fun hp => absurd rfl hp

end IDAllocInv

/-- A step never clears the wrap flag. -/
theorem wrapped_of_step {s s' : IDAllocState} {e : IDAllocEvent} (hstep : idAllocStep s e = some s')
    (hwrap : s'.wrapped = false) : s.wrapped = false := by
  cases e with
  | allocLocal i =>
    simp only [idAllocStep] at hstep
    split_ifs at hstep
    cases hstep
    exact hwrap
  | getID i =>
    simp only [idAllocStep] at hstep
    split_ifs at hstep
    cases hstep
    exact hwrap
  | txn i outcome =>
    simp only [idAllocStep] at hstep
    split at hstep
    · cases hstep
    cases outcome <;> simp only at hstep <;> (try split_ifs at hstep) <;> cases hstep <;>
      simp_all [IDAllocState.allocNext, IDAllocState.putID, IDAllocState.setInstance]

/-- As long as no transaction has wrapped the counter around 2^64, every ID
`AllocID` returned without error, on any instance and in any interleaving, is
positive, and none was returned twice. -/
theorem allocID_unique {idKey₀ : Option UInt64} {s : IDAllocState} (h : IDAllocReachable idKey₀ s)
    (hwrap : s.wrapped = false) : (∀ id ∈ s.issued, 0 < id) ∧ s.issued.Nodup := by
  have hinv : IDAllocInv s :=
    Transition.Reachable.induction_guarded (Q := fun s => s.wrapped = false)
      (fun _ _ _ hstep hq => wrapped_of_step hstep hq)
      (fun _ hs _ => hs ▸ idAllocInv_init idKey₀)
      (fun _ _ _ hinv hstep hq => hinv.step hstep hq) h hwrap
  exact ⟨fun id hid => UInt64.lt_iff_toNat_lt.mpr (hinv.issued_pos id hid), hinv.nodup⟩

/-- Two instances interleaved: both read the absent key, the first creates it
and takes the batch `(0, 1000]`, the transaction of the second fails, and the
second reads again and takes `(1000, 2000]`; four IDs are issued. -/
theorem allocID_unique_two_instances :
    let evs : List IDAllocEvent := [.getID 0, .getID 1, .txn 0 .succeeded, .txn 1 .failed, .allocLocal 0,
      .getID 1, .txn 1 .succeeded, .allocLocal 0]
    let s := (Transition.runFrom idAllocStep ⟨none, fun _ => {}, [], false⟩ evs).getD ⟨none, fun _ => {}, [], false⟩
    IDAllocReachable none s ∧ s.wrapped = false ∧ s.issued = [1, 2, 1001, 3] ∧
      ((∀ id ∈ s.issued, 0 < id) ∧ s.issued.Nodup) := by
  intro evs s
  have hrun : Transition.runFrom idAllocStep ⟨none, fun _ => {}, [], false⟩ evs = some s := rfl
  have h₀ : IDAllocReachable none ⟨none, fun _ => {}, [], false⟩ := .init rfl
  have h : IDAllocReachable none s := h₀.runFrom evs hrun
  have hwrap : s.wrapped = false := by decide
  exact ⟨h, hwrap, by decide, allocID_unique h hwrap⟩

/-! ## Runs of one instance

An instance alone allocating batch after batch: the runs that reach the wrap
of the counter. -/

section Runs

variable {idKey₀ : Option UInt64} {i : Nat}

/-- `n` calls of `AllocID` on instance `i` inside its batch. -/
theorem reachable_allocs : ∀ (n : Nat) {s : IDAllocState}, IDAllocReachable idKey₀ s →
    (s.instances i).pending = none →
    (∀ j < n, (s.instances i).base + UInt64.ofNat j ≠ (s.instances i).end_) →
    ∃ s', IDAllocReachable idKey₀ s' ∧ s'.idKey = s.idKey ∧ s'.wrapped = s.wrapped ∧
      s'.instances i = { s.instances i with base := (s.instances i).base + UInt64.ofNat n } ∧
      (∀ x ∈ s.issued, x ∈ s'.issued) ∧ (0 < n → (s.instances i).base + UInt64.ofNat n ∈ s'.issued)
  | 0, s, h, _, _ => ⟨s, h, rfl, rfl, by simp, fun _ hx => hx, fun h => absurd h (Nat.lt_irrefl 0)⟩
  | n + 1, s, h, hpending, hne => by
    obtain ⟨s₁, h₁, hkey, hwrap, hi, hkeep, -⟩ :=
      reachable_allocs n h hpending fun j hj => hne j (Nat.lt_succ_of_lt hj)
    have hbase : (s.instances i).base + UInt64.ofNat (n + 1) =
        (s.instances i).base + UInt64.ofNat n + 1 := by
      rw [UInt64.ofNat_add, add_assoc]
      rfl
    have hstep : idAllocStep s₁ (.allocLocal i) = some (s₁.allocNext i (s₁.instances i)) := by
      simp only [idAllocStep, hi, hpending, ne_eq, true_and]
      rw [if_pos (hne n (Nat.lt_succ_self n))]
    refine ⟨_, h₁.step hstep, hkey, hwrap, ?_, fun x hx => ?_, fun _ => ?_⟩
    · rw [allocNext_instances, if_pos rfl, hi, hbase]
    · exact List.mem_append_left _ (hkeep x hx)
    · exact List.mem_append_right _ (by rw [List.mem_singleton, hi, hbase])

/-- Inside a batch `(v, v + idBatch]`, the first 999 IDs are not its end. -/
theorem add_ofNat_ne_end (v : UInt64) {j : Nat} (hj : j < 999) :
    v + 1 + UInt64.ofNat j ≠ v + idBatch := by
  intro heq
  rw [add_assoc, add_right_inj] at heq
  have := congrArg UInt64.toNat heq
  simp only [UInt64.toNat_add, UInt64.toNat_ofNat', idBatch, UInt64.toNat_ofNat] at this
  omega

/-- `generate` on instance `i` with its batch used up, its transaction
succeeding, and `n` more calls of `AllocID` inside the new batch. -/
theorem reachable_generate {s : IDAllocState} (h : IDAllocReachable idKey₀ s) {v : UInt64}
    (hi : s.instances i = { base := v, end_ := v }) (hread : s.idKey.getD 0 = v)
    (hcmp : txnCompare s.idKey v = true) {n : Nat} (hn : n < 1000) :
    ∃ s', IDAllocReachable idKey₀ s' ∧ s'.idKey = some (v + idBatch) ∧
      s'.wrapped = (s.wrapped || wraps v) ∧
      s'.instances i = { base := v + 1 + UInt64.ofNat n, end_ := v + idBatch } ∧
      v + 1 + UInt64.ofNat n ∈ s'.issued := by
  let s₁ := s.setInstance i { base := v, end_ := v, pending := some v }
  have h₁ : idAllocStep s (.getID i) = some s₁ := by
    simp [idAllocStep, hi, hread, s₁]
  have hi₁ : s₁.instances i = { base := v, end_ := v, pending := some v } := by
    simp [s₁, setInstance_instances]
  let s₂ := (s₁.putID v).allocNext i { base := v, end_ := v + idBatch }
  have h₂ : idAllocStep s₁ (.txn i .succeeded) = some s₂ := by
    have hkey₁ : s₁.idKey = s.idKey := rfl
    simp only [idAllocStep, hi₁, hkey₁]
    rw [if_pos hcmp, add_sub_cancel_right]
  have hi₂ : s₂.instances i = { base := v + 1, end_ := v + idBatch } := by
    simp [s₂, allocNext_instances]
  obtain ⟨s', h', hkey, hwrap, hi', hkeep, hmem⟩ := reachable_allocs n ((h.step h₁).step h₂)
    (by rw [hi₂]) (by rw [hi₂]; exact fun j hj => add_ofNat_ne_end v (by omega))
  refine ⟨s', h', hkey, hwrap, by rw [hi', hi₂], ?_⟩
  rcases Nat.eq_zero_or_pos n with rfl | hpos
  · -- the ID of the transaction's own `AllocID`
    have hfirst : v + 1 ∈ s₂.issued := List.mem_append_right _ (List.mem_singleton_self _)
    simpa using hkeep _ hfirst
  · simpa [hi₂] using hmem hpos

theorem txnCompare_some {v : UInt64} (hv : v ≠ 0) : txnCompare (some v) v = true := by
  simp [txnCompare, hv]

/-- From an absent key, one instance running `k` whole batches, as long as
`1000 * k` stays below 2^64, leaves the key at `1000 * k` and its batch used
up there. -/
theorem reachable_batches :
    ∀ k, 1 ≤ k → 1000 * k < 2 ^ 64 →
      ∃ s, IDAllocReachable none s ∧ s.idKey = some (UInt64.ofNat (1000 * k)) ∧
        s.instances 0 = { base := UInt64.ofNat (1000 * k), end_ := UInt64.ofNat (1000 * k) } := by
  intro k hk
  induction k, hk using Nat.le_induction with
  | base =>
    intro _
    obtain ⟨s, h, hkey, -, hi, -⟩ := reachable_generate (i := 0) (n := 999)
      (Transition.Reachable.init (rfl : IDAllocInit none ⟨none, fun _ => {}, [], false⟩))
      rfl rfl rfl (by omega)
    exact ⟨s, h, hkey, hi⟩
  | succ k hk ih =>
    intro hlt
    obtain ⟨s, h, hkey, hi⟩ := ih (by omega)
    -- the key holds `1000 * k`, which is not 0 below 2^64
    have hv : UInt64.ofNat (1000 * k) ≠ 0 := by
      intro h0
      have := congrArg UInt64.toNat h0
      rw [UInt64.toNat_ofNat', Nat.mod_eq_of_lt (by omega)] at this
      simp at this
      omega
    obtain ⟨s', h', hkey', -, hi', -⟩ := reachable_generate (i := 0) (n := 999) h hi
      (by rw [hkey]; rfl) (by rw [hkey]; exact txnCompare_some hv) (by omega)
    have hnext : UInt64.ofNat (1000 * (k + 1)) = UInt64.ofNat (1000 * k) + idBatch := by
      rw [Nat.mul_succ, UInt64.ofNat_add]
      rfl
    have hend : UInt64.ofNat (1000 * k) + 1 + UInt64.ofNat 999 = UInt64.ofNat (1000 * k) + idBatch := by
      rw [add_assoc]
      rfl
    exact ⟨s', h', by rw [hkey', hnext], by rw [hi', hend, hnext]⟩

end Runs

/-- From an absent id key, one instance allocating batch after batch wraps
the counter: after 18446744073709551 batches the key holds
18446744073709551000, the next transaction writes 384, the batch taken starts
at 18446744073709551000 again, and its 616th ID is 0. -/
theorem allocID_issues_zero :
    ∃ s, IDAllocReachable none s ∧ s.wrapped = true ∧ (0 : UInt64) ∈ s.issued := by
  obtain ⟨s, h, hkey, hi⟩ := reachable_batches 18446744073709551 (by decide) (by decide)
  have hv : UInt64.ofNat (1000 * 18446744073709551) ≠ 0 := by decide
  obtain ⟨s', h', -, hwrap, -, hmem⟩ := reachable_generate (i := 0) (n := 615) h hi
    (by rw [hkey]; rfl) (by rw [hkey]; exact txnCompare_some hv) (by omega)
  have hzero : UInt64.ofNat (1000 * 18446744073709551) + 1 + UInt64.ofNat 615 = 0 := by decide
  have hwraps : wraps (UInt64.ofNat (1000 * 18446744073709551)) = true := by decide
  exact ⟨s', h', by rw [hwrap, hwraps, Bool.or_true], hzero ▸ hmem⟩

end MatrixCube.Prophet
