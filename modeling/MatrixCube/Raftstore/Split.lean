import MatrixCube.Raftstore.Keys
import MatrixCube.Lib.KeyRange

/-! # Batch split

`applyDelegate.doExecSplit` (`peer_apply_exec.go`) cuts a shard at the keys of
a `BatchSplit` request. A first loop checks each decoded key against the back
of a deque of the keys accepted so far (`Start` while it is empty) and the
count of new peer ids; `checkKeyInShard` then checks only the last key against
the shard. On success the shard keeps its id and becomes `[Start, k₁)`, its
epoch version grows by the number of keys, and a second loop pops the deque,
with the old `End` pushed at its back, to build `[kᵢ, kᵢ₊₁)` for the i-th new
shard.

The deque is a list with its front at the head. A panic of Go (slicing a
short key, `MustFront` on an empty deque) is `none`.
-/

namespace MatrixCube.Raftstore

open ByteOrder

/-- `errorpb.KeyNotInShard`. -/
structure KeyNotInShard where
  key : Bytes
  shardID : UInt64
  start : Bytes
  end_ : Bytes
  deriving DecidableEq, Repr

/-- `checkKeyInShard`: `none` when `key ∈ [Start, End)`. -/
def checkKeyInShard (key : Bytes) (shard : Shard) : Option KeyNotInShard :=
  if shard.start ≤ key ∧ (shard.end_.length = 0 ∨ key < shard.end_) then none
  else some ⟨key, shard.id, shard.start, shard.end_⟩

/-- The errors `doExecSplit` returns. -/
inductive SplitError where
  | missingSplitsRequest
  | missingSplitKey
  | invalidSplitKey (splitKey : Bytes)
  | invalidNewPeerIDCount (need got : Nat)
  deriving DecidableEq, Repr

/-- What `doExecSplit` returns besides the shard it leaves in `d.shard`. -/
inductive SplitOutcome where
  /-- `nil, nil, err` -/
  | failed (e : SplitError)
  /-- `nil, nil, nil`: the last split key is not in the shard -/
  | skipped
  /-- the derived shard and the new shards of the `splitResult` -/
  | split (derived : Shard) (shards : List Shard)
  deriving DecidableEq, Repr

/-- The first loop of `doExecSplit`, over the requests left and the deque of
accepted keys. -/
def splitKeysLoop (derived : Shard) : List SplitRequest → List Bytes →
    Option (Except SplitError (List Bytes))
  | [], keys => some (.ok keys)
  | req :: reqs, keys =>
      if req.splitKey.length = 0 then some (.error .missingSplitKey)
      else
        match decodeDataKey req.splitKey with
        | none => none
        | some splitKey =>
            let v := keys.getLast?.getD derived.start
            if splitKey ≤ v then some (.error (.invalidSplitKey splitKey))
            else if req.newPeerIDs.length ≠ derived.peers.length then
              some (.error (.invalidNewPeerIDCount derived.peers.length req.newPeerIDs.length))
            else splitKeysLoop derived reqs (keys ++ [splitKey])

/-- One new shard of the second loop. Go indexes `req.NewPeerIDs` by the
position of each peer of `derived`; the first loop has made the two lengths
equal, so this is their `zipWith`. -/
def newSplitShard (derived : Shard) (req : SplitRequest) (start end_ : Bytes) : Shard :=
  { id := req.newShardID
    group := derived.group
    unique := derived.unique
    ruleGroups := derived.ruleGroups
    disableSplit := derived.disableSplit
    epoch := derived.epoch
    start := start
    end_ := end_
    peers := List.zipWith (fun p id => { id := id, containerID := p.containerID })
      derived.peers req.newPeerIDs }

/-- The second loop: `PopFront` gives a new shard's start, `MustFront` its end. -/
def splitShardsLoop (derived : Shard) : List SplitRequest → List Bytes → Option (List Shard)
  | [], _ => some []
  | req :: reqs, start :: end_ :: rest =>
      (newSplitShard derived req start end_ :: ·) <$> splitShardsLoop derived reqs (end_ :: rest)
  | _ :: _, _ => none

/-- `applyDelegate.doExecSplit`, returning the shard left in `d.shard` with the
outcome. The optional `CustomSplitCompletedFuncFactory` hook, the metrics and the
writes of the new peer states to the raft write batch are not modelled. -/
def doExecSplit (shard : Shard) (splitReqs : List SplitRequest) : Option (Shard × SplitOutcome) :=
  if splitReqs.length = 0 then some (shard, .failed .missingSplitsRequest)
  else
    match splitKeysLoop shard splitReqs [] with
    | none => none
    | some (.error e) => some (shard, .failed e)
    | some (.ok keys) =>
        match keys.getLast? with
        | none => none
        | some last =>
            if (checkKeyInShard last shard).isSome then some (shard, .skipped)
            else
              let derived := { shard with epoch.version := shard.epoch.version + splitReqs.length }
              let keys := keys ++ [derived.end_]
              match keys.head? with
              | none => none
              | some first =>
                  let derived := { derived with end_ := first }
                  match splitShardsLoop derived splitReqs keys with
                  | none => none
                  | some shards => some (derived, .split derived shards)

/-! ## The first loop -/

/-- The split keys of a request list, decoded. -/
def splitKeysOf (reqs : List SplitRequest) : List Bytes :=
  reqs.map (fun r => r.splitKey.drop dataPrefixSize)

/-- An accepting run of the first loop decoded every key, kept the deque
strictly increasing from `Start`, and saw one new peer id per peer. -/
theorem splitKeysLoop_ok {derived : Shard} :
    ∀ {reqs : List SplitRequest} {keys out : List Bytes},
      splitKeysLoop derived reqs keys = some (.ok out) →
      List.IsChain (· < ·) (derived.start :: keys) →
      out = keys ++ splitKeysOf reqs ∧ List.IsChain (· < ·) (derived.start :: out) ∧
        ∀ r ∈ reqs, r.newPeerIDs.length = derived.peers.length
  | [], keys, out, h, hc => by
      simp only [splitKeysLoop, Option.some.injEq, Except.ok.injEq] at h
      subst h
      simp [splitKeysOf, hc]
  | req :: reqs, keys, out, h, hc => by
      by_cases hempty : req.splitKey.length = 0
      · simp [splitKeysLoop, hempty] at h
      cases hdec : decodeDataKey req.splitKey with
      | none => simp [splitKeysLoop, hempty, hdec] at h
      | some splitKey =>
        obtain ⟨-, rfl⟩ := decodeDataKey_eq_some.mp hdec
        by_cases hle : req.splitKey.drop dataPrefixSize ≤ keys.getLast?.getD derived.start
        · simp [splitKeysLoop, hempty, hdec, hle] at h
        by_cases hcount : req.newPeerIDs.length = derived.peers.length
        swap
        · simp [splitKeysLoop, hempty, hdec, hle, hcount] at h
        simp only [splitKeysLoop, hempty, hdec, hle, hcount, if_false, ne_eq, not_true_eq_false]
          at h
        -- the key lies above the deque's back, so the deque stays a chain
        have hc' : List.IsChain (· < ·) (derived.start :: (keys ++ [req.splitKey.drop dataPrefixSize])) := by
          rw [← List.cons_append]
          refine hc.append (List.isChain_singleton _) (fun x hx y hy => ?_)
          rw [List.getLast?_cons, Option.mem_def, Option.some.injEq] at hx
          simp only [List.head?_cons, Option.mem_def, Option.some.injEq] at hy
          subst hx hy
          exact lt_of_not_ge hle
        obtain ⟨hout, hchain, hpeers⟩ := splitKeysLoop_ok h hc'
        refine ⟨by simp [hout, splitKeysOf], hchain, ?_⟩
        intro r hr
        rcases List.mem_cons.mp hr with rfl | hr
        · exact hcount
        · exact hpeers r hr

/-! ## The second loop -/

/-- With the old `End` at the deque's back, the second loop builds one shard per
request on the consecutive pieces `[kᵢ, kᵢ₊₁)`. -/
theorem splitShardsLoop_eq (derived : Shard) :
    ∀ {reqs : List SplitRequest} {k e : Bytes} {ks : List Bytes}, reqs.length = ks.length + 1 →
      splitShardsLoop derived reqs (k :: (ks ++ [e])) =
        some (List.zipWith (fun req r => newSplitShard derived req r.1 r.2) reqs
          (KeyRange.chainRanges k ks e))
  | [], _, _, _, h => by simp at h
  | [req], k, e, [], _ => by simp [splitShardsLoop, KeyRange.chainRanges]
  | req :: reqs, k, e, k' :: ks, h => by
      have h' : reqs.length = ks.length + 1 := by simpa using h
      rw [List.cons_append, splitShardsLoop, splitShardsLoop_eq derived h']
      simp [KeyRange.chainRanges]
  | _ :: _ :: _, _, _, [], h => by simp at h

/-- The peers a new shard gets for a request: one per peer of `peers`, on the
same container, with the requested id. -/
def splitPeers (peers : List Peer) (req : SplitRequest) : List Peer :=
  List.zipWith (fun p id => { id := id, containerID := p.containerID }) peers req.newPeerIDs

/-- The shards of the second loop, read field by field. -/
theorem zipWith_newSplitShard (derived : Shard) :
    ∀ {reqs : List SplitRequest} {rs : List (Bytes × Bytes)}, reqs.length = rs.length →
      let shards := List.zipWith (fun req r => newSplitShard derived req r.1 r.2) reqs rs
      shards.map Shard.range = rs ∧ shards.map Shard.id = reqs.map SplitRequest.newShardID ∧
        shards.map Shard.peers = reqs.map (splitPeers derived.peers) ∧
        ∀ s ∈ shards, s.epoch = derived.epoch
  | [], [], _ => by simp
  | req :: reqs, r :: rs, h => by
      obtain ⟨hr, hi, hp, he⟩ := @zipWith_newSplitShard derived reqs rs (by simpa using h)
      refine ⟨?_, ?_, ?_, ?_⟩
      · simpa [Shard.range, newSplitShard] using hr
      · simpa [newSplitShard] using hi
      · simpa [newSplitShard, splitPeers] using hp
      · intro s hs
        rcases List.mem_cons.mp hs with rfl | hs
        · rfl
        · exact he s hs
  | [], _ :: _, h => by simp at h
  | _ :: _, [], h => by simp at h

/-! ## The split layout -/

/-- What a successful split of `shard` by `reqs` into `derived` and `shards`
looks like: the decoded keys `k₁ < … < kₘ` cut `[Start, End)` into
`[Start, k₁)`, kept by the shard itself, and `[kᵢ, kᵢ₊₁)` for the i-th new
shard, with `kₘ₊₁ = End`. -/
structure SplitLayout (shard : Shard) (reqs : List SplitRequest) (derived : Shard)
    (shards : List Shard) : Prop where
  keys_sorted : (splitKeysOf reqs).Pairwise (· < ·)
  ranges : (derived :: shards).map Shard.range =
    KeyRange.chainRanges shard.start (splitKeysOf reqs) shard.end_
  nonempty : ∀ s ∈ derived :: shards, KeyRange.Below s.end_ s.start
  disjoint : (derived :: shards).Pairwise (fun s s' => KeyRange.Disjoint s.range s'.range)
  covers : ∀ k, KeyRange.Contains shard.start shard.end_ k ↔
    ∃ s ∈ derived :: shards, KeyRange.Contains s.start s.end_ k
  peer_counts : ∀ r ∈ reqs, r.newPeerIDs.length = shard.peers.length
  peers : shards.map Shard.peers = reqs.map (splitPeers shard.peers)
  ids : shards.map Shard.id = reqs.map SplitRequest.newShardID
  derived_id : derived.id = shard.id ∧ derived.peers = shard.peers
  version : derived.epoch.version = shard.epoch.version + reqs.length
  epochs : ∀ s ∈ shards, s.epoch = derived.epoch

/-- The pieces' facts carried over from `KeyRange` once the ranges are known. -/
theorem SplitLayout.of_ranges {shard derived : Shard} {reqs : List SplitRequest}
    {shards : List Shard} (hcuts : KeyRange.Cuts shard.start (splitKeysOf reqs) shard.end_)
    (hranges : (derived :: shards).map Shard.range =
      KeyRange.chainRanges shard.start (splitKeysOf reqs) shard.end_)
    (hcounts : ∀ r ∈ reqs, r.newPeerIDs.length = shard.peers.length)
    (hpeers : shards.map Shard.peers = reqs.map (splitPeers shard.peers))
    (hids : shards.map Shard.id = reqs.map SplitRequest.newShardID)
    (hderived : derived.id = shard.id ∧ derived.peers = shard.peers)
    (hversion : derived.epoch.version = shard.epoch.version + reqs.length)
    (hepochs : ∀ s ∈ shards, s.epoch = derived.epoch) :
    SplitLayout shard reqs derived shards where
  keys_sorted := (List.isChain_iff_pairwise.mp hcuts.1).of_cons
  ranges := hranges
  nonempty := fun s hs =>
    KeyRange.chainRanges_nonempty hcuts s.range (hranges ▸ List.mem_map_of_mem hs)
  disjoint := List.pairwise_map.mp (hranges ▸ KeyRange.chainRanges_pairwise_disjoint hcuts)
  covers := fun k => by
    rw [KeyRange.contains_iff_exists_chainRanges hcuts k, ← hranges]
    simp [Shard.range]
  peer_counts := hcounts
  peers := hpeers
  ids := hids
  derived_id := hderived
  version := hversion
  epochs := hepochs

/-- The successful run of `doExecSplit`, written out. -/
theorem doExecSplit_eq_split {shard : Shard} {reqs : List SplitRequest} {k₁ : Bytes}
    {rest : List Bytes} (hloop : splitKeysLoop shard reqs [] = some (.ok (k₁ :: rest)))
    (hcount : reqs.length = rest.length + 1)
    (hin : checkKeyInShard ((k₁ :: rest).getLast (by simp)) shard = none) :
    let derived := { shard with epoch.version := shard.epoch.version + reqs.length, end_ := k₁ }
    doExecSplit shard reqs = some (derived, .split derived
      (List.zipWith (fun req r => newSplitShard derived req r.1 r.2) reqs
        (KeyRange.chainRanges k₁ rest shard.end_))) := by
  intro derived
  have hne : reqs.length ≠ 0 := by omega
  have hlast : (k₁ :: rest).getLast? = some ((k₁ :: rest).getLast (by simp)) :=
    List.getLast?_eq_some_getLast _
  have hsecond := @splitShardsLoop_eq derived reqs k₁ shard.end_ _ hcount
  simp only [doExecSplit, hne, if_false, hloop, hlast, hin, Option.isSome_none,
    Bool.false_eq_true, List.cons_append, List.head?_cons]
  rw [hsecond]

/-- The last decoded key lies in the shard, so the cuts stay below its end. -/
theorem cuts_of_checkKeyInShard {shard : Shard} {k₁ : Bytes} {rest : List Bytes}
    (hchain : List.IsChain (· < ·) (shard.start :: k₁ :: rest))
    (hin : checkKeyInShard ((k₁ :: rest).getLast (by simp)) shard = none) :
    KeyRange.Cuts shard.start (k₁ :: rest) shard.end_ := by
  refine ⟨hchain, ?_⟩
  unfold checkKeyInShard at hin
  split_ifs at hin with hk
  rw [List.getLast_cons (by simp)]
  rcases hk.2 with h | h
  · exact .inl (List.length_eq_zero_iff.mp h)
  · exact .inr h

/-- The first loop accepts requests whose keys decode to a strictly increasing
chain above the keys accepted so far, each with one new peer id per peer. -/
theorem splitKeysLoop_eq_ok {derived : Shard} :
    ∀ {reqs : List SplitRequest} {keys : List Bytes},
      (∀ r ∈ reqs, dataPrefixSize ≤ r.splitKey.length ∧ r.newPeerIDs.length = derived.peers.length) →
      List.IsChain (· < ·) (derived.start :: (keys ++ splitKeysOf reqs)) →
      splitKeysLoop derived reqs keys = some (.ok (keys ++ splitKeysOf reqs))
  | [], keys, _, _ => by simp [splitKeysLoop, splitKeysOf]
  | req :: reqs, keys, hreqs, hchain => by
      obtain ⟨hlen, hcount⟩ := hreqs req List.mem_cons_self
      have hdec : decodeDataKey req.splitKey = some (req.splitKey.drop dataPrefixSize) :=
        decodeDataKey_eq_some.mpr ⟨hlen, rfl⟩
      have hnonempty : req.splitKey.length ≠ 0 := by
        simp only [dataPrefixSize, dataPrefixKey, List.length_singleton] at hlen
        omega
      -- the key follows the last accepted key, or the start
      have hlt : keys.getLast?.getD derived.start < req.splitKey.drop dataPrefixSize := by
        have hsplit := hchain
        rw [splitKeysOf, List.map_cons, ← List.cons_append, List.isChain_append] at hsplit
        exact hsplit.2.2 _ (by simp [List.getLast?_cons]) _ (by simp)
      have hrest := @splitKeysLoop_eq_ok derived reqs (keys ++ [req.splitKey.drop dataPrefixSize])
        (fun r hr => hreqs r (List.mem_cons_of_mem _ hr))
        (by simpa [splitKeysOf] using hchain)
      simp only [splitKeysLoop, hnonempty, if_false, hdec, not_le.mpr hlt, hcount, ne_eq,
        not_true_eq_false, hrest]
      simp [splitKeysOf]

/-- `doExecSplit` splits the shard at keys that decode to a strictly increasing
chain above its start and below its end, with one new peer id per peer. -/
theorem doExecSplit_accepts {shard : Shard} {reqs : List SplitRequest} (hne : reqs ≠ [])
    (hreqs : ∀ r ∈ reqs, dataPrefixSize ≤ r.splitKey.length ∧ r.newPeerIDs.length = shard.peers.length)
    (hchain : List.IsChain (· < ·) (shard.start :: splitKeysOf reqs))
    (hend : ∀ k ∈ splitKeysOf reqs, KeyRange.Below shard.end_ k) :
    ∃ derived shards, doExecSplit shard reqs = some (derived, .split derived shards) := by
  have hloop := @splitKeysLoop_eq_ok shard reqs [] hreqs (by simpa using hchain)
  obtain ⟨k₁, rest, hkeys⟩ : ∃ k₁ rest, splitKeysOf reqs = k₁ :: rest := by
    cases h : splitKeysOf reqs with
    | nil => simp [splitKeysOf] at h; exact absurd h hne
    | cons k₁ rest => exact ⟨k₁, rest, rfl⟩
  rw [List.nil_append, hkeys] at hloop
  have hcount : reqs.length = rest.length + 1 := by
    rw [← List.length_cons, ← hkeys, splitKeysOf, List.length_map]
  have hlast := List.getLast_mem (l := k₁ :: rest) (by simp)
  have hin : checkKeyInShard ((k₁ :: rest).getLast (by simp)) shard = none := by
    rw [hkeys] at hchain hend
    have hstart : shard.start < (k₁ :: rest).getLast (by simp) :=
      List.rel_of_pairwise_cons (List.isChain_iff_pairwise.mp hchain) hlast
    unfold checkKeyInShard
    rw [if_pos]
    refine ⟨le_of_lt hstart, ?_⟩
    rcases hend _ hlast with h | h
    · exact .inl (List.length_eq_zero_iff.mpr h)
    · exact .inr h
  exact ⟨_, _, doExecSplit_eq_split hloop hcount hin⟩

/-- The layout of the successful run of `doExecSplit`. -/
theorem splitLayout_of_loop {shard : Shard} {reqs : List SplitRequest} {k₁ : Bytes}
    {rest : List Bytes} (hloop : splitKeysLoop shard reqs [] = some (.ok (k₁ :: rest)))
    (hcount : reqs.length = rest.length + 1)
    (hin : checkKeyInShard ((k₁ :: rest).getLast (by simp)) shard = none) :
    let derived := { shard with epoch.version := shard.epoch.version + reqs.length, end_ := k₁ }
    SplitLayout shard reqs derived
      (List.zipWith (fun req r => newSplitShard derived req r.1 r.2) reqs
        (KeyRange.chainRanges k₁ rest shard.end_)) := by
  intro derived
  obtain ⟨hkeys, hchain, hcounts⟩ := splitKeysLoop_ok hloop (List.isChain_singleton _)
  rw [List.nil_append] at hkeys
  have hcuts := cuts_of_checkKeyInShard hchain hin
  rw [hkeys] at hcuts
  obtain ⟨hr, hi, hp, he⟩ := @zipWith_newSplitShard derived reqs
    (KeyRange.chainRanges k₁ rest shard.end_)
    (by rw [hcount]; exact (KeyRange.length_chainRanges k₁ rest shard.end_).symm)
  refine SplitLayout.of_ranges hcuts ?_ hcounts hp hi ⟨rfl, rfl⟩ rfl he
  rw [List.map_cons, hr, ← hkeys]
  rfl

/-- `doExecSplit` either leaves `d.shard` unchanged, or returns a split whose
derived shard is the new `d.shard` and whose layout is `SplitLayout`. -/
theorem doExecSplit_layout {shard shard' : Shard} {reqs : List SplitRequest}
    {out : SplitOutcome} (h : doExecSplit shard reqs = some (shard', out)) :
    match out with
    | .split derived shards => shard' = derived ∧ SplitLayout shard reqs derived shards
    | _ => shard' = shard := by
  by_cases hzero : reqs.length = 0
  · simp only [doExecSplit, hzero, if_true, Option.some.injEq, Prod.mk.injEq] at h
    obtain ⟨rfl, rfl⟩ := h
    rfl
  cases hloop : splitKeysLoop shard reqs [] with
  | none => simp [doExecSplit, hzero, hloop] at h
  | some res =>
    cases res with
    | error e =>
        simp only [doExecSplit, hzero, if_false, hloop, Option.some.injEq, Prod.mk.injEq] at h
        obtain ⟨rfl, rfl⟩ := h
        rfl
    | ok keys =>
        obtain ⟨hkeys, -, -⟩ := splitKeysLoop_ok hloop (List.isChain_singleton _)
        rw [List.nil_append] at hkeys
        -- the deque holds one decoded key per request
        obtain ⟨k₁, rest, hks⟩ : ∃ k₁ rest, keys = k₁ :: rest := by
          cases reqs with
          | nil => exact absurd rfl hzero
          | cons r rs => exact ⟨_, _, hkeys⟩
        have hcount : reqs.length = rest.length + 1 := by
          have := congrArg List.length (hkeys.symm.trans hks)
          simpa [splitKeysOf] using this
        subst hks
        cases hin : checkKeyInShard ((k₁ :: rest).getLast (by simp)) shard with
        | some err =>
            have hlast : (k₁ :: rest).getLast? = some ((k₁ :: rest).getLast (by simp)) :=
              List.getLast?_eq_some_getLast _
            simp only [doExecSplit, hzero, if_false, hloop, hlast, hin, Option.isSome_some,
              if_true, Option.some.injEq, Prod.mk.injEq] at h
            obtain ⟨rfl, rfl⟩ := h
            rfl
        | none =>
            rw [doExecSplit_eq_split hloop hcount hin, Option.some.injEq, Prod.mk.injEq] at h
            obtain ⟨rfl, rfl⟩ := h
            exact ⟨rfl, splitLayout_of_loop hloop hcount hin⟩

theorem doExecSplit_layout_two_keys :
    let shard : Shard := { id := 1, peers := [{ id := 10, containerID := 100 }] }
    let reqs : List SplitRequest :=
      [{ splitKey := encodeDataKey 0 [5], newShardID := 2, newPeerIDs := [20] },
       { splitKey := encodeDataKey 0 [7], newShardID := 3, newPeerIDs := [30] }]
    ∃ derived shards, doExecSplit shard reqs = some (derived, .split derived shards) ∧
      SplitLayout shard reqs derived shards := by
  intro shard reqs
  exact ⟨_, _, rfl, (@doExecSplit_layout shard _ reqs (.split _ _) rfl).2⟩

end MatrixCube.Raftstore
