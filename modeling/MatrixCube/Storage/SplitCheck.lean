import MatrixCube.Storage.KV
import MatrixCube.Raftstore.Split

/-! # Split check

`SplitCheck(start, end, size)` of both data storages (`storage/pebble`,
`storage/mem`) walks the keys of `[start, end)` in order, adds up
`len(key) + len(value)`, and once the running sum reaches `size` makes the
next key a split key and restarts the sum there. The loop is shared; the mem
storage counts the values without their eight-byte expiry header and skips the
keys whose value is empty or has expired. The keys are the encoded data keys
of a shard, which `doExecSplit` decodes.
-/

namespace MatrixCube.Storage

open ByteOrder BigEndian KeyRange MatrixCube.Raftstore

/-- The variables of the loop of `SplitCheck`. -/
structure SplitCheckState where
  total : Nat := 0
  keys : Nat := 0
  sum : Nat := 0
  appendSplitKey : Bool := false
  splitKeys : List Bytes := []
  deriving DecidableEq, Repr

/-- The bytes a pair counts for. -/
def pairSize (kv : Bytes × Bytes) : Nat := kv.1.length + kv.2.length

/-- One visited pair: a pending cut is made at its key, its bytes are counted,
and a cut is requested once the running sum reaches `size`. -/
def splitCheckStep (size : Nat) (st : SplitCheckState) (kv : Bytes × Bytes) : SplitCheckState :=
  let st := if st.appendSplitKey then
      { st with splitKeys := st.splitKeys ++ [kv.1], appendSplitKey := false, sum := 0 }
    else st
  let n := pairSize kv
  let st := { st with sum := st.sum + n, total := st.total + n, keys := st.keys + 1 }
  if st.sum ≥ size then { st with appendSplitKey := true } else st

/-- The loop over the counted pairs. -/
def splitCheckLoop (size : Nat) (pairs : List (Bytes × Bytes)) : SplitCheckState :=
  pairs.foldl (splitCheckStep size) {}

namespace Pebble

/-- `Storage.SplitCheck` of the pebble storage. -/
def splitCheck (db : KVStore) (start end_ : Bytes) (size : Nat) : Nat × Nat × List Bytes :=
  let st := splitCheckLoop size (db.iter start end_)
  (st.total, st.keys, st.splitKeys)

end Pebble

namespace Mem

/-- `buf.Byte2Int64`: the first eight bytes as a big-endian signed integer; a
shorter slice is out of range, a panic. -/
def byte2Int64 (b : Bytes) : Option Int :=
  if b.length < 8 then none
  else
    let n := natOfBytes (b.take 8)
    some (if n < 2 ^ 63 then n else n - 2 ^ 64)

/-- `decodeValue` at the time `now`: the stored value without its expiry time,
empty once expired. -/
def decodeValue (value : Bytes) (now : Int) : Option Bytes :=
  if value.length = 0 then some []
  else (byte2Int64 value).map fun expireAt =>
    if expireAt ≠ 0 ∧ expireAt < now then [] else value.drop 8

/-- The pairs of a `KVTree.Scan` with their values decoded, in order. -/
def decodeScan (now : Int) : List (Bytes × Bytes) → Option (List (Bytes × Bytes))
  | [] => some []
  | kv :: rest => do
      let v ← decodeValue kv.2 now
      let rest ← decodeScan now rest
      pure ((kv.1, v) :: rest)

/-- The pairs the mem `SplitCheck` counts: the live ones of the range. -/
def livePairs (kv : KVStore) (now : Int) (start end_ : Bytes) : Option (List (Bytes × Bytes)) :=
  (decodeScan now (kv.scan start end_)).map fun pairs => pairs.filter fun p => p.2.length ≠ 0

/-- `Storage.SplitCheck` of the mem storage at the time `now`. -/
def splitCheck (kv : KVStore) (now : Int) (start end_ : Bytes) (size : Nat) :
    Option (Nat × Nat × List Bytes) :=
  (livePairs kv now start end_).map fun pairs =>
    let st := splitCheckLoop size pairs
    (st.total, st.keys, st.splitKeys)

end Mem

/-! ## The loop -/

/-- The bytes of a list of pairs. -/
def weight (pairs : List (Bytes × Bytes)) : Nat := (pairs.map pairSize).sum

/-- The key a segment of the walk starts at. -/
def headKey (seg : List (Bytes × Bytes)) : Bytes := (seg.headD ([], [])).1

@[simp] theorem weight_nil : weight [] = 0 := rfl

@[simp] theorem weight_append (a b : List (Bytes × Bytes)) : weight (a ++ b) = weight a + weight b := by
  simp [weight]

@[simp] theorem weight_singleton (kv : Bytes × Bytes) : weight [kv] = pairSize kv := by
  simp [weight]

/-- What one step does to each variable of the loop. -/
theorem splitCheckStep_fields (size : Nat) (st : SplitCheckState) (kv : Bytes × Bytes) :
    let st' := splitCheckStep size st kv
    st'.total = st.total + pairSize kv ∧ st'.keys = st.keys + 1 ∧
      st'.sum = (if st.appendSplitKey then 0 else st.sum) + pairSize kv ∧
      st'.appendSplitKey = decide (size ≤ st'.sum) ∧
      st'.splitKeys = if st.appendSplitKey then st.splitKeys ++ [kv.1] else st.splitKeys := by
  unfold splitCheckStep
  cases h : st.appendSplitKey <;> dsimp only <;> split_ifs with hle <;> simp_all

/-- The invariant of the loop after the pairs `p`: the walk so far is cut into
completed segments, each reaching `size` only with its last pair, and the
current segment, whose bytes are the running sum; the split keys are the
starts of all segments but the first. -/
structure LoopInv (size : Nat) (p : List (Bytes × Bytes)) (st : SplitCheckState) : Prop where
  total : st.total = weight p
  keys : st.keys = p.length
  segments : ∃ done cur, p = done.flatten ++ cur ∧
    (∀ s ∈ done, s ≠ [] ∧ size ≤ weight s ∧ weight s.dropLast < size) ∧
    (cur = [] → done = []) ∧ weight cur.dropLast < size ∧ st.sum = weight cur ∧
    st.appendSplitKey = decide (size ≤ weight cur) ∧ st.splitKeys = (done ++ [cur]).tail.map headKey

section Loop

variable {size : Nat}

theorem loopInv_nil (hsize : 0 < size) : LoopInv size [] {} :=
  ⟨rfl, rfl, [], [], rfl, by simp, fun _ => rfl, by simp; omega, rfl, by simp; omega, rfl⟩

theorem loopInv_step (hsize : 0 < size) {p : List (Bytes × Bytes)} {st : SplitCheckState}
    (kv : Bytes × Bytes) (hinv : LoopInv size p st) :
    LoopInv size (p ++ [kv]) (splitCheckStep size st kv) := by
  obtain ⟨htotal, hkeys, done, cur, hp, hdone, hcur, hdrop, hsum, happ, hsplit⟩ := hinv
  obtain ⟨htotal', hkeys', hsum', happ', hsplit'⟩ := splitCheckStep_fields size st kv
  refine ⟨by rw [htotal', htotal, weight_append, weight_singleton], by simp [hkeys', hkeys], ?_⟩
  cases hflag : st.appendSplitKey
  · -- below `size`: the pair joins the current segment
    have hlt : weight cur < size := by
      rw [hflag] at happ
      exact not_le.mp (of_decide_eq_false happ.symm)
    simp only [hflag, Bool.false_eq_true, if_false] at hsum' hsplit'
    refine ⟨done, cur ++ [kv], by rw [hp, List.append_assoc], hdone, by simp, ?_, ?_, ?_, ?_⟩
    · rwa [List.dropLast_concat]
    · rw [hsum', hsum, weight_append, weight_singleton]
    · rw [happ', hsum', hsum, weight_append, weight_singleton]
    · rw [hsplit', hsplit]
      cases done with
      | nil => rfl
      | cons d ds =>
        -- the current segment already has its first pair
        have hne : cur ≠ [] := fun h => nomatch hcur h
        obtain ⟨x, xs, rfl⟩ := List.exists_cons_of_ne_nil hne
        simp [headKey]
  · -- `size` was reached: the pair starts a new segment at a new split key
    have hle : size ≤ weight cur := by
      rw [hflag] at happ
      exact of_decide_eq_true happ.symm
    have hne : cur ≠ [] := by
      rintro rfl
      simp at hle
      omega
    simp only [hflag, if_true, zero_add] at hsum' hsplit'
    refine ⟨done ++ [cur], [kv], by rw [hp, List.flatten_append]; simp, ?_, by simp, by simpa using hsize,
      by rw [hsum', weight_singleton], by rw [happ', hsum', weight_singleton], ?_⟩
    · intro s hs
      rcases List.mem_append.mp hs with hs | hs
      · exact hdone s hs
      · rw [List.mem_singleton.mp hs]
        exact ⟨hne, hle, hdrop⟩
    · rw [hsplit', hsplit, List.tail_append_of_ne_nil (by simp : done ++ [cur] ≠ []), List.map_append]
      rfl

theorem loopInv_foldl (hsize : 0 < size) :
    ∀ (l : List (Bytes × Bytes)) {p : List (Bytes × Bytes)} {st : SplitCheckState},
      LoopInv size p st → LoopInv size (p ++ l) (l.foldl (splitCheckStep size) st)
  | [], _, _, h => by simpa using h
  | kv :: l, p, st, h => by
    have := loopInv_foldl hsize l (loopInv_step hsize kv h)
    rwa [List.append_assoc, List.singleton_append] at this

theorem loopInv_splitCheckLoop (hsize : 0 < size) (pairs : List (Bytes × Bytes)) :
    LoopInv size pairs (splitCheckLoop size pairs) := by
  simpa [splitCheckLoop] using loopInv_foldl hsize pairs (loopInv_nil hsize)

/-- When the walk stops, its segments are the completed ones and the current
one, if it has a pair. -/
theorem LoopInv.final_segments {p : List (Bytes × Bytes)} {st : SplitCheckState}
    (hinv : LoopInv size p st) :
    ∃ segs : List (List (Bytes × Bytes)), p = segs.flatten ∧ st.splitKeys = segs.tail.map headKey ∧
      (∀ s ∈ segs, s ≠ [] ∧ weight s.dropLast < size) ∧ ∀ s ∈ segs.dropLast, size ≤ weight s := by
  obtain ⟨-, -, done, cur, hp, hdone, hcur, hdrop, -, -, hsplit⟩ := hinv
  by_cases hempty : cur = []
  · subst hempty
    obtain rfl := hcur rfl
    exact ⟨[], by simpa using hp, by simpa using hsplit, by simp, by simp⟩
  · refine ⟨done ++ [cur], by simpa using hp, hsplit, fun s hs => ?_, fun s hs => ?_⟩
    · rcases List.mem_append.mp hs with hs | hs
      · exact ⟨(hdone s hs).1, (hdone s hs).2.2⟩
      · rw [List.mem_singleton.mp hs]
        exact ⟨hempty, hdrop⟩
    · rw [List.dropLast_concat] at hs
      exact (hdone s hs).2.1

end Loop

/-! ## What the loop returns -/

/-- What `SplitCheck` returns for the pairs it counts, `pairs`: the total bytes,
the number of keys, and split keys that cut the walk into segments, each of
which reaches `size` only with its last pair, all but the last reaching it. -/
structure SplitCheckSpec (size : Nat) (pairs : List (Bytes × Bytes)) (result : Nat × Nat × List Bytes) :
    Prop where
  total_eq : result.1 = weight pairs
  keys_eq : result.2.1 = pairs.length
  sublist : List.Sublist result.2.2 ((pairs.drop 1).map Prod.fst)
  segments : ∃ segs : List (List (Bytes × Bytes)), pairs = segs.flatten ∧
    result.2.2 = segs.tail.map headKey ∧ (∀ s ∈ segs, s ≠ [] ∧ weight s.dropLast < size) ∧
    ∀ s ∈ segs.dropLast, size ≤ weight s

/-- The starts of non-empty segments come in the order of the walk. -/
theorem map_headKey_sublist :
    ∀ {segs : List (List (Bytes × Bytes))}, (∀ s ∈ segs, s ≠ []) →
      List.Sublist (segs.map headKey) (segs.flatten.map Prod.fst)
  | [], _ => by simp
  | s :: segs, h => by
    obtain ⟨x, xs, rfl⟩ := List.exists_cons_of_ne_nil (h s List.mem_cons_self)
    have ih := map_headKey_sublist fun t ht => h t (List.mem_cons_of_mem _ ht)
    simp only [List.map_cons, List.flatten_cons, List.cons_append, List.map_append]
    exact (ih.trans (List.sublist_append_right _ _)).cons_cons _

/-- The starts of all non-empty segments but the first lie past the first pair
of the walk, in order. -/
theorem tail_map_headKey_sublist {segs : List (List (Bytes × Bytes))} (hne : ∀ s ∈ segs, s ≠ []) :
    List.Sublist (segs.tail.map headKey) ((segs.flatten.drop 1).map Prod.fst) := by
  cases segs with
  | nil => simp
  | cons s segs =>
    obtain ⟨x, xs, rfl⟩ := List.exists_cons_of_ne_nil (hne s List.mem_cons_self)
    simp only [List.tail_cons, List.flatten_cons, List.cons_append, List.drop_succ_cons, List.drop_zero,
      List.map_append]
    exact (map_headKey_sublist fun t ht => hne t (List.mem_cons_of_mem _ ht)).trans
      (List.sublist_append_right _ _)

theorem splitCheckLoop_spec {size : Nat} (hsize : 0 < size) (pairs : List (Bytes × Bytes)) :
    let st := splitCheckLoop size pairs
    SplitCheckSpec size pairs (st.total, st.keys, st.splitKeys) := by
  have hinv := loopInv_splitCheckLoop hsize pairs
  obtain ⟨segs, hflat, hkeys', hne, hfull⟩ := hinv.final_segments
  refine ⟨hinv.total, hinv.keys, ?_, ⟨segs, hflat, hkeys', hne, hfull⟩⟩
  rw [hkeys', hflat]
  exact tail_map_headKey_sublist fun s hs => (hne s hs).1

/-! ## Acceptance by the split executor -/

/-- Split keys `doExecSplit` accepts for a shard: strictly increasing, each
the encoding of a key of the shard past its start, and any batch split carrying
them, with one new peer id per peer, splits the shard. -/
structure SplitKeysAccepted (shard : Shard) (splitKeys : List Bytes) : Prop where
  increasing : List.IsChain (· < ·) splitKeys
  decoded : ∀ c ∈ splitKeys, c = encodeDataKey shard.group (c.drop dataPrefixSize) ∧
    shard.start < c.drop dataPrefixSize ∧ Below shard.end_ (c.drop dataPrefixSize)
  accepted : ∀ reqs : List SplitRequest, reqs ≠ [] → reqs.map (·.splitKey) = splitKeys →
    (∀ r ∈ reqs, r.newPeerIDs.length = shard.peers.length) →
    ∃ derived shards, doExecSplit shard reqs = some (derived, .split derived shards)

/-- Strictly increasing keys of prefix length strictly inside the encoded range
of a shard are accepted split keys. -/
theorem splitKeysAccepted_of_between {shard : Shard} {splitKeys : List Bytes}
    (hinc : splitKeys.Pairwise (· < ·))
    (hin : ∀ c ∈ splitKeys, dataPrefixSize ≤ c.length ∧
      encodeDataKey shard.group shard.start < c ∧ c < getDataEndKey shard.group shard.end_) :
    SplitKeysAccepted shard splitKeys := by
  have hdec : ∀ c ∈ splitKeys, c = encodeDataKey shard.group (c.drop dataPrefixSize) ∧
      shard.start < c.drop dataPrefixSize ∧ Below shard.end_ (c.drop dataPrefixSize) :=
    fun c hc => exists_decoded_of_between (hin c hc).1 (hin c hc).2.1 (hin c hc).2.2
  refine ⟨List.isChain_iff_pairwise.mpr hinc, hdec, ?_⟩
  intro reqs hne hkeys hcount
  have hof : splitKeysOf reqs = splitKeys.map (·.drop dataPrefixSize) := by
    rw [splitKeysOf, ← hkeys, List.map_map]
    rfl
  refine doExecSplit_accepts hne (fun r hr => ⟨?_, hcount r hr⟩) ?_ ?_
  · exact (hin r.splitKey (hkeys ▸ List.mem_map_of_mem hr)).1
  · -- keys with one prefix compare as their decoded parts
    rw [hof, List.isChain_iff_pairwise, List.pairwise_cons, List.pairwise_map]
    refine ⟨fun k hk => ?_, hinc.imp_of_mem fun {a b} ha hb hab => ?_⟩
    · obtain ⟨c, hc, rfl⟩ := List.mem_map.mp hk
      exact (hdec c hc).2.1
    · rw [(hdec a ha).1, (hdec b hb).1, encodeDataKey, encodeDataKey, append_lt_append_iff] at hab
      simpa using hab
  · rw [hof]
    intro k hk
    obtain ⟨c, hc, rfl⟩ := List.mem_map.mp hk
    exact (hdec c hc).2.2

/-- The split keys of a walk over keys sorted and inside the encoded range of a
shard, all of prefix length, are accepted. -/
theorem splitKeysAccepted_of_walk {shard : Shard} {pairs : List (Bytes × Bytes)}
    {splitKeys : List Bytes} (hsub : List.Sublist splitKeys ((pairs.drop 1).map Prod.fst))
    (hsorted : pairs.Pairwise (fun a b => a.1 < b.1))
    (hkeys : ∀ kv ∈ pairs, dataPrefixSize ≤ kv.1.length ∧
      encodeDataKey shard.group shard.start ≤ kv.1 ∧ kv.1 < getDataEndKey shard.group shard.end_) :
    SplitKeysAccepted shard splitKeys := by
  cases pairs with
  | nil => exact splitKeysAccepted_of_between (by simp_all) (by simp_all)
  | cons first rest =>
    simp only [List.drop_succ_cons, List.drop_zero] at hsub
    have hrest : (rest.map Prod.fst).Pairwise (· < ·) :=
      List.pairwise_map.mpr (List.Pairwise.of_cons hsorted)
    refine splitKeysAccepted_of_between (hrest.sublist hsub) fun c hc => ?_
    obtain ⟨kv, hkv, rfl⟩ := List.mem_map.mp (hsub.subset hc)
    have hmem := hkeys kv (List.mem_cons_of_mem _ hkv)
    -- a split key is never the first key of the walk
    have hfirst := (hkeys first List.mem_cons_self).2.1
    exact ⟨hmem.1, lt_of_le_of_lt hfirst (List.rel_of_pairwise_cons hsorted hkv), hmem.2.2⟩

/-! ## The two storages -/

theorem encStartKey_eq {shard : Shard} {start : Bytes} (h : encStartKey shard = some start) :
    start = encodeDataKey shard.group shard.start := by
  unfold encStartKey at h
  split_ifs at h
  exact (Option.some.inj h).symm

theorem encEndKey_eq {shard : Shard} {end_ : Bytes} (h : encEndKey shard = some end_) :
    end_ = getDataEndKey shard.group shard.end_ := by
  unfold encEndKey at h
  split_ifs at h
  exact (Option.some.inj h).symm

namespace Mem

theorem decodeValue_isSome {value : Bytes} (now : Int) (h : value.length = 0 ∨ 8 ≤ value.length) :
    ∃ v, decodeValue value now = some v := by
  unfold decodeValue byte2Int64
  split_ifs with h0 h8 <;> simp
  omega

theorem decodeScan_isSome (now : Int) :
    ∀ {pairs : List (Bytes × Bytes)}, (∀ kv ∈ pairs, kv.2.length = 0 ∨ 8 ≤ kv.2.length) →
      ∃ decoded, decodeScan now pairs = some decoded
  | [], _ => ⟨[], rfl⟩
  | kv :: rest, h => by
    obtain ⟨v, hv⟩ := decodeValue_isSome now (h kv List.mem_cons_self)
    obtain ⟨decoded, hrest⟩ := decodeScan_isSome now fun p hp => h p (List.mem_cons_of_mem _ hp)
    exact ⟨(kv.1, v) :: decoded, by simp [decodeScan, hv, hrest]⟩

/-- Decoding keeps the keys. -/
theorem decodeScan_map_fst {now : Int} :
    ∀ {pairs decoded : List (Bytes × Bytes)}, decodeScan now pairs = some decoded →
      decoded.map Prod.fst = pairs.map Prod.fst
  | [], decoded, h => by cases h; rfl
  | kv :: rest, decoded, h => by
    simp only [decodeScan, Option.bind_eq_bind, Option.bind_eq_some_iff, Option.pure_def,
      Option.some.injEq] at h
    obtain ⟨v, -, rest', hrest, rfl⟩ := h
    simp [decodeScan_map_fst hrest]

/-- The live pairs of a range are sorted and their keys are keys of the range. -/
theorem livePairs_keys {kv : KVStore} {now : Int} {start end_ : Bytes} {pairs : List (Bytes × Bytes)}
    (h : livePairs kv now start end_ = some pairs) :
    pairs.Pairwise (fun a b => a.1 < b.1) ∧ ∀ p ∈ pairs, ∃ v, (p.1, v) ∈ kv.range start end_ := by
  obtain ⟨decoded, hdec, rfl⟩ := Option.map_eq_some_iff.mp h
  have hkeys := decodeScan_map_fst hdec
  rw [KVStore.scan_eq_range] at hkeys
  refine ⟨?_, fun p hp => ?_⟩
  · have hsorted : (decoded.map Prod.fst).Pairwise (· < ·) := by
      rw [hkeys, List.pairwise_map]
      exact KVStore.range_sorted kv start end_
    exact (List.pairwise_map.mp hsorted).filter _
  · obtain ⟨q, hq, hqk⟩ := List.mem_map.mp (hkeys ▸ List.mem_map_of_mem (List.mem_filter.mp hp).1 :
      p.1 ∈ (kv.range start end_).map Prod.fst)
    exact ⟨q.2, by rw [← hqk]; exact hq⟩

end Mem

/-- Split checks of a shard's encoded range, for a positive `size`, on stores
whose keys are at least `DataPrefixSize` long (and, in the mem storage, whose
values are empty or carry their eight-byte expiry): the result counts the
bytes and keys walked, cuts the walk into segments that reach `size` only at
their last pair, and its split keys are accepted by `doExecSplit`. -/
theorem splitCheck_acceptable {shard : Shard} {start end_ : Bytes} {size : Nat} (hsize : 0 < size)
    (hstart : encStartKey shard = some start) (hend : encEndKey shard = some end_) :
    (∀ db : KVStore, (∀ kv ∈ db.items, dataPrefixSize ≤ kv.1.length) →
      SplitCheckSpec size (db.iter start end_) (Pebble.splitCheck db start end_ size) ∧
        SplitKeysAccepted shard (Pebble.splitCheck db start end_ size).2.2) ∧
    (∀ (kv : KVStore) (now : Int),
      (∀ p ∈ kv.items, dataPrefixSize ≤ p.1.length ∧ (p.2.length = 0 ∨ 8 ≤ p.2.length)) →
      ∃ pairs result, Mem.livePairs kv now start end_ = some pairs ∧
        Mem.splitCheck kv now start end_ size = some result ∧
        SplitCheckSpec size pairs result ∧ SplitKeysAccepted shard result.2.2) := by
  rw [encStartKey_eq hstart, encEndKey_eq hend]
  constructor
  · intro db hdb
    have hspec := splitCheckLoop_spec hsize (db.iter (encodeDataKey shard.group shard.start)
      (getDataEndKey shard.group shard.end_))
    refine ⟨hspec, splitKeysAccepted_of_walk hspec.sublist (KVStore.range_sorted _ _ _) ?_⟩
    intro kv hkv
    obtain ⟨hmem, hlo, hhi⟩ := KVStore.mem_range.mp hkv
    exact ⟨hdb kv hmem, hlo, hhi⟩
  · intro kv now hkv
    -- every value decodes, so the scan returns
    obtain ⟨decoded, hdec⟩ := @Mem.decodeScan_isSome now (kv.scan
      (encodeDataKey shard.group shard.start) (getDataEndKey shard.group shard.end_)) fun p hp => by
        rw [KVStore.scan_eq_range] at hp
        exact (hkv p (KVStore.mem_range.mp hp).1).2
    have hlive : Mem.livePairs kv now (encodeDataKey shard.group shard.start)
        (getDataEndKey shard.group shard.end_) = some (decoded.filter fun p => p.2.length ≠ 0) := by
      simp [Mem.livePairs, hdec]
    have hspec := splitCheckLoop_spec hsize (decoded.filter fun p => p.2.length ≠ 0)
    refine ⟨_, _, hlive, by simp [Mem.splitCheck, hlive], hspec, ?_⟩
    obtain ⟨hsorted, hkeys⟩ := Mem.livePairs_keys hlive
    refine splitKeysAccepted_of_walk hspec.sublist hsorted fun p hp => ?_
    obtain ⟨v, hv⟩ := hkeys p hp
    obtain ⟨hmem, hlo, hhi⟩ := KVStore.mem_range.mp hv
    exact ⟨(hkv _ hmem).1, hlo, hhi⟩

/-- Two data keys of group 0 with a split every key. -/
theorem splitCheck_acceptable_group_zero :
    let shard : Shard := { id := 1, peers := [{ id := 1, containerID := 1 }] }
    let db : KVStore := ⟨[(encodeDataKey 0 [1], [1]), (encodeDataKey 0 [2], [1])], by decide⟩
    SplitKeysAccepted shard (Pebble.splitCheck db (encodeDataKey 0 []) (getDataMaxKey 0) 1).2.2 := by
  intro shard db
  exact ((@splitCheck_acceptable shard _ _ 1 (by decide) rfl rfl).1 db (by decide)).2

/-- A stored key shorter than the data prefix, after the last data key of group
255 and below the first of group 256, becomes a split key of the last shard of
group 255, and `doExecSplit` cannot decode it. -/
theorem splitCheck_short_key_rejected :
    let shard : Shard := { id := 1, group := 255, peers := [{ id := 1, containerID := 1 }] }
    let short : Bytes := [122, 0, 0, 0, 0, 0, 0, 1]
    let db : KVStore := ⟨[(encodeDataKey 255 [0], [1]), (short, [1])], by decide⟩
    encStartKey shard = some (encodeDataKey 255 []) ∧ encEndKey shard = some (getDataMaxKey 255) ∧
      (Pebble.splitCheck db (encodeDataKey 255 []) (getDataMaxKey 255) 1).2.2 = [short] ∧
      doExecSplit shard [{ splitKey := short, newShardID := 2, newPeerIDs := [2] }] = none := by
  decide

end MatrixCube.Storage
