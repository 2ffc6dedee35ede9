import MatrixCube.Raftstore.Keys
import MatrixCube.Storage.KV

/-! # Local metadata keys

The metadata storage keeps, under `localPrefix`, the store ident key and for
each shard its meta keys (`0x01 0x03`, the shard ID, a suffix byte) and its
raft keys (`0x01 0x02`, the shard ID, a suffix byte, and for a log entry the
log index) (`keys.go`). IDs go through `WriteInt64` of the `uint64` cast to
`int64`, which writes the bytes of the `uint64`. The keys of shard `s` thus
fill the windows `[getMetaPrefix s, getMetaPrefix (s + 1))` and
`[getRaftPrefix s, getRaftPrefix (s + 1))` that `clearMeta` scans; for the
last ID `s + 1` wraps and both windows are empty.

The metadata storage is the pebble storage, whose `Scan` visits the keys of
`[start, end)` in order.
-/

namespace MatrixCube.Raftstore

open ByteOrder BigEndian Storage

/-- `stateSuffix`. -/
def stateSuffix : UInt8 := 0x01
/-- `raftLogSuffix`. -/
def raftLogSuffix : UInt8 := 0x01
/-- `raftStateSuffix`. -/
def raftStateSuffix : UInt8 := 0x02
/-- `applyStateSuffix`. -/
def applyStateSuffix : UInt8 := 0x03

/-- `localPrefix`. -/
def localPrefix : UInt8 := 0x01
/-- `storeIdentKey`. -/
def storeIdentKey : Bytes := [localPrefix, 0x01]
/-- `raftPrefix`. -/
def raftPrefix : UInt8 := 0x02
/-- `raftPrefixKey`. -/
def raftPrefixKey : Bytes := [localPrefix, raftPrefix]
/-- `metaPrefix`. -/
def metaPrefix : UInt8 := 0x03
/-- `metaPrefixKey`. -/
def metaPrefixKey : Bytes := [localPrefix, metaPrefix]

/-- `decodeMetaKey`; an error is `none`. `binary.BigEndian.Uint64` reads the
first eight of the nine bytes after the prefix. -/
def decodeMetaKey (key : Bytes) : Option (UInt64 × UInt8) :=
  if metaPrefixKey.length + 9 ≠ key.length then none
  else if !metaPrefixKey.isPrefixOf key then none
  else some (uint64 ((key.drop metaPrefixKey.length).take 8), key.getD (key.length - 1) 0)

/-- `getMetaKey`. -/
def getMetaKey (shardID : UInt64) (suffix : UInt8) : Bytes :=
  metaPrefixKey ++ int64ToBytes (toInt64 shardID) ++ [suffix]

/-- `getMetaPrefix`. -/
def getMetaPrefix (shardID : UInt64) : Bytes :=
  metaPrefixKey ++ int64ToBytes (toInt64 shardID)

/-- `getShardLocaleStateKey`. -/
def getShardLocaleStateKey (shardID : UInt64) : Bytes :=
  getMetaKey shardID stateSuffix

/-- `getIDKey`. -/
def getIDKey (shardID : UInt64) (suffix : UInt8) (extraCap : Int) (extra : UInt64) : Bytes :=
  raftPrefixKey ++ int64ToBytes (toInt64 shardID) ++ [suffix] ++
    if extraCap > 0 then int64ToBytes (toInt64 extra) else []

/-- `getRaftLocalStateKey`. -/
def getRaftLocalStateKey (shardID : UInt64) : Bytes :=
  getIDKey shardID raftStateSuffix 0 0

/-- `getRaftApplyStateKey`. -/
def getRaftApplyStateKey (shardID : UInt64) : Bytes :=
  getIDKey shardID applyStateSuffix 0 0

/-- `getRaftPrefix`. -/
def getRaftPrefix (shardID : UInt64) : Bytes :=
  raftPrefixKey ++ int64ToBytes (toInt64 shardID)

/-- `getRaftLogKey`. -/
def getRaftLogKey (shardID logIndex : UInt64) : Bytes :=
  getIDKey shardID raftLogSuffix 8 logIndex

/-- `getRaftLogIndex`; an error is `none`. -/
def getRaftLogIndex (key : Bytes) : Option UInt64 :=
  if key.length ≠ raftPrefixKey.length + 8 * 2 + 1 then none
  else some (uint64 (key.drop (raftPrefixKey.length + 9)))

/-- `store.clearMeta`: the keys it deletes through the write batch, those of
the meta window and then those of the raft window, each scan in key order. -/
def clearMeta (s : KVStore) (id : UInt64) : List Bytes :=
  (s.iter (getMetaPrefix id) (getMetaPrefix (id + 1))).map (·.1) ++
    (s.iter (getRaftPrefix id) (getRaftPrefix (id + 1))).map (·.1)

/-- The meta keys of shard `s`. -/
def MetaKey (s : UInt64) (k : Bytes) : Prop := ∃ suffix, k = getMetaKey s suffix

/-- The raft keys of shard `s`: its log entries, raft state and apply state. -/
inductive RaftKey (s : UInt64) : Bytes → Prop
  | log (index : UInt64) : RaftKey s (getRaftLogKey s index)
  | raftState : RaftKey s (getRaftLocalStateKey s)
  | applyState : RaftKey s (getRaftApplyStateKey s)

/-- The local keys of shard `s`. -/
def LocalKey (s : UInt64) (k : Bytes) : Prop := MetaKey s k ∨ RaftKey s k

/-! ## The keys as bytes -/

theorem getMetaKey_eq (s : UInt64) (suffix : UInt8) :
    getMetaKey s suffix = metaPrefixKey ++ putUint64 s ++ [suffix] := by
  rw [getMetaKey, int64ToBytes_toInt64]

theorem getMetaPrefix_eq (s : UInt64) : getMetaPrefix s = metaPrefixKey ++ putUint64 s := by
  rw [getMetaPrefix, int64ToBytes_toInt64]

theorem getRaftPrefix_eq (s : UInt64) : getRaftPrefix s = raftPrefixKey ++ putUint64 s := by
  rw [getRaftPrefix, int64ToBytes_toInt64]

theorem getRaftLogKey_eq (s i : UInt64) :
    getRaftLogKey s i = raftPrefixKey ++ putUint64 s ++ (raftLogSuffix :: putUint64 i) := by
  simp [getRaftLogKey, getIDKey, int64ToBytes_toInt64]

theorem RaftKey.eq_append {s : UInt64} {k : Bytes} (h : RaftKey s k) :
    ∃ t, k = raftPrefixKey ++ putUint64 s ++ t := by
  cases h with
  | log index => exact ⟨_, getRaftLogKey_eq s index⟩
  | raftState => exact ⟨[raftStateSuffix], by simp [getRaftLocalStateKey, getIDKey, int64ToBytes_toInt64]⟩
  | applyState => exact ⟨[applyStateSuffix], by simp [getRaftApplyStateKey, getIDKey, int64ToBytes_toInt64]⟩

theorem uint64_putUint64 (v : UInt64) : uint64 (putUint64 v) = v := by
  rw [uint64, putUint64, natOfBytes_bytesOfNat v.toNat_lt, UInt64.ofNat_toNat]

/-! ## Decoding -/

theorem decodeMetaKey_getMetaKey (s : UInt64) (suffix : UInt8) :
    decodeMetaKey (getMetaKey s suffix) = some (s, suffix) := by
  have hpre : metaPrefixKey.isPrefixOf (metaPrefixKey ++ putUint64 s ++ [suffix]) = true := by
    rw [List.append_assoc, List.isPrefixOf_iff_prefix]
    exact List.prefix_append _ _
  rw [decodeMetaKey, getMetaKey_eq, if_neg (by simp [metaPrefixKey]), hpre]
  simp [metaPrefixKey, uint64_putUint64]

theorem getRaftLogIndex_getRaftLogKey (s i : UInt64) : getRaftLogIndex (getRaftLogKey s i) = some i := by
  have hdrop : (raftPrefixKey ++ putUint64 s ++ (raftLogSuffix :: putUint64 i)).drop (raftPrefixKey.length + 9) =
      putUint64 i := by
    have hsplit : raftPrefixKey ++ putUint64 s ++ (raftLogSuffix :: putUint64 i) =
        (raftPrefixKey ++ putUint64 s ++ [raftLogSuffix]) ++ putUint64 i := by
      simp
    rw [hsplit, List.drop_left' (by simp [raftPrefixKey])]
  rw [getRaftLogIndex, getRaftLogKey_eq, if_neg (by simp [raftPrefixKey]), hdrop, uint64_putUint64]

theorem getRaftLogKey_lt_iff (s i j : UInt64) : getRaftLogKey s i < getRaftLogKey s j ↔ i < j := by
  rw [getRaftLogKey_eq, getRaftLogKey_eq, append_lt_append_iff, List.cons_lt_cons_iff, putUint64_lt_iff]
  simp

/-! ## The windows of a shard -/

section Windows

variable {s : UInt64}

/-- A meta key lies in the meta window of `s` exactly when it is a key of `s`. -/
theorem metaKey_mem_window_iff (hs : s.toNat + 1 < 2 ^ 64) {s' : UInt64} {k : Bytes} (hk : MetaKey s' k) :
    (getMetaPrefix s ≤ k ∧ k < getMetaPrefix (s + 1)) ↔ s' = s := by
  obtain ⟨suffix, rfl⟩ := hk
  rw [getMetaKey_eq, getMetaPrefix_eq, getMetaPrefix_eq]
  exact mem_window_iff hs

/-- A raft key lies in the raft window of `s` exactly when it is a key of `s`. -/
theorem raftKey_mem_window_iff (hs : s.toNat + 1 < 2 ^ 64) {s' : UInt64} {k : Bytes} (hk : RaftKey s' k) :
    (getRaftPrefix s ≤ k ∧ k < getRaftPrefix (s + 1)) ↔ s' = s := by
  obtain ⟨t, rfl⟩ := hk.eq_append
  rw [getRaftPrefix_eq, getRaftPrefix_eq]
  exact mem_window_iff hs

/-- Every raft key is below every meta key: the second bytes are `0x02` and
`0x03`. -/
theorem raftPrefixKey_append_lt (a b : Bytes) : raftPrefixKey ++ a < metaPrefixKey ++ b := by
  simp [raftPrefixKey, metaPrefixKey, localPrefix, raftPrefix, metaPrefix, List.cons_lt_cons_iff]

theorem not_raftKey_mem_metaWindow {s' : UInt64} {k : Bytes} (hk : RaftKey s' k) :
    ¬ getMetaPrefix s ≤ k := by
  obtain ⟨t, rfl⟩ := hk.eq_append
  rw [getMetaPrefix_eq, not_le, List.append_assoc]
  exact raftPrefixKey_append_lt _ _

theorem not_metaKey_mem_raftWindow {s' : UInt64} {k : Bytes} (hk : MetaKey s' k) :
    ¬ k < getRaftPrefix (s + 1) := by
  obtain ⟨suffix, rfl⟩ := hk
  rw [getMetaKey_eq, getRaftPrefix_eq, not_lt, List.append_assoc]
  exact le_of_lt (raftPrefixKey_append_lt _ _)

theorem storeIdentKey_lt_getRaftPrefix : storeIdentKey < getRaftPrefix s := by
  rw [getRaftPrefix_eq]
  simp [storeIdentKey, raftPrefixKey, localPrefix, raftPrefix, List.cons_lt_cons_iff]

theorem storeIdentKey_lt_getMetaPrefix : storeIdentKey < getMetaPrefix s := by
  rw [getMetaPrefix_eq]
  simp [storeIdentKey, metaPrefixKey, localPrefix, metaPrefix, List.cons_lt_cons_iff]

theorem not_localKey_storeIdentKey : ¬ LocalKey s storeIdentKey := by
  rintro (⟨suffix, h⟩ | hraft)
  · have := congrArg List.length h
    simp [getMetaKey_eq, storeIdentKey, metaPrefixKey] at this
  · obtain ⟨t, ht⟩ := hraft.eq_append
    have := congrArg List.length ht
    simp [storeIdentKey, raftPrefixKey] at this

/-- A local key lies in a window of `s` exactly when it is a key of `s`. -/
theorem mem_windows_iff_localKey (hs : s.toNat + 1 < 2 ^ 64) {s' : UInt64} {k : Bytes} (hk : LocalKey s' k) :
    ((getMetaPrefix s ≤ k ∧ k < getMetaPrefix (s + 1)) ∨ (getRaftPrefix s ≤ k ∧ k < getRaftPrefix (s + 1))) ↔
      LocalKey s k := by
  constructor
  · rintro (hwin | hwin)
    · rcases hk with hmeta | hraft
      · obtain rfl := (metaKey_mem_window_iff hs hmeta).mp hwin
        exact .inl hmeta
      · exact absurd hwin.1 (not_raftKey_mem_metaWindow hraft)
    · rcases hk with hmeta | hraft
      · exact absurd hwin.2 (not_metaKey_mem_raftWindow hmeta)
      · obtain rfl := (raftKey_mem_window_iff hs hraft).mp hwin
        exact .inr hraft
  · rintro (hmeta | hraft)
    · exact .inl ((metaKey_mem_window_iff hs hmeta).mpr rfl)
    · exact .inr ((raftKey_mem_window_iff hs hraft).mpr rfl)

end Windows

/-! ## `clearMeta` -/

theorem mem_clearMeta {st : KVStore} {s : UInt64} {k : Bytes} :
    k ∈ clearMeta st s ↔ (∃ v, (k, v) ∈ st.items) ∧
      ((getMetaPrefix s ≤ k ∧ k < getMetaPrefix (s + 1)) ∨ (getRaftPrefix s ≤ k ∧ k < getRaftPrefix (s + 1))) := by
  simp only [clearMeta, KVStore.iter, List.mem_append, List.mem_map, KVStore.mem_range]
  constructor
  · rintro (⟨⟨k', v⟩, ⟨hmem, hwin⟩, rfl⟩ | ⟨⟨k', v⟩, ⟨hmem, hwin⟩, rfl⟩)
    · exact ⟨⟨v, hmem⟩, .inl hwin⟩
    · exact ⟨⟨v, hmem⟩, .inr hwin⟩
  · rintro ⟨⟨v, hmem⟩, hwin | hwin⟩
    · exact .inl ⟨(k, v), ⟨hmem, hwin⟩, rfl⟩
    · exact .inr ⟨(k, v), ⟨hmem, hwin⟩, rfl⟩

/-- Of the local keys and the store ident key, `clearMeta s` deletes exactly
the local keys of `s`. -/
theorem mem_clearMeta_iff_localKey {st : KVStore} {s : UInt64} (hs : s.toNat + 1 < 2 ^ 64) {k : Bytes}
    (hstored : ∃ v, (k, v) ∈ st.items) (hk : k = storeIdentKey ∨ ∃ s', LocalKey s' k) :
    k ∈ clearMeta st s ↔ LocalKey s k := by
  rw [mem_clearMeta]
  rcases hk with rfl | ⟨s', hk⟩
  · -- the ident key is below both windows, and no local key
    have h1 : storeIdentKey < getMetaPrefix s := storeIdentKey_lt_getMetaPrefix
    have h2 : storeIdentKey < getRaftPrefix s := storeIdentKey_lt_getRaftPrefix
    refine iff_of_false (fun ⟨_, hwin⟩ => ?_) not_localKey_storeIdentKey
    rcases hwin with ⟨hlo, -⟩ | ⟨hlo, -⟩
    · exact not_le.mpr h1 hlo
    · exact not_le.mpr h2 hlo
  · rw [and_iff_right hstored]
    exact mem_windows_iff_localKey hs hk

/-- For the last ID the next prefix wraps to that of `0`, so both windows are
empty and `clearMeta` deletes nothing. -/
theorem clearMeta_last (st : KVStore) : clearMeta st 18446744073709551615 = [] := by
  have hwrap : (18446744073709551615 : UInt64) + 1 = 0 := by decide
  have hle : putUint64 0 ≤ putUint64 18446744073709551615 := le_of_lt (putUint64_lt_iff.mpr (by decide))
  rw [List.eq_nil_iff_forall_not_mem]
  intro k hk
  obtain ⟨-, ⟨hlo, hhi⟩ | ⟨hlo, hhi⟩⟩ := mem_clearMeta.mp hk
  · rw [hwrap, getMetaPrefix_eq] at hhi
    rw [getMetaPrefix_eq] at hlo
    exact absurd (lt_of_le_of_lt hlo hhi) (not_lt.mpr (by simpa using hle))
  · rw [hwrap, getRaftPrefix_eq] at hhi
    rw [getRaftPrefix_eq] at hlo
    exact absurd (lt_of_le_of_lt hlo hhi) (not_lt.mpr (by simpa using hle))

theorem metaKeys_encoding (s : UInt64) (hs : s.toNat < 2 ^ 64 - 1) :
    (∀ suffix, decodeMetaKey (getMetaKey s suffix) = some (s, suffix)) ∧
      (∀ i, getRaftLogIndex (getRaftLogKey s i) = some i) ∧
      (∀ i j, getRaftLogKey s i < getRaftLogKey s j ↔ i < j) ∧
      (∀ s' k, MetaKey s' k → (getMetaPrefix s ≤ k ∧ k < getMetaPrefix (s + 1) ↔ s' = s)) ∧
      (∀ s' k, RaftKey s' k → (getRaftPrefix s ≤ k ∧ k < getRaftPrefix (s + 1) ↔ s' = s)) ∧
      ∀ (st : KVStore) (k : Bytes), (k ∈ clearMeta st s → ∃ v, (k, v) ∈ st.items) ∧
        ((∃ v, (k, v) ∈ st.items) → (k = storeIdentKey ∨ ∃ s', LocalKey s' k) →
          (k ∈ clearMeta st s ↔ LocalKey s k)) := by
  have hs' : s.toNat + 1 < 2 ^ 64 := by omega
  refine ⟨decodeMetaKey_getMetaKey s, getRaftLogIndex_getRaftLogKey s, getRaftLogKey_lt_iff s,
    fun _ _ hk => metaKey_mem_window_iff hs' hk, fun _ _ hk => raftKey_mem_window_iff hs' hk,
    fun st k => ⟨fun hk => (mem_clearMeta.mp hk).1, fun hstored hk => mem_clearMeta_iff_localKey hs' hstored hk⟩⟩

theorem metaKeys_encoding_one : decodeMetaKey (getMetaKey 1 1) = some (1, 1) :=
  (metaKeys_encoding 1 (by decide)).1 1

end MatrixCube.Raftstore
