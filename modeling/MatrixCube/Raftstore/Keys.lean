import MatrixCube.Pb
import MatrixCube.Lib.BigEndian
import MatrixCube.Lib.KeyRange

/-! # Data keys

User keys are stored in the data storage under `'z'`, the shard group as eight
big-endian bytes, and the key itself (`keys.go`). A shard `[Start, End)` of
group `g` thus owns the encoded range `[encStartKey, encEndKey)`, where an
empty `End` becomes the first key of group `g + 1`.
-/

namespace MatrixCube.Raftstore

open ByteOrder BigEndian

/-- `dataPrefix`, the byte `'z'`. -/
def dataPrefix : UInt8 := 122

/-- `dataPrefixKey`. -/
def dataPrefixKey : Bytes := [dataPrefix]

/-- `DataPrefixSize`: the prefix byte and the eight group bytes. -/
def dataPrefixSize : Nat := dataPrefixKey.length + 8

/-- `EncodeDataKey` (through `getDataKey0`). -/
def encodeDataKey (group : UInt64) (key : Bytes) : Bytes :=
  dataPrefixKey ++ putUint64 group ++ key

/-- `DecodeDataKey`, `key[DataPrefixSize:]`: a shorter key is out of the
slice's bounds, a panic in Go. -/
def decodeDataKey (key : Bytes) : Option Bytes :=
  if dataPrefixSize ≤ key.length then some (key.drop dataPrefixSize) else none

/-- `getDataMaxKey`: the prefix of group `group + 1`, which wraps at `2 ^ 64`. -/
def getDataMaxKey (group : UInt64) : Bytes :=
  dataPrefixKey ++ putUint64 (group + 1)

/-- `getDataEndKey`. -/
def getDataEndKey (group : UInt64) (endKey : Bytes) : Bytes :=
  if endKey.length = 0 then getDataMaxKey group else encodeDataKey group endKey

/-- `encStartKey`; a shard without peers is a `Fatalf`. -/
def encStartKey (shard : Shard) : Option Bytes :=
  if shard.peers.length = 0 then none else some (encodeDataKey shard.group shard.start)

/-- `encEndKey`; a shard without peers is a `Fatalf`. -/
def encEndKey (shard : Shard) : Option Bytes :=
  if shard.peers.length = 0 then none else some (getDataEndKey shard.group shard.end_)

@[simp] theorem length_dataPrefix_putUint64 (group : UInt64) :
    (dataPrefixKey ++ putUint64 group).length = dataPrefixSize := by
  simp [dataPrefixKey, dataPrefixSize]

theorem decodeDataKey_eq_some {key k : Bytes} :
    decodeDataKey key = some k ↔ dataPrefixSize ≤ key.length ∧ key.drop dataPrefixSize = k := by
  unfold decodeDataKey
  split_ifs with h <;> simp [h]

@[simp] theorem decodeDataKey_encodeDataKey (group : UInt64) (key : Bytes) :
    decodeDataKey (encodeDataKey group key) = some key := by
  rw [decodeDataKey_eq_some, encodeDataKey]
  constructor
  · simp [dataPrefixKey, dataPrefixSize]
  · rw [← length_dataPrefix_putUint64 group, List.drop_left]

theorem length_getDataMaxKey (group : UInt64) : (getDataMaxKey group).length = dataPrefixSize := by
  simp [getDataMaxKey, dataPrefixKey, dataPrefixSize]

/-- A key of at least prefix length, at or above a data key of group `g` and
below the first key of group `g + 1`, carries the prefix of group `g`: eight
big-endian bytes between those of `g` and `g + 1` are those of `g`, and when
`g + 1` wraps to zero no key lies between. -/
theorem take_eq_of_lt_getDataMaxKey {g : UInt64} {a c : Bytes} (hlen : dataPrefixSize ≤ c.length)
    (hlo : encodeDataKey g a ≤ c) (hhi : c < getDataMaxKey g) :
    c.take dataPrefixSize = dataPrefixKey ++ putUint64 g := by
  have h1 : dataPrefixKey ++ putUint64 g ≤ c.take dataPrefixSize := by
    have := take_le_take hlo dataPrefixSize
    rwa [encodeDataKey, List.append_assoc, ← length_dataPrefix_putUint64 g, ← List.append_assoc,
      List.take_left] at this
  have h2 : c.take dataPrefixSize < getDataMaxKey g := by
    have := take_lt_of_lt hhi
    rwa [length_getDataMaxKey] at this
  have htlen : (c.take dataPrefixSize).length = 1 + 8 := by
    simp only [List.length_take, dataPrefixSize, dataPrefixKey, List.length_singleton] at hlen ⊢
    omega
  -- split the cut key into its first byte and its eight group bytes
  obtain ⟨x, u, hxu⟩ : ∃ x u, c.take dataPrefixSize = x :: u := by
    cases h : c.take dataPrefixSize with
    | nil => simp [h] at htlen
    | cons x u => exact ⟨x, u, rfl⟩
  rw [hxu] at h1 h2 htlen ⊢
  simp only [dataPrefixKey, getDataMaxKey, List.cons_append, List.nil_append] at h1 h2 ⊢
  obtain ⟨rfl, hlo', hhi'⟩ := cons_between h1 h2
  rw [eq_putUint64_of_between (by simpa using htlen) hlo' hhi']

/-- A key strictly above the encoded start of a shard and below its encoded
end, of at least prefix length, is the encoding of a key past the start and
below the end. -/
theorem exists_decoded_of_between {g : UInt64} {start end_ c : Bytes}
    (hlen : dataPrefixSize ≤ c.length) (hlo : encodeDataKey g start < c)
    (hhi : c < getDataEndKey g end_) :
    c = encodeDataKey g (c.drop dataPrefixSize) ∧ start < c.drop dataPrefixSize ∧
      KeyRange.Below end_ (c.drop dataPrefixSize) := by
  have htake : c.take dataPrefixSize = dataPrefixKey ++ putUint64 g := by
    unfold getDataEndKey at hhi
    split_ifs at hhi with hend
    · exact take_eq_of_lt_getDataMaxKey hlen (le_of_lt hlo) hhi
    · have := take_eq_of_between (le_of_lt hlo) (le_of_lt hhi)
      rwa [length_dataPrefix_putUint64] at this
  have hc : c = encodeDataKey g (c.drop dataPrefixSize) := by
    rw [encodeDataKey, ← htake, List.take_append_drop]
  refine ⟨hc, ?_, ?_⟩
  · rwa [hc, encodeDataKey, encodeDataKey, append_lt_append_iff] at hlo
  · by_cases hend : end_.length = 0
    · exact .inl (List.eq_nil_of_length_eq_zero hend)
    · rw [getDataEndKey, if_neg hend, hc, encodeDataKey, encodeDataKey, append_lt_append_iff] at hhi
      exact .inr hhi

/-! ## Order and separation of encoded ranges -/

theorem encodeDataKey_lt_iff (group : UInt64) (a b : Bytes) :
    encodeDataKey group a < encodeDataKey group b ↔ a < b := by
  rw [encodeDataKey, encodeDataKey, append_lt_append_iff]

theorem encodeDataKey_le_iff (group : UInt64) (a b : Bytes) :
    encodeDataKey group a ≤ encodeDataKey group b ↔ a ≤ b := by
  rw [encodeDataKey, encodeDataKey, append_le_append_iff]

/-- A data key names its group and its key. -/
theorem encodeDataKey_inj {g g' : UInt64} {a b : Bytes} (h : encodeDataKey g a = encodeDataKey g' b) :
    g = g' ∧ a = b := by
  simp only [encodeDataKey, dataPrefixKey, List.cons_append, List.cons.injEq, true_and] at h
  obtain ⟨hg, hab⟩ := List.append_inj h (by simp)
  exact ⟨putUint64_inj hg, hab⟩

/-- Every data key of a group lies below the first key of the next group, when
that group number does not wrap. -/
theorem encodeDataKey_lt_getDataMaxKey {g : UInt64} (hg : g.toNat + 1 < 2 ^ 64) (k : Bytes) :
    encodeDataKey g k < getDataMaxKey g := by
  have hlt : g < g + 1 := by
    rw [UInt64.lt_iff_toNat_lt, UInt64.toNat_add, UInt64.toNat_one, Nat.mod_eq_of_lt hg]
    omega
  rw [encodeDataKey, getDataMaxKey, List.append_assoc, append_lt_append_iff,
    ← List.append_nil (putUint64 (g + 1))]
  exact append_lt_append_of_lt (by simp) (putUint64_lt_iff.mpr hlt) k []

/-- The end of a range of group `g` lies at or below every data key of a later group. -/
theorem getDataEndKey_le {g g' : UInt64} (h : g < g') (end_ k : Bytes) :
    getDataEndKey g end_ ≤ encodeDataKey g' k := by
  have hg : g.toNat + 1 < 2 ^ 64 := by
    have := g'.toNat_lt
    rw [UInt64.lt_iff_toNat_lt] at h
    omega
  have hmax : getDataMaxKey g ≤ encodeDataKey g' k := by
    have hle : g + 1 ≤ g' := by
      rw [UInt64.le_iff_toNat_le, UInt64.toNat_add, UInt64.toNat_one, Nat.mod_eq_of_lt hg]
      rw [UInt64.lt_iff_toNat_lt] at h
      omega
    rw [getDataMaxKey, encodeDataKey, List.append_assoc, append_le_append_iff]
    rcases Nat.lt_or_eq_of_le (UInt64.le_iff_toNat_le.mp hle) with hlt | heq
    · rw [← List.append_nil (putUint64 (g + 1))]
      exact le_of_lt (append_lt_append_of_lt (by simp) (putUint64_lt_iff.mpr (UInt64.lt_iff_toNat_lt.mpr hlt)) [] k)
    · rw [UInt64.toNat_inj.mp heq]
      exact (List.prefix_append _ _).le
  unfold getDataEndKey
  split_ifs
  · exact hmax
  · exact le_of_lt (lt_of_lt_of_le (encodeDataKey_lt_getDataMaxKey hg end_) hmax)

/-- A data key below the encoded end of a range holds a key below that end. -/
theorem below_of_lt_getDataEndKey {g : UInt64} {a end_ : Bytes} (h : encodeDataKey g a < getDataEndKey g end_) :
    KeyRange.Below end_ a := by
  by_cases hend : end_.length = 0
  · exact .inl (List.eq_nil_of_length_eq_zero hend)
  · rw [getDataEndKey, if_neg hend, encodeDataKey_lt_iff] at h
    exact .inr h

/-- The data key of a key of a shard lies in the shard's encoded range, when
the next group number does not wrap. -/
theorem encodeDataKey_mem_encRange {shard : Shard} {k : Bytes} (hpeers : shard.peers ≠ [])
    (hg : shard.group.toNat + 1 < 2 ^ 64) (hk : KeyRange.Contains shard.start shard.end_ k) :
    ∃ s e, encStartKey shard = some s ∧ encEndKey shard = some e ∧ s ≤ encodeDataKey shard.group k ∧
      encodeDataKey shard.group k < e := by
  have hlen : shard.peers.length ≠ 0 := by simpa using hpeers
  refine ⟨_, _, by rw [encStartKey, if_neg hlen], by rw [encEndKey, if_neg hlen],
    (encodeDataKey_le_iff _ _ _).mpr hk.1, ?_⟩
  unfold getDataEndKey
  split_ifs with hend
  · exact encodeDataKey_lt_getDataMaxKey hg k
  · rcases hk.2 with hnil | hlt
    · exact absurd (by simp [hnil]) hend
    · exact (encodeDataKey_lt_iff _ _ _).mpr hlt

/-- Of two disjoint ranges of one group, the one starting later has its
start in its own encoded range only if no key lies in both encoded ranges. -/
theorem encRange_disjoint_of_le {g : UInt64} {r₁ r₂ : Bytes × Bytes} (hd : KeyRange.Disjoint r₁ r₂)
    (hle : r₁.1 ≤ r₂.1) {c : Bytes} (h₁ : c < getDataEndKey g r₁.2) (h₂ : encodeDataKey g r₂.1 ≤ c)
    (h₂' : c < getDataEndKey g r₂.2) : False :=
  -- the later start lies in both ranges
  hd r₂.1 ⟨⟨hle, below_of_lt_getDataEndKey (lt_of_le_of_lt h₂ h₁)⟩,
    ⟨le_refl _, below_of_lt_getDataEndKey (lt_of_le_of_lt h₂ h₂')⟩⟩

/-- Shards of different groups, or of one group with disjoint ranges, have
disjoint encoded ranges. -/
theorem encRange_disjoint {s₁ s₂ : Shard} (hsep : s₁.group ≠ s₂.group ∨ KeyRange.Disjoint s₁.range s₂.range)
    (c : Bytes) :
    ¬ (encodeDataKey s₁.group s₁.start ≤ c ∧ c < getDataEndKey s₁.group s₁.end_ ∧
      encodeDataKey s₂.group s₂.start ≤ c ∧ c < getDataEndKey s₂.group s₂.end_) := by
  rintro ⟨h₁, h₁', h₂, h₂'⟩
  by_cases hg : s₁.group = s₂.group
  · have hd : KeyRange.Disjoint s₁.range s₂.range := hsep.resolve_left (not_not.mpr hg)
    rw [hg] at h₁ h₁'
    rcases le_total s₁.start s₂.start with hle | hle
    · exact encRange_disjoint_of_le hd hle h₁' h₂ h₂'
    · exact encRange_disjoint_of_le hd.symm hle h₂' h₁ h₁'
  · -- the range of the lower group ends before the higher group starts
    rcases Nat.lt_or_gt_of_ne (fun h => hg (UInt64.toNat_inj.mp h)) with hlt | hlt
    · replace hlt := UInt64.lt_iff_toNat_lt.mpr hlt
      exact absurd (lt_of_lt_of_le h₁' (le_trans (getDataEndKey_le hlt _ _) h₂)) (lt_irrefl c)
    · replace hlt := UInt64.lt_iff_toNat_lt.mpr hlt
      exact absurd (lt_of_lt_of_le h₂' (le_trans (getDataEndKey_le hlt _ _) h₁)) (lt_irrefl c)

/-- Data keys decode to their key and sort as their keys within a group; the
data keys of a shard's keys lie in its encoded range, for every group whose
successor does not wrap; and the encoded ranges of shards of different groups,
or of disjoint shards of one group, share no key. -/
theorem dataKey_encoding_separates_shards :
    (∀ g a, decodeDataKey (encodeDataKey g a) = some a) ∧
    (∀ g a b, encodeDataKey g a < encodeDataKey g b ↔ a < b) ∧
    (∀ (shard : Shard) (k : Bytes), shard.peers ≠ [] → shard.group.toNat + 1 < 2 ^ 64 →
      KeyRange.Contains shard.start shard.end_ k →
      ∃ s e, encStartKey shard = some s ∧ encEndKey shard = some e ∧ s ≤ encodeDataKey shard.group k ∧
        encodeDataKey shard.group k < e) ∧
    (∀ (s₁ s₂ : Shard) (a₁ e₁ a₂ e₂ : Bytes), encStartKey s₁ = some a₁ → encEndKey s₁ = some e₁ →
      encStartKey s₂ = some a₂ → encEndKey s₂ = some e₂ →
      (s₁.group ≠ s₂.group ∨ KeyRange.Disjoint s₁.range s₂.range) →
      ∀ c, ¬ (a₁ ≤ c ∧ c < e₁ ∧ a₂ ≤ c ∧ c < e₂)) := by
  refine ⟨decodeDataKey_encodeDataKey, encodeDataKey_lt_iff, fun _ _ hp hg hk => encodeDataKey_mem_encRange hp hg hk,
    fun s₁ s₂ a₁ e₁ a₂ e₂ ha₁ he₁ ha₂ he₂ hsep c => ?_⟩
  -- both shards are initialized, so their encoded bounds are the plain ones
  unfold encStartKey at ha₁ ha₂
  unfold encEndKey at he₁ he₂
  split_ifs at ha₁ ha₂ he₁ he₂
  cases ha₁; cases ha₂; cases he₁; cases he₂
  exact encRange_disjoint hsep c

/-- A shard of group one with the key range `["a", +∞)`. -/
def groupOneShard : Shard := { start := [97], peers := [{}], group := 1 }

theorem dataKey_encoding_separates_shards_group_one :
    (groupOneShard.peers ≠ [] ∧ groupOneShard.group.toNat + 1 < 2 ^ 64 ∧
      KeyRange.Contains groupOneShard.start groupOneShard.end_ [98]) ∧
    ∃ s e, encStartKey groupOneShard = some s ∧ encEndKey groupOneShard = some e ∧
      s ≤ encodeDataKey 1 [98] ∧ encodeDataKey 1 [98] < e := by
  have hpre : groupOneShard.peers ≠ [] ∧ groupOneShard.group.toNat + 1 < 2 ^ 64 ∧
      KeyRange.Contains groupOneShard.start groupOneShard.end_ [98] := by decide
  exact ⟨hpre, dataKey_encoding_separates_shards.2.2.1 groupOneShard [98] hpre.1 hpre.2.1 hpre.2.2⟩

/-- The last group's shard `[[], +∞)`: its encoded end wraps to the first key
of group zero, below the data key of its own start. -/
def lastGroupShard : Shard := { peers := [{}], group := 18446744073709551615 }

theorem encEndKey_last_group_wraps :
    KeyRange.Contains lastGroupShard.start lastGroupShard.end_ [] ∧
      encEndKey lastGroupShard = some [122, 0, 0, 0, 0, 0, 0, 0, 0] ∧
      encodeDataKey lastGroupShard.group [] = [122, 255, 255, 255, 255, 255, 255, 255, 255] ∧
      ¬ encodeDataKey lastGroupShard.group [] < [122, 0, 0, 0, 0, 0, 0, 0, 0] := by
  decide

end MatrixCube.Raftstore
