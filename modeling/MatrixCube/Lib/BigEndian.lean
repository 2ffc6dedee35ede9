import MatrixCube.Lib.ByteOrder

/-! # Fixed-width big-endian integers

`binary.BigEndian` writes an integer as a fixed number of bytes, most
significant first. Within one width the encoding is a bijection onto the byte
strings of that length that preserves order, which is what makes integer keys
sort numerically in a byte-ordered store, and the windows
`[p ++ enc s, p ++ enc (s + 1))` of distinct `s` disjoint. A `uint64` written
as an `int64` through arithmetic shifts gives the same bytes.
-/

namespace BigEndian

open ByteOrder

/-- `n` as `width` bytes, most significant first (`n` taken mod `256 ^ width`). -/
def bytesOfNat : Nat → Nat → Bytes
  | 0, _ => []
  | width + 1, n => UInt8.ofNat (n / 256 ^ width) :: bytesOfNat width (n % 256 ^ width)

/-- The number a big-endian byte string denotes. -/
def natOfBytes : Bytes → Nat
  | [] => 0
  | b :: bs => b.toNat * 256 ^ bs.length + natOfBytes bs

/-- `binary.BigEndian.PutUint64`. -/
def putUint64 (v : UInt64) : Bytes := bytesOfNat 8 v.toNat

/-- `binary.BigEndian.Uint64` of an eight-byte string. -/
def uint64 (b : Bytes) : UInt64 := UInt64.ofNat (natOfBytes b)

/-- Go's conversion `int64(v)` of a `uint64`: the same 64 bits read in two's
complement. -/
def toInt64 (v : UInt64) : Int := if v.toNat < 2 ^ 63 then v.toNat else v.toNat - 2 ^ 64

/-- `Int64ToBytesTo` of goetty's buffers, behind `WriteInt64`: `byte(v >> s)`
for `s = 56, 48, …, 0`, with `>>` the arithmetic shift of an `int64`. -/
def int64ToBytes (v : Int) : Bytes :=
  [56, 48, 40, 32, 24, 16, 8, 0].map fun (s : Nat) => UInt8.ofNat ((v >>> s) % 256).toNat

@[simp] theorem length_bytesOfNat (width n : Nat) : (bytesOfNat width n).length = width := by
  induction width generalizing n with
  | zero => rfl
  | succ width ih => simp [bytesOfNat, ih]

@[simp] theorem length_putUint64 (v : UInt64) : (putUint64 v).length = 8 := by
  simp [putUint64]

theorem natOfBytes_lt (bs : Bytes) : natOfBytes bs < 256 ^ bs.length := by
  induction bs with
  | nil => simp [natOfBytes]
  | cons b bs ih =>
      have hb : b.toNat < 256 := b.toNat_lt
      have hstep : b.toNat * 256 ^ bs.length + natOfBytes bs < (b.toNat + 1) * 256 ^ bs.length := by
        rw [Nat.succ_mul]
        omega
      calc natOfBytes (b :: bs) < (b.toNat + 1) * 256 ^ bs.length := hstep
        _ ≤ 256 * 256 ^ bs.length := Nat.mul_le_mul_right _ hb
        _ = 256 ^ (b :: bs).length := by simp [pow_succ, Nat.mul_comm]

private theorem div_lt_of_lt_pow {n width : Nat} (h : n < 256 ^ (width + 1)) :
    n / 256 ^ width < 256 := by
  rw [Nat.div_lt_iff_lt_mul (by positivity)]
  simpa [pow_succ, Nat.mul_comm] using h

theorem natOfBytes_bytesOfNat {width n : Nat} (h : n < 256 ^ width) :
    natOfBytes (bytesOfNat width n) = n := by
  induction width generalizing n with
  | zero => simp_all [bytesOfNat, natOfBytes]
  | succ width ih =>
      have hdiv := div_lt_of_lt_pow h
      have hmod : n % 256 ^ width < 256 ^ width := Nat.mod_lt _ (by positivity)
      simp only [bytesOfNat, natOfBytes, length_bytesOfNat, ih hmod,
        UInt8.toNat_ofNat_of_lt' hdiv]
      exact Nat.div_add_mod' n (256 ^ width)

theorem bytesOfNat_natOfBytes (bs : Bytes) : bytesOfNat bs.length (natOfBytes bs) = bs := by
  induction bs with
  | nil => rfl
  | cons b bs ih =>
      have hlt := natOfBytes_lt bs
      have hdiv : (b.toNat * 256 ^ bs.length + natOfBytes bs) / 256 ^ bs.length = b.toNat := by
        rw [Nat.add_comm, Nat.add_mul_div_right _ _ (by positivity), Nat.div_eq_of_lt hlt,
          Nat.zero_add]
      have hmod : (b.toNat * 256 ^ bs.length + natOfBytes bs) % 256 ^ bs.length = natOfBytes bs := by
        rw [Nat.add_comm, Nat.add_mul_mod_self_right, Nat.mod_eq_of_lt hlt]
      simp [bytesOfNat, natOfBytes, hdiv, hmod, ih]

/-- Within one width the encoding is strictly monotone. -/
theorem bytesOfNat_lt_iff {width n m : Nat} (hn : n < 256 ^ width) (hm : m < 256 ^ width) :
    bytesOfNat width n < bytesOfNat width m ↔ n < m := by
  induction width generalizing n m with
  | zero => simp_all
  | succ width ih =>
      have hdn := div_lt_of_lt_pow hn
      have hdm := div_lt_of_lt_pow hm
      have hpos : 0 < 256 ^ width := by positivity
      simp only [bytesOfNat, List.cons_lt_cons_iff, UInt8.lt_iff_toNat_lt,
        UInt8.toNat_ofNat_of_lt' hdn, UInt8.toNat_ofNat_of_lt' hdm,
        ih (Nat.mod_lt n hpos) (Nat.mod_lt m hpos)]
      constructor
      · rintro (h | ⟨h, hmod⟩)
        · exact Nat.lt_of_div_lt_div h
        · have heq : n / 256 ^ width = m / 256 ^ width := by
            have := congrArg UInt8.toNat h
            rwa [UInt8.toNat_ofNat_of_lt' hdn, UInt8.toNat_ofNat_of_lt' hdm] at this
          rw [← Nat.div_add_mod n (256 ^ width), ← Nat.div_add_mod m (256 ^ width), heq]
          omega
      · intro h
        rcases Nat.lt_or_ge (n / 256 ^ width) (m / 256 ^ width) with hd | hd
        · exact .inl hd
        · have hd' : n / 256 ^ width = m / 256 ^ width :=
            le_antisymm (Nat.div_le_div_right (le_of_lt h)) hd
          refine .inr ⟨by rw [hd'], ?_⟩
          rw [← Nat.div_add_mod n (256 ^ width), ← Nat.div_add_mod m (256 ^ width), hd'] at h
          omega

/-- `PutUint64` orders as the numbers it writes. -/
theorem putUint64_lt_iff {a b : UInt64} : putUint64 a < putUint64 b ↔ a < b := by
  rw [putUint64, putUint64, bytesOfNat_lt_iff a.toNat_lt b.toNat_lt, UInt64.lt_iff_toNat_lt]

theorem putUint64_inj {a b : UInt64} (h : putUint64 a = putUint64 b) : a = b := by
  have := congrArg natOfBytes h
  rw [putUint64, putUint64, natOfBytes_bytesOfNat a.toNat_lt, natOfBytes_bytesOfNat b.toNat_lt] at this
  exact UInt64.toNat_inj.mp this

/-- Eight bytes between the encodings of `g` and `g + 1` are those of `g`;
when `g + 1` wraps to zero, nothing lies below its encoding. -/
theorem eq_putUint64_of_between {g : UInt64} {u : Bytes} (hulen : u.length = 8)
    (hlo : putUint64 g ≤ u) (hhi : u < putUint64 (g + 1)) : u = putUint64 g := by
  -- compare the bytes as numbers below 2 ^ 64
  have hu : bytesOfNat 8 (natOfBytes u) = u := by
    rw [← hulen, bytesOfNat_natOfBytes]
  have hn : natOfBytes u < 256 ^ 8 := hulen ▸ natOfBytes_lt u
  have hg : g.toNat < 256 ^ 8 := g.toNat_lt
  have hle : g.toNat ≤ natOfBytes u := by
    by_contra h
    have hlt := (bytesOfNat_lt_iff hn hg).mpr (not_le.mp h)
    rw [hu] at hlt
    exact absurd hlo (not_le.mpr hlt)
  have hlt : natOfBytes u < (g + 1).toNat := by
    rw [putUint64, ← hu] at hhi
    exact (bytesOfNat_lt_iff hn (g + 1).toNat_lt).mp hhi
  have heq : natOfBytes u = g.toNat := by
    rw [UInt64.toNat_add, UInt64.toNat_one] at hlt
    have hbound : g.toNat + 1 < 2 ^ 64 ∨ g.toNat + 1 = 2 ^ 64 := by
      have := g.toNat_lt
      omega
    rcases hbound with h | h
    · rw [Nat.mod_eq_of_lt h] at hlt
      omega
    · -- `g + 1` wraps to zero
      rw [h, Nat.mod_self] at hlt
      omega
  rw [← hu, heq]
  rfl

/-! ## `int64` writes -/

theorem ofNat_mod_size (n : Nat) : UInt8.ofNat (n % 256) = UInt8.ofNat n := by
  apply UInt8.toNat.inj
  simp

theorem bytesOfNat_eq_map (n : Nat) : ∀ width, bytesOfNat width n = ((List.range width).reverse.map fun i => UInt8.ofNat (n / 256 ^ i)) := by
  intro width
  induction width generalizing n with
  | zero => rfl
  | succ width ih =>
    rw [bytesOfNat, ih, List.range_succ, List.reverse_append, List.reverse_singleton, List.singleton_append, List.map_cons]
    congr 1
    apply List.map_congr_left
    intro i hi
    have hi : i < width := by simpa using hi
    -- the bytes below `256 ^ width` do not see the cut
    have hsplit : 256 ^ width = 256 ^ i * 256 ^ (width - i) := by rw [← pow_add]; congr 1; omega
    have hdvd : 256 ∣ 256 ^ (width - i) := dvd_pow_self 256 (by omega)
    rw [hsplit, Nat.mod_mul_right_div_self, ← ofNat_mod_size, Nat.mod_mod_of_dvd _ hdvd, ofNat_mod_size]

theorem shiftRight_emod (n : Nat) (c : Int) {k : Nat} (hk : k + 8 ≤ 64) :
    ((n - c * 2 ^ 64 : Int) >>> k) % 256 = ((n / 2 ^ k % 256 : Nat) : Int) := by
  -- `2 ^ 64` is a multiple of `256 * 2 ^ k`, so the high bits drop out
  have h64 : (2 : Int) ^ 64 = 2 ^ (64 - k - 8) * 256 * 2 ^ k := by
    rw [show (256 : Int) = 2 ^ 8 by norm_num, ← pow_add, ← pow_add]
    congr 1
    omega
  have hsplit : (n - c * 2 ^ 64 : Int) = n + (-(c * 2 ^ (64 - k - 8))) * 256 * 2 ^ k := by
    rw [h64]
    ring
  rw [Int.shiftRight_eq_div_pow, Nat.cast_pow, Nat.cast_ofNat, hsplit, Int.add_mul_ediv_right _ _ (by positivity), Int.add_mul_emod_self_right]
  push_cast
  rfl

theorem byte_toInt64 (v : UInt64) {i : Nat} (hi : i < 8) :
    UInt8.ofNat ((toInt64 v >>> (8 * i)) % 256).toNat = UInt8.ofNat (v.toNat / 256 ^ i) := by
  have hv : toInt64 v = v.toNat - (if v.toNat < 2 ^ 63 then 0 else 1) * 2 ^ 64 := by
    unfold toInt64
    split_ifs <;> simp
  have hpow : (2 : Nat) ^ (8 * i) = 256 ^ i := by rw [pow_mul]; norm_num
  rw [hv, shiftRight_emod _ _ (by omega), Int.toNat_natCast, ofNat_mod_size, hpow]

/-- Writing `int64(v)` writes the bytes of `v`. -/
theorem int64ToBytes_toInt64 (v : UInt64) : int64ToBytes (toInt64 v) = putUint64 v := by
  have hshifts : ([56, 48, 40, 32, 24, 16, 8, 0] : List Nat) = (List.range 8).reverse.map (8 * ·) := rfl
  rw [putUint64, bytesOfNat_eq_map, int64ToBytes, hshifts, List.map_map]
  apply List.map_congr_left
  intro i hi
  exact byte_toInt64 v (by simpa using hi)

/-- Keys `p ++ putUint64 g' ++ t` lie in the window from `p ++ putUint64 g`
to `p ++ putUint64 (g + 1)` exactly when `g' = g`, when `g + 1` does not wrap. -/
theorem mem_window_iff {p t : Bytes} {g g' : UInt64} (hg : g.toNat + 1 < 2 ^ 64) :
    (p ++ putUint64 g ≤ p ++ putUint64 g' ++ t ∧ p ++ putUint64 g' ++ t < p ++ putUint64 (g + 1)) ↔ g' = g := by
  have hsucc : g < g + 1 := by
    rw [UInt64.lt_iff_toNat_lt, UInt64.toNat_add, UInt64.toNat_one, Nat.mod_eq_of_lt hg]
    omega
  constructor
  · rintro ⟨hlo, hhi⟩
    rcases Nat.lt_trichotomy g'.toNat g.toNat with hlt | heq | hgt
    · -- below the window
      have := append_lt_append_of_lt (by simp) (putUint64_lt_iff.mpr (UInt64.lt_iff_toNat_lt.mpr hlt)) t []
      rw [List.append_nil, ← append_lt_append_iff p, ← List.append_assoc] at this
      exact absurd hlo (not_le.mpr this)
    · exact UInt64.toNat_inj.mp heq
    · -- at or above the next window
      have hle : g + 1 ≤ g' := by
        rw [UInt64.le_iff_toNat_le, UInt64.toNat_add, UInt64.toNat_one, Nat.mod_eq_of_lt hg]
        omega
      have : p ++ putUint64 (g + 1) ≤ p ++ putUint64 g' ++ t := by
        rw [List.append_assoc, append_le_append_iff]
        rcases UInt64.lt_or_eq_of_le hle with h | h
        · exact le_of_lt (by simpa using append_lt_append_of_lt (by simp) (putUint64_lt_iff.mpr h) [] t)
        · rw [h]
          exact List.IsPrefix.le (List.prefix_append _ _)
      exact absurd hhi (not_lt.mpr this)
  · rintro rfl
    refine ⟨List.IsPrefix.le (List.prefix_append _ _), ?_⟩
    rw [List.append_assoc, append_lt_append_iff]
    simpa using append_lt_append_of_lt (by simp) (putUint64_lt_iff.mpr hsucc) t []

/-- The end of the window of `a` is at most the start of the window of a
larger `b`: `a + 1` does not wrap below `b`. -/
theorem window_end_le {p : Bytes} {a b : UInt64} (hab : a < b) :
    p ++ putUint64 (a + 1) ≤ p ++ putUint64 b := by
  have hlt := UInt64.lt_iff_toNat_lt.mp hab
  have hb := b.toNat_lt
  have hle : a + 1 ≤ b := by
    rw [UInt64.le_iff_toNat_le, UInt64.toNat_add, UInt64.toNat_one, Nat.mod_eq_of_lt (by omega)]
    omega
  rw [append_le_append_iff, ← not_lt, putUint64_lt_iff]
  intro hgt
  rw [UInt64.lt_iff_toNat_lt] at hgt
  rw [UInt64.le_iff_toNat_le] at hle
  omega

/-- The windows of two distinct `uint64`s under one prefix share no key. -/
theorem windows_disjoint {p k : Bytes} {s s' : UInt64} (hne : s ≠ s')
    (h : p ++ putUint64 s ≤ k ∧ k < p ++ putUint64 (s + 1))
    (h' : p ++ putUint64 s' ≤ k ∧ k < p ++ putUint64 (s' + 1)) : False := by
  rcases Nat.lt_or_gt_of_ne (UInt64.toNat_inj.not.mpr hne) with hlt | hlt
  · exact lt_irrefl k (h.2.trans_le ((window_end_le (UInt64.lt_iff_toNat_lt.mpr hlt)).trans h'.1))
  · exact lt_irrefl k (h'.2.trans_le ((window_end_le (UInt64.lt_iff_toNat_lt.mpr hlt)).trans h.1))

end BigEndian
