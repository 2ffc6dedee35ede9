import Mathlib

/-! # Binary64 arithmetic on rationals

A finite IEEE 754 binary64 value is a rational number, and a correctly
rounded operation is the exact operation followed by rounding to the nearest
value with a 53-bit significand, ties to even. Here the exponent is
unbounded: a computation whose values stay in the normal range of the format
rounds as this model rounds, and zero is exact. Infinities, NaNs and
subnormals are outside the model, so a division is only taken by a non-zero
divisor.

Every definition is executable on `ℚ`, so facts about finitely many rounded
values are decided by the kernel; what holds of every value (rounding stays
below the double of a positive value) is proved from the unit in the last
place.
-/

namespace Binary64

/-- Bits of significand, the hidden bit included. -/
def precision : Nat := 53

/-- Round half to even of a rational to an integer. -/
def roundHalfEven (x : ℚ) : Int :=
  let m := x.floor
  if x - m < 1 / 2 then m
  else if 1 / 2 < x - m then m + 1
  else if m % 2 = 0 then m else m + 1

/-- The exponent `e` of the unit in the last place of a positive `q`, so that
`2 ^ (precision - 1) ≤ q / 2 ^ e < 2 ^ precision`: the estimate from the
binary logarithms of numerator and denominator is exact or one too high. -/
def ulpExponent (q : ℚ) : Int :=
  let e : Int := (Nat.log2 q.num.natAbs : Int) - Nat.log2 q.den - (precision - 1 : Nat)
  if q / 2 ^ e < 2 ^ (precision - 1) then e - 1 else e

/-- The binary64 value nearest to `q`, ties to even. -/
def round (q : ℚ) : ℚ :=
  if q = 0 then 0
  else
    let e := ulpExponent |q|
    (roundHalfEven (q / 2 ^ e) : ℚ) * 2 ^ e

/-- Float64 `+`. -/
def add (a b : ℚ) : ℚ := round (a + b)

/-- Float64 `-`. -/
def sub (a b : ℚ) : ℚ := round (a - b)

/-- Float64 `/`, for a non-zero divisor. -/
def div (a b : ℚ) : ℚ := round (a / b)

/-- Float64 `*`. -/
def mul (a b : ℚ) : ℚ := round (a * b)

/-- The conversion of a float64 to an integer type, which truncates toward zero. -/
def toInt (q : ℚ) : Int := if 0 ≤ q then ⌊q⌋ else ⌈q⌉

-- the float64 nearest to one tenth, and `0.1 + 0.2 != 0.3`
example : round (1 / 10) = 3602879701896397 / 36028797018963968 := by decide +kernel

example : add (round (1 / 10)) (round (2 / 10)) ≠ round (3 / 10) := by decide +kernel

/-! ## Bounds on rounding

Rounding moves a value by less than the unit in its last place, and that unit
is below the value itself: a positive value rounds to less than its double,
and a value that is not positive stays so. -/

theorem roundHalfEven_le (x : ℚ) : (roundHalfEven x : ℚ) ≤ ⌊x⌋ + 1 := by
  unfold roundHalfEven
  rw [show x.floor = ⌊x⌋ from rfl]
  dsimp only
  split_ifs <;> push_cast <;> linarith

/-- The unit of the last place of a positive value is below the value. -/
theorem zpow_ulpExponent_lt {q : ℚ} (hq : 0 < q) : (2 : ℚ) ^ ulpExponent q < q := by
  set a := Nat.log2 q.num.natAbs
  set b := Nat.log2 q.den
  have hnum : 0 < q.num := Rat.num_pos.mpr hq
  -- the estimate `a - b - 52` bounds the exponent from above, and `q > 2 ^ (a - b - 1)`
  have he : ulpExponent q ≤ (a : Int) - b - 52 := by
    unfold ulpExponent precision
    dsimp only
    split_ifs <;> omega
  have ha : (2 : ℚ) ^ a ≤ q.num := by
    have h := Nat.log2_self_le (Int.natAbs_ne_zero.mpr hnum.ne')
    have hcast : ((q.num.natAbs : Int) : ℚ) = q.num := by rw [Int.natAbs_of_nonneg hnum.le]
    rw [← hcast]
    exact_mod_cast h
  have hb : (q.den : ℚ) < 2 ^ (b + 1) := by exact_mod_cast Nat.lt_log2_self
  have hden : (0 : ℚ) < q.den := by exact_mod_cast q.den_pos
  calc (2 : ℚ) ^ ulpExponent q
      ≤ 2 ^ ((a : Int) - (b + 1 : Nat)) := zpow_le_zpow_right₀ one_le_two (by omega)
    _ = 2 ^ a / 2 ^ (b + 1) := by rw [zpow_sub₀ two_ne_zero, zpow_natCast, zpow_natCast]
    _ ≤ q.num / 2 ^ (b + 1) := by gcongr
    _ < q.num / q.den := by gcongr
    _ = q := Rat.num_div_den q

/-- A positive value rounds to less than its double. -/
theorem round_lt_two_mul {q : ℚ} (hq : 0 < q) : round q < 2 * q := by
  have hpow := zpow_ulpExponent_lt hq
  have hp : (0 : ℚ) < 2 ^ ulpExponent q := zpow_pos two_pos _
  have hfloor : (⌊q / 2 ^ ulpExponent q⌋ : ℚ) ≤ q / 2 ^ ulpExponent q := Int.floor_le _
  rw [round, if_neg hq.ne', abs_of_pos hq]
  calc (roundHalfEven (q / 2 ^ ulpExponent q) : ℚ) * 2 ^ ulpExponent q
      ≤ (q / 2 ^ ulpExponent q + 1) * 2 ^ ulpExponent q := by
        gcongr; linarith [roundHalfEven_le (q / 2 ^ ulpExponent q)]
    _ = q + 2 ^ ulpExponent q := by field_simp
    _ < 2 * q := by linarith

/-- A value that is not positive does not round to a positive one. -/
theorem round_nonpos {q : ℚ} (hq : q ≤ 0) : round q ≤ 0 := by
  rcases hq.lt_or_eq with hq | rfl
  · have hp : (0 : ℚ) < 2 ^ ulpExponent |q| := zpow_pos two_pos _
    have hneg : q / 2 ^ ulpExponent |q| < 0 := div_neg_of_neg_of_pos hq hp
    have hfloor : ⌊q / 2 ^ ulpExponent |q|⌋ < 0 := Int.floor_lt.mpr (by exact_mod_cast hneg)
    rw [round, if_neg hq.ne]
    have hr : (roundHalfEven (q / 2 ^ ulpExponent |q|) : ℚ) ≤ 0 := by
      have := roundHalfEven_le (q / 2 ^ ulpExponent |q|)
      have h1 : (⌊q / 2 ^ ulpExponent |q|⌋ : ℚ) ≤ -1 := by exact_mod_cast Int.le_sub_one_of_lt hfloor
      linarith
    exact mul_nonpos_of_nonpos_of_nonneg hr hp.le
  · simp [round]

/-- A value whose double is at most a positive `x` rounds to below `x`. -/
theorem round_lt_of_two_mul_le {q x : ℚ} (hx : 0 < x) (h : 2 * q ≤ x) : round q < x := by
  rcases lt_or_ge 0 q with hq | hq
  · exact (round_lt_two_mul hq).trans_le h
  · exact (round_nonpos hq).trans_lt hx

theorem toInt_lt {q : ℚ} {n : Int} (hn : 0 < n) (h : q < n) : toInt q < n := by
  unfold toInt
  split_ifs with hq
  · exact Int.floor_lt.mpr h
  · have : ⌈q⌉ ≤ 0 := Int.ceil_le.mpr (by push_cast; linarith)
    omega

end Binary64
