import PackedRecord.Proofs.Floats
import PackedRecord.Proofs.NearestValues

/-!
# Rounding by the exponent field

Rounding a 64-bit magnitude to 16 bits needs no quotient: what the exponent
field says is how many low bits of the significand are cut off, and the bits
cut off say whether to add one (`Double.addRest`). Where the result is normal
these are always 42, and the two exponent fields differ by a constant; below,
they get more with every binade, until nothing is left. `nearest_of_wide` and
`nearest_of_narrow` are the two cases for any pair of formats, and
`convert_half_eq` puts the four ranges of the exponent together. So the whole
conversion is one of fields (`toHalf_eq_halfByExponent`).
-/

namespace PackedRecord

namespace Interchange

variable {f : Interchange} {full e d k : Nat}

/-! ## Common factors -/

theorem roundDiv_mul_right (num den : Nat) {c : Nat} (hc : 0 < c) :
    roundDiv (num * c) (den * c) = roundDiv num den := by
  have htwice : 2 * (num % den * c) = 2 * (num % den) * c := (Nat.mul_assoc ..).symm
  simp only [roundDiv, Nat.mul_div_mul_right _ _ hc, Nat.mul_mod_mul_right, htwice,
    Nat.mul_lt_mul_right hc]

theorem nearest_mul_right (num den : Nat) {c : Nat} (hc : 0 < c) :
    f.nearest (num * c) (den * c) = f.nearest num den := by
  rw [nearest_of_shift rfl, nearest_of_shift rfl, Nat.mul_div_mul_right _ _ hc,
    Nat.mul_right_comm den c, roundDiv_mul_right _ _ hc]

/-! ## Significands -/

/-- A significand with `d` bits to spare that the exponent puts into the normal
range loses just these. -/
theorem nearest_of_wide (hlow : 2 ^ (f.fractionBits + d) ≤ full)
    (hhigh : full < 2 ^ (f.fractionBits + d + 1)) (h : k ≤ e + d) :
    f.nearest (full * 2 ^ e) (2 ^ k)
      = min ((e + d - k) * f.binade + roundDiv full (2 ^ d)) f.infinity := by
  obtain ⟨s, hs⟩ := Nat.exists_eq_add_of_le h
  have hpos := Nat.two_pow_pos k
  have hlog : (full * 2 ^ e / 2 ^ k).log2 = f.fractionBits + s := by
    have hle : 2 ^ (f.fractionBits + s) ≤ full * 2 ^ e / 2 ^ k := by
      rw [Nat.le_div_iff_mul_le hpos, ← Nat.pow_add,
        show f.fractionBits + s + k = f.fractionBits + d + e by omega, Nat.pow_add]
      exact Nat.mul_le_mul_right _ hlow
    have hlt : full * 2 ^ e / 2 ^ k < 2 ^ (f.fractionBits + s + 1) := by
      rw [Nat.div_lt_iff_lt_mul hpos, ← Nat.pow_add,
        show f.fractionBits + s + 1 + k = f.fractionBits + d + 1 + e by omega, Nat.pow_add]
      exact Nat.mul_lt_mul_of_pos_right hhigh (Nat.two_pow_pos e)
    have hne : full * 2 ^ e / 2 ^ k ≠ 0 := Nat.ne_of_gt ((Nat.two_pow_pos _).trans_le hle)
    exact (Nat.log2_eq_iff hne).mpr ⟨hle, hlt⟩
  have hweight : 2 ^ k * 2 ^ s = 2 ^ d * 2 ^ e := by
    rw [← Nat.pow_add, ← Nat.pow_add, ← hs, Nat.add_comm]
  rw [nearest_of_shift (by rw [hlog, Nat.add_sub_cancel_left]), hweight,
    roundDiv_mul_right _ _ (Nat.two_pow_pos e), show e + d - k = s by omega]

/-- One that the exponent puts below the normal range loses more. -/
theorem nearest_of_narrow (hhigh : full < 2 ^ (f.fractionBits + d + 1)) (h : e + d < k) :
    f.nearest (full * 2 ^ e) (2 ^ k) = min (roundDiv full (2 ^ (k - e))) f.infinity := by
  have hlt : full * 2 ^ e / 2 ^ k < 2 ^ f.fractionBits := by
    rw [Nat.div_lt_iff_lt_mul (Nat.two_pow_pos k), ← Nat.pow_add]
    refine (Nat.mul_lt_mul_of_pos_right hhigh (Nat.two_pow_pos e)).trans_le ?_
    rw [← Nat.pow_add]
    exact Nat.pow_le_pow_right (by decide) (by omega)
  have hlog : (full * 2 ^ e / 2 ^ k).log2 - f.fractionBits = 0 := by
    by_cases hzero : full * 2 ^ e / 2 ^ k = 0
    · rw [hzero]
      exact Nat.zero_sub _
    · have := (Nat.log2_lt hzero).mpr hlt
      omega
  have hweight : 2 ^ k * 2 ^ 0 = 2 ^ (k - e) * 2 ^ e := by
    rw [← Nat.pow_add, ← Nat.pow_add, Nat.sub_add_cancel (by omega), Nat.add_zero]
  rw [nearest_of_shift hlog, hweight, roundDiv_mul_right _ _ (Nat.two_pow_pos e), Nat.zero_mul,
    Nat.zero_add]

end Interchange

namespace Double
open Interchange

/-! ## The ranges of the exponent -/

/-- Adds one if the `shift` low bits of `source` are more than half of a step,
or half of one and the number is odd. -/
def addRest (truncated source shift : Nat) : Nat :=
  let rest := source % 2 ^ shift
  let halfway := 2 ^ (shift - 1)
  if halfway < rest || (rest = halfway && truncated % 2 = 1) then truncated + 1 else truncated

/-- The 16-bit magnitude of a 64-bit one that is no NaN, by its exponent field. -/
def halfByExponent (pattern : Nat) : Nat :=
  let exponent := double.magnitude pattern / double.binade
  let fraction := double.fraction pattern
  if 1038 < exponent then half.infinity
  else if 1009 ≤ exponent then addRest ((exponent - 1008) * 2 ^ 10 + fraction / 2 ^ 42) fraction 42
  else if exponent < 998 then 0
  else addRest ((2 ^ 52 + fraction) / 2 ^ (1051 - exponent)) (2 ^ 52 + fraction) (1051 - exponent)

/-- Adding for the rest is rounding; an even number may stand before the quotient. -/
theorem addRest_eq {truncated source shift base : Nat} (hshift : 0 < shift)
    (hbase : base % 2 = 0) (h : truncated = base + source / 2 ^ shift) :
    addRest truncated source shift = base + roundDiv source (2 ^ shift) := by
  obtain ⟨s, rfl⟩ := Nat.exists_eq_add_one_of_ne_zero (Nat.ne_of_gt hshift)
  have hstep : (2 : Nat) ^ (s + 1) = 2 * 2 ^ s := Nat.pow_succ'
  have hmod := Nat.mod_lt source (Nat.two_pow_pos (s + 1))
  simp only [addRest, roundDiv, Nat.add_sub_cancel, Bool.or_eq_true, Bool.and_eq_true,
    decide_eq_true_eq]
  rw [h]
  repeat' split
  all_goals omega

/-- Less than half of a step is nothing. -/
theorem roundDiv_eq_zero {num den : Nat} (h : 2 * num < den) : roundDiv num den = 0 := by
  have hlt : num < den := by omega
  simp only [roundDiv, Nat.div_eq_of_lt hlt, Nat.mod_eq_of_lt hlt]
  rw [if_pos h]

theorem roundDiv_add_mul {c : Nat} (hc : c % 2 = 0) (num : Nat) {den : Nat} (hden : 0 < den) :
    roundDiv (c * den + num) den = c + roundDiv num den := by
  have hquotient : (c * den + num) / den = c + num / den := by
    rw [Nat.mul_comm, Nat.mul_add_div hden]
  have hrest : (c * den + num) % den = num % den := by
    rw [Nat.mul_comm, Nat.mul_add_mod]
  simp only [roundDiv, hquotient, hrest]
  repeat' split
  all_goals omega

variable {fraction e k : Nat}

/-- The normal range of the 16-bit format, and beyond. -/
theorem nearest_normal (hfraction : fraction < 2 ^ 52) (he : k ≤ e + 42) :
    half.nearest ((2 ^ 52 + fraction) * 2 ^ e) (2 ^ k)
      = if k + 29 < e + 42 then half.infinity
        else addRest ((e + 42 - k + 1) * 2 ^ 10 + fraction / 2 ^ 42) fraction 42 := by
  have hround := roundDiv_add_mul (show 1024 % 2 = 0 from rfl) fraction (Nat.two_pow_pos 42)
  rw [show 1024 * 2 ^ 42 = 2 ^ 52 by decide] at hround
  have hlow := le_roundDiv fraction (2 ^ 42)
  have hhigh := roundDiv_le fraction (2 ^ 42)
  have hinf : half.infinity = 31 * 1024 := by decide
  have hbinade : half.binade = 1024 := rfl
  have hbits : half.fractionBits = 10 := rfl
  rw [nearest_of_wide (by rw [hbits]; omega) (by rw [hbits]; omega) he, hround, hbinade, hinf]
  split
  · omega
  · rw [addRest_eq (by decide) (by omega) rfl]
    omega

/-- The subnormal range, and below. -/
theorem nearest_subnormal (hfraction : fraction < 2 ^ 52) (he : e + 42 < k) :
    half.nearest ((2 ^ 52 + fraction) * 2 ^ e) (2 ^ k)
      = if e + 53 < k then 0
        else addRest ((2 ^ 52 + fraction) / 2 ^ (k - e)) (2 ^ 52 + fraction) (k - e) := by
  have hinf : half.infinity = 31 * 1024 := by decide
  have hbits : half.fractionBits = 10 := rfl
  rw [nearest_of_narrow (d := 42) (by rw [hbits]; omega) he, hinf]
  split
  · have hweight : (2 : Nat) ^ 54 ≤ 2 ^ (k - e) := Nat.pow_le_pow_right (by decide) (by omega)
    rw [roundDiv_eq_zero (by omega), Nat.zero_min]
  · have hweight : (2 : Nat) ^ 43 ≤ 2 ^ (k - e) := Nat.pow_le_pow_right (by decide) (by omega)
    have hquotient : (2 ^ 52 + fraction) / 2 ^ (k - e) ≤ (2 ^ 52 + fraction) / 2 ^ 43 :=
      Nat.div_le_div_left hweight (Nat.two_pow_pos 43)
    have hhigh := roundDiv_le (2 ^ 52 + fraction) (2 ^ (k - e))
    rw [addRest_eq (by omega) (Nat.zero_mod 2) (Nat.zero_add _).symm]
    omega

/-- Subnormal 64-bit values are far below half of the least positive 16-bit one. -/
theorem nearest_fraction (hfraction : fraction < 2 ^ 52) (hk : 53 < k) :
    half.nearest fraction (2 ^ k) = 0 := by
  have hbits : half.fractionBits = 10 := rfl
  have hround : half.nearest (fraction * 2 ^ 0) (2 ^ k)
      = min (roundDiv fraction (2 ^ (k - 0))) half.infinity :=
    nearest_of_narrow (d := 42) (by rw [hbits]; omega) (by omega)
  have hweight : (2 : Nat) ^ 54 ≤ 2 ^ k := Nat.pow_le_pow_right (by decide) hk
  rw [Nat.pow_zero, Nat.mul_one, Nat.sub_zero, roundDiv_eq_zero (by omega), Nat.zero_min] at hround
  exact hround

theorem units_of_exponent_zero {p : Nat} (h : double.magnitude p / double.binade = 0) :
    double.units p = double.fraction p := by
  rw [units]
  simp only [h, if_true]

theorem units_of_exponent_succ {p : Nat} (h : double.magnitude p / double.binade = e + 1) :
    double.units p = (2 ^ 52 + double.fraction p) * 2 ^ e := by
  rw [units]
  simp only [h]
  rw [if_neg (Nat.succ_ne_zero e)]
  rfl

/-- Rounding to 16 bits is cutting off and adding for the rest. -/
theorem convert_half_eq (p : Nat) : double.convert half p = halfByExponent p := by
  have hfraction : double.fraction p < 2 ^ 52 := double.fraction_lt p
  have hone : double.one = 2 ^ 1050 * half.one := by decide +kernel
  rw [convert, hone, nearest_mul_right _ _ half.one_pos, halfByExponent]
  -- As a variable, the distance of the scales is not unfolded.
  generalize hk : 1050 = k
  cases hexponent : double.magnitude p / double.binade with
  | zero =>
      rw [units_of_exponent_zero hexponent, nearest_fraction hfraction (by omega),
        if_neg (by decide), if_neg (by decide), if_pos (by decide)]
  | succ e =>
      rw [units_of_exponent_succ hexponent]
      rcases Nat.lt_or_ge (e + 42) k with hsubnormal | hnormal
      · rw [nearest_subnormal hfraction hsubnormal, show k - e = 1051 - (e + 1) by omega,
          if_neg (show ¬1038 < e + 1 by omega), if_neg (show ¬1009 ≤ e + 1 by omega)]
        simp only [show e + 53 < k ↔ e + 1 < 998 by omega]
      · rw [nearest_normal hfraction hnormal, show e + 42 - k + 1 = e + 1 - 1008 by omega,
          if_pos (show 1009 ≤ e + 1 by omega)]
        simp only [show k + 29 < e + 42 ↔ 1038 < e + 1 by omega]

theorem toHalf_eq_halfByExponent (p : Nat) :
    toHalf p = double.moveSign half p
      + if double.isNaN p then half.infinity + nanToHalf (double.fraction p)
        else halfByExponent p := by
  rw [toHalf_eq, recode, convert_half_eq]
  by_cases hinf : double.magnitude p = double.infinity
  · have hexponent : double.magnitude p / double.binade = 2047 := by
      rw [hinf]
      decide +kernel
    have hlast : halfByExponent p = half.infinity := by
      rw [halfByExponent, hexponent]
      rfl
    rw [hlast, ite_self]
  · have hfinite : ¬double.isInfinite p = true := fun h => hinf (of_decide_eq_true h)
    rw [if_neg hfinite]

/-- Half of the least positive value is cut off to nothing, a bit more is not. -/
example : halfByExponent 0x3E60000000000000 = 0 ∧ halfByExponent 0x3E60000000000001 = 1 := by
  decide +kernel

end Double
end PackedRecord
