import PackedRecord.Floating.Interchange

/-!
# Reading decimals by scaling

A decimal is read in two steps. Its digits are absorbed into a significand of
at most 64 bits; digits beyond that are dropped, those before the point raise
the exponent. Then the float nearest to the significand is multiplied or
divided by the float nearest to the power of ten, with powers beyond 308
taken off first in steps of 308. Each step rounds, so the result can be off
by a unit in the last place where the significand or the power is not exact;
short decimals are read exactly rounded. A decimal beyond the largest float
has no reading.
-/

namespace PackedRecord.Decimal

/-! ## Digits -/

/-- Absorbs digits while the significand stays below 64 bits; also counts them. -/
def absorbFrom (significand count : Nat) : List Char → Nat × Nat
  | [] => (significand, count)
  | c :: rest =>
    let next := 10 * significand + (c.toNat - '0'.toNat)
    if next < UInt64.size then absorbFrom next (count + 1) rest else (significand, count)

/-- A significand and the power of ten it is to be multiplied by. -/
structure Scaled where
  significand : Nat
  exponent : Int
deriving DecidableEq

/-- The digits before and after the point and the written exponent. -/
def scale (whole fraction : List Char) (exponent : Int) : Scaled :=
  let (high, wholeCount) := absorbFrom 0 0 whole
  let (significand, fractionCount) := absorbFrom high 0 fraction
  ⟨significand, exponent + (whole.length - wholeCount : Nat) - fractionCount⟩

/-! ## Arithmetic on positive floats -/

open Interchange

/-- The float nearest to a natural number. -/
def ofNat (n : Nat) : Nat := double.nearest (n * double.one) 1

def product (a b : Nat) : Nat :=
  double.nearest (double.units a * double.units b) double.one

def quotient (a b : Nat) : Nat :=
  double.nearest (double.units a * double.one) (double.units b)

/-- The largest power of ten that a single step applies. -/
def mostPower : Nat := 308

/-- The float nearest to a power of ten. -/
def powerOfTen (n : Nat) : Nat := ofNat (Nat.pow 10 n)

/-- The float times ten to the power of `exponent`, if it is finite. -/
def applyExponent (pattern : Nat) (exponent : Int) : Option Nat :=
  if exponent.natAbs ≤ mostPower then
    if 0 ≤ exponent then
      let result := product pattern (powerOfTen exponent.natAbs)
      if result = double.infinity then none else some result
    else some (quotient pattern (powerOfTen exponent.natAbs))
  else if pattern = 0 then some 0
  else if 0 ≤ exponent then none
  else applyExponent (quotient pattern (powerOfTen mostPower)) (exponent + mostPower)
termination_by exponent.natAbs
decreasing_by simp only [mostPower] at *; omega

/-- The positive pattern a decimal is read as. -/
def Scaled.read (s : Scaled) : Option Nat := applyExponent (ofNat s.significand) s.exponent

end PackedRecord.Decimal
