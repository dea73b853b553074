/-!
# Binary interchange formats

A float of a given format is a bit pattern: a sign, an exponent field and a
fraction field. Patterns here are natural numbers, and the exact value of a
finite one is a natural number too - its magnitude counted in the least
positive value of its format (`Interchange.units`). No real numbers and no
machine floats are involved, and comparing or rounding values is comparing or
dividing integers.

Apart from the sign, the order of patterns is the order of the magnitudes,
and a pattern is its own magnitude up to the end of the first binade.
Rounding (`Interchange.nearest`) builds on that: it divides by the weight of
the last place, rounds the quotient to nearest with ties to even, and adds
the exponent; a carry out of the fraction lands in the next binade by itself.
-/

namespace PackedRecord

/-- The widths of the two fields below the sign. -/
structure Interchange where
  exponentBits : Nat
  fractionBits : Nat
deriving DecidableEq

namespace Interchange

def half : Interchange := ⟨5, 10⟩
def single : Interchange := ⟨8, 23⟩
def double : Interchange := ⟨11, 52⟩

/-! ## Fields -/

/-- How many patterns share an exponent. -/
def binade (f : Interchange) : Nat := Nat.pow 2 f.fractionBits

/-- The pattern with only the sign set. -/
def signBit (f : Interchange) : Nat := Nat.pow 2 (f.exponentBits + f.fractionBits)

/-- The pattern of positive infinity. Greater ones below the sign are NaN. -/
def infinity (f : Interchange) : Nat := (Nat.pow 2 f.exponentBits - 1) * f.binade

/-- The fraction with only its highest bit set: in a NaN, the mark of a quiet one. -/
def quietBit (f : Interchange) : Nat := f.binade / 2

/-- The sign of a pattern, in place. -/
def sign (f : Interchange) (pattern : Nat) : Nat := pattern / f.signBit % 2 * f.signBit

/-- The pattern without its sign. -/
def magnitude (f : Interchange) (pattern : Nat) : Nat := pattern % f.signBit

def fraction (f : Interchange) (pattern : Nat) : Nat := pattern % f.binade

def isNaN (f : Interchange) (pattern : Nat) : Bool := f.infinity < f.magnitude pattern

def isInfinite (f : Interchange) (pattern : Nat) : Bool := f.magnitude pattern = f.infinity

def isZero (f : Interchange) (pattern : Nat) : Bool := f.magnitude pattern = 0

/-! ## Exact values -/

/-- The least positive value is two to the power of minus `scale`. -/
def scale (f : Interchange) : Nat := Nat.pow 2 (f.exponentBits - 1) - 2 + f.fractionBits

/-- How many units of the least positive value make one. -/
def one (f : Interchange) : Nat := Nat.pow 2 f.scale

/-- The magnitude of a finite pattern in units of the least positive value. -/
def units (f : Interchange) (pattern : Nat) : Nat :=
  let exponent := f.magnitude pattern / f.binade
  let fraction := f.fraction pattern
  if exponent = 0 then fraction else (f.binade + fraction) * Nat.pow 2 (exponent - 1)

/-! ## Rounding -/

/-- A quotient rounded to the nearest integer, ties to even. -/
def roundDiv (num den : Nat) : Nat :=
  let quotient := num / den
  let twice := 2 * (num % den)
  if twice < den then quotient
  else if den < twice then quotient + 1
  else quotient + quotient % 2

/-- The positive pattern nearest to `num / den` units, ties to even; what is
beyond the finite ones becomes infinity. -/
def nearest (f : Interchange) (num den : Nat) : Nat :=
  let shift := (num / den).log2 - f.fractionBits
  min (shift * f.binade + roundDiv num (den * Nat.pow 2 shift)) f.infinity

end Interchange
end PackedRecord
