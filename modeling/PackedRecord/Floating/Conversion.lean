import PackedRecord.Floating.Interchange

/-!
# Conversion between float formats

Finite values are converted through their exact magnitude, rounded once, and
infinities stay infinite. What becomes of a NaN depends on the partner of the
64-bit format. The 16-bit format keeps the payload bits it has room for and
turns a payload without any of them into the quiet one, so that a NaN never
becomes an infinity; widening keeps the payload as it is. Conversion from and
to the 32-bit format keeps the payload bits too, and makes the NaN quiet.
-/

namespace PackedRecord

namespace Interchange

/-- The positive pattern in `target` nearest to the magnitude of a finite
pattern in `source`. -/
def convert (source target : Interchange) (pattern : Nat) : Nat :=
  target.nearest (source.units pattern * target.one) source.one

/-- The sign of a pattern in `source`, in place in `target`. -/
def moveSign (source target : Interchange) (pattern : Nat) : Nat :=
  pattern / source.signBit % 2 * target.signBit

/-- A NaN payload marked quiet. -/
def quieten (f : Interchange) (payload : Nat) : Nat :=
  if payload < f.quietBit then payload + f.quietBit else payload

end Interchange

namespace Double
open Interchange

/-- The weight, in the 64-bit format, of the lowest fraction bit of the 16-bit one. -/
def halfStep : Nat := double.binade / half.binade

/-- The weight, in the 64-bit format, of the lowest fraction bit of the 32-bit one. -/
def singleStep : Nat := double.binade / single.binade

/-- The 16-bit pattern nearest to a 64-bit one. -/
def toHalf (pattern : Nat) : Nat :=
  double.moveSign half pattern +
    if double.isNaN pattern then
      let payload := double.fraction pattern / halfStep
      half.infinity + if payload = 0 then half.quietBit else payload
    else if double.isInfinite pattern then half.infinity
    else double.convert half pattern

/-- The 64-bit pattern of a 16-bit one. -/
def ofHalf (pattern : Nat) : Nat :=
  half.moveSign double pattern +
    if half.isNaN pattern then
      double.infinity + half.fraction pattern * halfStep
    else if half.isInfinite pattern then double.infinity
    else half.convert double pattern

/-- The 32-bit pattern nearest to a 64-bit one. -/
def toSingle (pattern : Nat) : Nat :=
  double.moveSign single pattern +
    if double.isNaN pattern then
      single.infinity + single.quieten (double.fraction pattern / singleStep)
    else if double.isInfinite pattern then single.infinity
    else double.convert single pattern

/-- The 64-bit pattern of a 32-bit one. -/
def ofSingle (pattern : Nat) : Nat :=
  single.moveSign double pattern +
    if single.isNaN pattern then
      double.infinity + double.quieten (single.fraction pattern * singleStep)
    else if single.isInfinite pattern then double.infinity
    else single.convert double pattern

/-- Equality of values: a NaN equals nothing, the two zeros equal each other. -/
def equal (a b : Nat) : Bool :=
  !double.isNaN a && !double.isNaN b && (a = b || double.isZero a && double.isZero b)

end Double
end PackedRecord
