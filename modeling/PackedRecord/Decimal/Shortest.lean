import PackedRecord.Floating.Interchange

/-!
# Shortest decimals

The decimal with the fewest digits that reads back as a given float. A
decimal reads back if it lies between the midpoints to the two neighbouring
floats; a midpoint itself counts if the pattern is even, since ties go to even
(`Decimal.readsBack`). For one digit, two digits and so on the two decimals
around the float are tried, and the first number of digits with a hit wins. Of two hits
the nearer one is taken, and of two equally near ones the even one.

All comparisons are between natural numbers, both sides multiplied out.
-/

namespace PackedRecord

/-- The number `digits` times ten to the power of `exponent`. -/
structure Decimal where
  digits : Nat
  exponent : Int
deriving DecidableEq

namespace Decimal

/-- How many decimal digits a positive number has. -/
def digitCount (n : Nat) : Nat := (Nat.toDigits 10 n).length

/-- The exponent of the leading digit of a positive quotient. -/
def leadingExponent (num den : Nat) : Int :=
  if den ≤ num then digitCount (num / den) - 1
  else -(digitCount ((den - 1) / num))

/-- Compares a decimal with `num / den`. -/
def compareTo (d : Decimal) (num den : Nat) : Ordering :=
  compare (d.digits * Nat.pow 10 d.exponent.toNat * den) (num * Nat.pow 10 (-d.exponent).toNat)

/-- Whether a decimal rounds to a positive finite pattern without sign. -/
def readsBack (f : Interchange) (pattern : Nat) (d : Decimal) : Bool :=
  let value := f.units pattern
  let den := 2 * f.one
  let below := d.compareTo (f.units (pattern - 1) + value) den
  let above := d.compareTo (value + f.units (pattern + 1)) den
  let closed := pattern % 2 = 0
  (below = .gt || closed && below = .eq) && (above = .lt || closed && above = .eq)

/-- The decimal with this last place that reads back and is nearest to the
float, if one reads back at all. -/
def onGrid? (f : Interchange) (pattern : Nat) (exponent : Int) : Option Decimal :=
  let value := f.units pattern
  let den := f.one
  let low := value * Nat.pow 10 (-exponent).toNat / (den * Nat.pow 10 exponent.toNat)
  let lower : Decimal := ⟨low, exponent⟩
  let upper : Decimal := ⟨low + 1, exponent⟩
  let middle : Decimal := ⟨2 * low + 1, exponent⟩
  match readsBack f pattern lower, readsBack f pattern upper with
  | false, false => none
  | true, false => some lower
  | false, true => some upper
  | true, true =>
    match middle.compareTo (2 * value) den with
    | .gt => some lower
    | .lt => some upper
    | .eq => some (if low % 2 = 0 then lower else upper)

/-- The largest number of digits that is tried: every 64-bit float has a
decimal of that many digits that reads back. -/
def mostDigits : Nat := 17

/-- The shortest decimal of a positive finite pattern without sign. The exact
value stands behind the search. -/
def shortest (f : Interchange) (pattern : Nat) : Decimal :=
  let value := f.units pattern
  let lead := leadingExponent value f.one
  let tried := (List.range mostDigits).findSome? fun (n : Nat) => onGrid? f pattern (lead - n)
  tried.getD ⟨value * Nat.pow 5 f.scale, -f.scale⟩

/-! ## Layout -/

/-- Where positional notation is used: for exponents of the leading digit
from `lowest` up to but not including `limit`. -/
structure Style where
  lowest : Int
  limit : Int

/-- The digits without the zeros at their end. -/
def significant (digits : List Char) : List Char :=
  (digits.reverse.dropWhile (· == '0')).reverse

/-- Writes a positive decimal. Positional notation has at least one digit on
either side of the point; otherwise the exponent is written with its sign. -/
def layout (style : Style) (d : Decimal) : List Char :=
  let written := Nat.toDigits 10 d.digits
  let lead : Int := d.exponent + written.length - 1
  let digits := significant written
  if style.lowest ≤ lead && lead < style.limit then
    if lead < 0 then
      ['0', '.'] ++ List.replicate (-lead - 1).toNat '0' ++ digits
    else
      let whole := (lead + 1).toNat
      if digits.length ≤ whole then
        digits ++ List.replicate (whole - digits.length) '0' ++ ['.', '0']
      else digits.take whole ++ '.' :: digits.drop whole
  else
    let mantissa := match digits with
      | first :: second :: rest => first :: '.' :: second :: rest
      | other => other
    let sign := if lead < 0 then '-' else '+'
    mantissa ++ 'e' :: sign :: Nat.toDigits 10 lead.natAbs

end Decimal
end PackedRecord
