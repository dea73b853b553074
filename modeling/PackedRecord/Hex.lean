import PackedRecord.Text.Quoted

/-!
# Hexadecimal text

Bytes as pairs of hexadecimal digits, the high half first. Writing uses
lowercase digits, reading takes either case. Positions count bytes of the
text, and an offending byte is quoted as the character with that number.
-/

namespace PackedRecord.Hex

inductive Fault where
  | oddLength
  | invalidDigit (byte : UInt8) (position : Nat)
deriving DecidableEq

def Fault.message : Fault → String
  | .oddLength => "Odd number of digits"
  | .invalidDigit byte position =>
    let shown := Text.quoted (Char.ofNat byte.toNat)
    s!"Invalid character {shown} at position {position}"

def encodeByte (b : UInt8) : List Char :=
  [Text.hexDigit (b.toNat / 16), Text.hexDigit (b.toNat % 16)]

def encode (bytes : List UInt8) : String := String.ofList (bytes.flatMap encodeByte)

/-- The value of a digit. -/
def digit? (b : UInt8) : Option Nat :=
  let n := b.toNat
  if 48 ≤ n && n ≤ 57 then some (n - 48)
  else if 97 ≤ n && n ≤ 102 then some (n - 87)
  else if 65 ≤ n && n ≤ 70 then some (n - 55)
  else none

def digit (b : UInt8) (position : Nat) : Except Fault Nat :=
  match digit? b with
  | some n => .ok n
  | none => .error (.invalidDigit b position)

/-- Decodes pairs from `position` on, behind the bytes in `before` in reverse. -/
def decodeFrom (position : Nat) (before : List UInt8) :
    List UInt8 → Except Fault (List UInt8)
  | [] => .ok before.reverse
  | [_] => .error .oddLength
  | high :: low :: rest => do
    let h ← digit high position
    let l ← digit low (position + 1)
    decodeFrom (position + 2) (.ofNat (16 * h + l) :: before) rest

/-- The bytes that a text of digits spells. An odd number of digits is
reported before any digit is looked at. -/
def decode (text : List UInt8) : Except Fault (List UInt8) :=
  if text.length % 2 = 1 then .error .oddLength else decodeFrom 0 [] text

end PackedRecord.Hex
