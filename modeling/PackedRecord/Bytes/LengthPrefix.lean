import PackedRecord.Bytes.Fixed
import PackedRecord.Bytes.Varint
import PackedRecord.Bytes.Writer

/-!
# Length prefixes

The length of a field of variable size stands before it, as a varint or as a
number of a fixed width in the current byte order. A varint holds any length;
a fixed width may be too narrow for one.
-/

namespace PackedRecord

inductive LengthPrefix where
  | varint
  | fixed (width : ByteWidth)
deriving DecidableEq

namespace LengthPrefix

/-- The width in bytes, 0 for a varint. -/
def sizeParameter : LengthPrefix → Nat
  | .varint => 0
  | .fixed width => width.bytes

/-- Fails if `length` does not fit. -/
def check (p : LengthPrefix) (length : Nat) : Except Error Unit :=
  match p with
  | .varint => .ok ()
  | .fixed width =>
    if width.maxUnsigned < length then .error (.lengthOverflow length width.bytes) else .ok ()

/-- How many bytes the length takes. -/
def encodedLength (p : LengthPrefix) (length : Nat) : Nat :=
  match p with
  | .varint => Varint.length length
  | .fixed width => width.bytes

def encode (p : LengthPrefix) (order : ByteOrder) (length : Nat) : Except Error (List UInt8) := do
  p.check length
  match p with
  | .varint => return Varint.encode length
  | .fixed width => return FixedInt.encode order width length

/-- Writes the length; one that does not fit fails before anything is written. -/
def write (p : LengthPrefix) (order : ByteOrder) (length : Nat) : Write Unit := do
  Write.bytes (← Write.ofExcept (p.encode order length))

def decode (p : LengthPrefix) (order : ByteOrder) : Read Nat :=
  match p with
  | .varint => Varint.decode
  | .fixed width => FixedInt.decodeUnsigned order width

end LengthPrefix
end PackedRecord
