import PackedRecord.Bytes.LengthPrefix

/-!
# Booleans

A single boolean takes a byte, and any byte but zero reads as true. An array
takes a bit an element, eight to a byte from the least significant bit up;
the bits of the last byte that hold no element are zero when written and
ignored when read.
-/

namespace PackedRecord

namespace SingleBool

def encode (b : Bool) : List UInt8 := [if b then 1 else 0]

def decode : Read Bool := do
  let b ← Read.byte
  return b != 0

end SingleBool

namespace Bits

/-- How many bytes `count` elements take. -/
def packedLength (count : Nat) : Nat := (count + 7) / 8

/-- The number whose bits these are, least significant first. -/
def weigh : List Bool → Nat
  | [] => 0
  | b :: rest => b.toNat + 2 * weigh rest

/-- The next `n` bytes of elements, behind those in `before` in reverse; when
the elements run out the bytes are zero. -/
def packAfter (before : List UInt8) : (n : Nat) → List Bool → List UInt8
  | 0, _ => before.reverse
  | n + 1, bits => packAfter (.ofNat (weigh (bits.take 8)) :: before) n (bits.drop 8)

/-- Exactly `count` elements: missing ones are false, surplus ones are left out. -/
def encode (count : Nat) (bits : List Bool) : List UInt8 :=
  packAfter [] (packedLength count) (bits.take count)

/-- The eight elements of a byte. -/
def unpackByte (b : UInt8) : List Bool := (List.range 8).map b.toNat.testBit

def decode (count : Nat) : Read (List Bool) := do
  let packed ← Read.bytes (packedLength count)
  return (packed.flatMap unpackByte).take count

/-! ## Behind a length -/

def encodeCounted (p : LengthPrefix) (order : ByteOrder) (bits : List Bool) :
    Except Error (List UInt8) := do
  return (← p.encode order bits.length) ++ encode bits.length bits

def writeCounted (p : LengthPrefix) (order : ByteOrder) (bits : List Bool) : Write Unit := do
  p.write order bits.length
  Write.bytes (encode bits.length bits)

def decodeCounted (p : LengthPrefix) (order : ByteOrder) : Read (List Bool) := do
  let count ← p.decode order
  decode count

/-- How many bytes `writeCounted` writes for `count` elements. -/
def countedLength (p : LengthPrefix) (count : Nat) : Nat :=
  p.encodedLength count + packedLength count

end Bits
end PackedRecord
