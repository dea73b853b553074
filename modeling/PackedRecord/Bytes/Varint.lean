import PackedRecord.Bytes.Reader

/-!
# Varints

A number as groups of seven bits, lowest first, one group a byte; every byte
but the last has its high bit set. Writing uses the fewest groups. Reading
also takes longer spellings, up to the ten bytes that 64 bits can need, and
refuses a number that does not fit 64 bits.

A signed number is first folded onto the unsigned ones by `Zigzag.fold`, so
that small magnitudes of either sign stay short: 0, -1, 1, -2, 2 and so on.
-/

namespace PackedRecord

namespace Varint

/-- The longest varint of a 64-bit number. -/
def maxLength : Nat := 10

def encode (n : Nat) : List UInt8 :=
  if n < 0x80 then [.ofNat n] else .ofNat (n % 0x80 + 0x80) :: encode (n / 0x80)
termination_by n
decreasing_by omega

/-- How many bytes `encode` writes: seven bits a byte. -/
def length (n : Nat) : Nat := (n.log2 + 7) / 7

/-- Reads at most `groups` more groups. The next one has weight `weight`, and
`value` is the sum of those before it. -/
def decodeGroups (start : Nat) : (groups weight value : Nat) → Read Nat
  | 0, _, _ => Read.fail (.varintOverflow start)
  | groups + 1, weight, value => do
    let b ← Read.byte
    let value := value + b.toNat % 0x80 * weight
    if UInt64.size ≤ value then Read.fail (.varintOverflow start)
    else if b.toNat < 0x80 then return value
    else decodeGroups start groups (weight * 0x80) value

def decode : Read Nat := do
  let start ← Read.position
  decodeGroups start maxLength 1 0

end Varint

namespace Zigzag

/-- Interleaves the two signs: the sign moves to the lowest bit, and a
negative number has its other bits complemented. -/
def fold (n : Int64) : UInt64 := ((n <<< 1) ^^^ (n >>> 63)).toUInt64

def unfold (raw : UInt64) : Int64 := (raw >>> 1).toInt64 ^^^ -(raw &&& 1).toInt64

def encode (n : Int64) : List UInt8 := Varint.encode (fold n).toNat

def length (n : Int64) : Nat := Varint.length (fold n).toNat

def decode : Read Int64 := do
  let raw ← Varint.decode
  return unfold (UInt64.ofNat raw)

end Zigzag
end PackedRecord
