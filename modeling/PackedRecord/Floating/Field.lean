import PackedRecord.Bytes.Fixed
import PackedRecord.Floating.Conversion

/-!
# Float fields

A float travels as a 64-bit pattern and is stored in 16, 32 or 64 bits in the
current byte order. Storing rounds once; reading is exact.
-/

namespace PackedRecord

inductive FloatWidth where
  | half
  | single
  | double
deriving DecidableEq

namespace FloatWidth

def ofBits? (bits : Nat) : Option FloatWidth :=
  if bits = 16 then some .half
  else if bits = 32 then some .single
  else if bits = 64 then some .double
  else none

def bytes : FloatWidth → Nat
  | .half => 2
  | .single => 4
  | .double => 8

/-- The pattern of this width that stands for a 64-bit pattern. -/
def narrow : FloatWidth → Nat → Nat
  | .half, pattern => Double.toHalf pattern
  | .single, pattern => Double.toSingle pattern
  | .double, pattern => pattern

/-- The 64-bit pattern of a pattern of this width. -/
def widen : FloatWidth → Nat → Nat
  | .half, pattern => Double.ofHalf pattern
  | .single, pattern => Double.ofSingle pattern
  | .double, pattern => pattern

end FloatWidth

namespace FloatField

def encode (order : ByteOrder) (width : FloatWidth) (pattern : UInt64) : List UInt8 :=
  order.arrange (lowBytes width.bytes (width.narrow pattern.toNat))

def decode (order : ByteOrder) (width : FloatWidth) : Read UInt64 := do
  let field ← Read.bytes width.bytes
  return UInt64.ofNat (width.widen (numberOf (order.arrange field)))

end FloatField

/-- The value of a 32-bit float. -/
def Value.ofSingle (pattern : UInt32) : Value :=
  .float (UInt64.ofNat (Double.ofSingle pattern.toNat))

end PackedRecord
