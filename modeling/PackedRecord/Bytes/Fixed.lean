import PackedRecord.Bytes.Order
import PackedRecord.Bytes.Reader

/-!
# Integers of a fixed width

A field of one to eight bytes holds the low bytes of a 64-bit word in two's
complement; what does not fit is dropped. Reading extends the field again, by
its sign if it is signed and by zeros otherwise, so a value survives exactly
when it lies in the range of its field.
-/

namespace PackedRecord

/-- A width of one to eight bytes. -/
structure ByteWidth where
  bytes : Nat
  pos : 0 < bytes
  le : bytes ≤ 8
deriving DecidableEq

namespace ByteWidth

def ofNat? (n : Nat) : Option ByteWidth :=
  if h : 0 < n ∧ n ≤ 8 then some ⟨n, h.1, h.2⟩ else none

/-- How many numbers the width tells apart. -/
def limit (w : ByteWidth) : Nat := Nat.pow 0x100 w.bytes

/-- The largest number of this width. -/
def maxUnsigned (w : ByteWidth) : Nat := w.limit - 1

end ByteWidth

/-! ## Bytes of a number -/

/-- The `n` low bytes of a number, least significant first. -/
def lowBytes : (n : Nat) → Nat → List UInt8
  | 0, _ => []
  | n + 1, word => .ofNat word :: lowBytes n (word / 0x100)

/-- The number whose bytes these are, least significant first. -/
def numberOf : List UInt8 → Nat
  | [] => 0
  | b :: rest => b.toNat + 0x100 * numberOf rest

@[simp] theorem length_lowBytes (n word : Nat) : (lowBytes n word).length = n := by
  induction n generalizing word with
  | zero => rfl
  | succ n ih => simp [lowBytes, ih]

/-! ## Fields -/

namespace FixedInt

/-- The field of `width` that holds the low bytes of `word`. -/
def encode (order : ByteOrder) (width : ByteWidth) (word : Nat) : List UInt8 :=
  order.arrange (lowBytes width.bytes word)

def decodeUnsigned (order : ByteOrder) (width : ByteWidth) : Read Nat := do
  let field ← Read.bytes width.bytes
  return numberOf (order.arrange field)

/-- The word a field stands for: the number itself, or if the field is signed
the one congruent to it that is nearest to zero. -/
def extend (width : ByteWidth) (signed : Bool) (raw : Nat) : Int64 :=
  Int64.ofInt (if signed then Int.bmod raw width.limit else raw)

def decode (order : ByteOrder) (width : ByteWidth) (signed : Bool) : Read Int64 := do
  let raw ← decodeUnsigned order width
  return extend width signed raw

end FixedInt
end PackedRecord
