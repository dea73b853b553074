import PackedRecord.Bytes.Bits
import PackedRecord.Bytes.StringField
import PackedRecord.Floating.Tagged

/-!
# Operations

A format is a list of operations. Each switches the byte order, writes
padding, or stands for one field that takes one value of a fixed kind. This
file says what an operation is, how it is written in a format text, which
kind of value it takes, and how long its field is where that does not depend
on the value.
-/

namespace PackedRecord

inductive Operation where
  /-- The byte order of what follows. -/
  | byteOrder (order : ByteOrder)
  /-- Zero bytes that hold no value. -/
  | padding (count : Nat)
  | bool
  | bitArray (count : Nat)
  | countedBits (count : LengthPrefix)
  | integer (width : ByteWidth) (signed : Bool)
  | float (width : FloatWidth)
  | taggedFloat
  | signedVarint
  | unsignedVarint
  | terminatedString
  | countedString (length : LengthPrefix)
  | fixedString (size : Nat)
  | fixedBytes (size : Nat)
  | countedBytes (length : LengthPrefix)
deriving DecidableEq

namespace Operation

/-- The character a field of this kind starts with. -/
def opcode : Operation → Char
  | .byteOrder order => order.opcode
  | .padding _ => 'x'
  | .bool => 'b'
  | .bitArray _ => 'b'
  | .countedBits _ => 'B'
  | .integer _ signed => if signed then 'i' else 'I'
  | .float _ => 'f'
  | .taggedFloat => 'g'
  | .signedVarint => 'v'
  | .unsignedVarint => 'V'
  | .terminatedString => 'z'
  | .countedString .varint => 'p'
  | .countedString (.fixed _) => 's'
  | .fixedString _ => 'c'
  | .fixedBytes _ => 'a'
  | .countedBytes _ => 'A'

/-- The number that goes with the operation: a width in bytes, a count of
elements or of bytes, or 0 if there is none. -/
def sizeParameter : Operation → Nat
  | .padding n | .bitArray n | .fixedString n | .fixedBytes n => n
  | .integer width _ => width.bytes
  | .float width => width.bytes
  | .countedBits p | .countedString p | .countedBytes p => p.sizeParameter
  | .byteOrder _ | .bool | .taggedFloat | .signedVarint | .unsignedVarint
  | .terminatedString => 0

/-- The kind of value the operation takes, if it takes one. -/
def kind? : Operation → Option Kind
  | .byteOrder _ | .padding _ => none
  | .bool => some .bool
  | .bitArray _ | .countedBits _ => some .bools
  | .integer .. | .signedVarint | .unsignedVarint => some .int
  | .float _ | .taggedFloat => some .float
  | .terminatedString | .countedString _ | .fixedString _ => some .str
  | .fixedBytes _ | .countedBytes _ => some .bytes

/-- The size of the field, if it does not depend on the value. A length of
fixed width does not make a field fixed: what stands behind it still varies. -/
def fixedSize? : Operation → Option Nat
  | .byteOrder _ => some 0
  | .padding n | .fixedString n | .fixedBytes n => some n
  | .bool => some 1
  | .bitArray n => some (Bits.packedLength n)
  | .integer width _ => some width.bytes
  | .float width => some width.bytes
  | .countedBits _ | .taggedFloat | .signedVarint | .unsignedVarint | .terminatedString
  | .countedString _ | .countedBytes _ => none

/-- The byte order that holds after the operation. -/
def orderAfter (order : ByteOrder) : Operation → ByteOrder
  | .byteOrder next => next
  | _ => order

/-! ## Spelling -/

/-- The number behind the opcode in the canonical spelling: none where a bare
opcode means the same, and bits for integers and floats. -/
def spelledSize? : Operation → Option Nat
  | .byteOrder _ | .bool | .taggedFloat | .signedVarint | .unsignedVarint | .terminatedString
  | .countedBits .varint | .countedString .varint | .countedBytes .varint => none
  | .integer width _ => some (width.bytes * 8)
  | .float width => some (width.bytes * 8)
  | .padding n | .bitArray n | .fixedString n | .fixedBytes n => some n
  | .countedBits (.fixed width) | .countedString (.fixed width)
  | .countedBytes (.fixed width) => some width.bytes

/-- The canonical spelling. -/
def spelling (op : Operation) : List Char :=
  op.opcode :: match op.spelledSize? with
    | none => []
    | some n => Nat.toDigits 10 n

def text (op : Operation) : String := String.ofList op.spelling

end Operation

/-- What a record looks like: its operations in order. -/
structure Format where
  operations : List Operation
deriving DecidableEq

namespace Format

/-- The kinds of the values a record holds, in order. -/
def kinds (format : Format) : List Kind := format.operations.filterMap Operation.kind?

/-- How many values a record holds. -/
def valueCount (format : Format) : Nat := format.kinds.length

/-- The canonical spelling: those of the operations, a space between. -/
def spelling (format : Format) : List Char :=
  [' '].intercalate (format.operations.map Operation.spelling)

def text (format : Format) : String := String.ofList format.spelling

end Format
end PackedRecord
