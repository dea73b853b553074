import PackedRecord.Arguments

/-!
# Sizes

How many bytes a record takes, without writing any. A prediction looks at the
format alone: it adds up the fields of fixed size and counts the others. A
measurement takes the values too, with the same checks as packing, and is
exact. Sums stop at the largest 64-bit number.
-/

namespace PackedRecord.Size

/-- The largest size that is told apart. -/
def most : Nat := UInt64.size - 1

/-- A sum that stops at `most`. -/
def add (a b : Nat) : Nat := min (a + b) most

/-! ## Prediction -/

/-- What a format says about the size of its records. -/
structure Prediction where
  /-- The sum of the fields whose size does not depend on the value. -/
  fixedBytes : Nat
  /-- The number of the other fields. -/
  variableFields : Nat
deriving DecidableEq

/-- The size of every record, if they all have the same. -/
def Prediction.exact? (p : Prediction) : Option Nat :=
  if p.variableFields = 0 then some p.fixedBytes else none

/-- One operation added to a prediction. -/
def Prediction.extend (p : Prediction) (op : Operation) : Prediction :=
  match op.fixedSize? with
  | some n => { p with fixedBytes := add p.fixedBytes n }
  | none => { p with variableFields := p.variableFields + 1 }

def predict (format : Format) : Prediction :=
  format.operations.foldl Prediction.extend ⟨0, 0⟩

/-! ## Measurement -/

/-- The size of one field, with its value taken. -/
def ofOperation (op : Operation) : Taking Nat :=
  match op with
  | .byteOrder _ => return 0
  | .padding n => return n
  | .bool => do
    let _ ← Arguments.takeBool op
    return 1
  | .bitArray count => do
    let _ ← Arguments.takeBools op
    return Bits.packedLength count
  | .countedBits p => do
    let bits ← Arguments.takeBools op
    Arguments.ofExcept (p.check bits.length)
    return Bits.countedLength p bits.length
  | .integer width _ => do
    let _ ← Arguments.takeInt op
    return width.bytes
  | .float width => do
    let _ ← Arguments.takeFloat op
    return width.bytes
  | .taggedFloat => return TaggedFloat.length (← Arguments.takeFloat op)
  | .signedVarint => return Zigzag.length (← Arguments.takeInt op)
  | .unsignedVarint => return Varint.length (← Arguments.takeInt op).toUInt64.toNat
  | .terminatedString => return StringField.terminatedLength (← Arguments.takeStr op)
  | .countedString p => do
    let length := (Utf8.bytes (← Arguments.takeStr op)).length
    Arguments.ofExcept (p.check length)
    return Blob.countedLength p length
  | .fixedString size => do
    let _ ← Arguments.takeStr op
    return size
  | .fixedBytes size => do
    let _ ← Arguments.takeBytes op
    return size
  | .countedBytes p => do
    let length := (← Arguments.takeBytes op).length
    Arguments.ofExcept (p.check length)
    return Blob.countedLength p length

/-- The sizes of operations added to `total`. -/
def ofOperations (total : Nat) : List Operation → Taking Nat
  | [] => return total
  | op :: rest => do
    let size ← ofOperation op
    ofOperations (add total size) rest

/-- The size of the record that holds `values`. -/
def measure (format : Format) (values : List Value) (options : Options) : Except Error Nat :=
  match ofOperations 0 format.operations (.ofValues values) with
  | .error e _ => .error e
  | .ok size args => do
    args.finish options
    return size

end PackedRecord.Size
