import PackedRecord.Format.Operation

/-!
# Unpacking

A decoder goes through the operations of a format and reads the value of each
that holds one. It may begin anywhere in the data and reports where it
stopped, so records that follow one another are read one after another.
-/

namespace PackedRecord

structure Decoder where
  order : ByteOrder
  reader : Reader
deriving DecidableEq

namespace Decoder

/-- A decoder at `offset`. -/
def start (data : List UInt8) (offset : Nat) : Except Error Decoder := do
  return ⟨.little, ← Reader.start data offset⟩

/-- Reads one field; the value is absent for byte order and padding. -/
def field (options : Options) (order : ByteOrder) (op : Operation) : Read (Option Value) :=
  match op with
  | .byteOrder _ => return none
  | .padding n => do
    Read.skip n
    return none
  | .bool => return some (.bool (← SingleBool.decode))
  | .bitArray count => return some (.bools (← Bits.decode count))
  | .countedBits p => return some (.bools (← Bits.decodeCounted p order))
  | .integer width signed => return some (.int (← FixedInt.decode order width signed))
  | .float width => return some (.float (← FloatField.decode order width))
  | .taggedFloat => return some (.float (← TaggedFloat.decode))
  | .signedVarint => return some (.int (← Zigzag.decode))
  | .unsignedVarint => return some (.ofUnsigned (.ofNat (← Varint.decode)))
  | .terminatedString => return some (.str (← StringField.decodeTerminated options))
  | .countedString p =>
    return some (.str (← StringField.decodeCounted p order options.invalidUtf8))
  | .fixedString size => return some (.str (← StringField.decodeFixed size options.invalidUtf8))
  | .fixedBytes size => return some (.bytes (← Blob.decodeFixed size))
  | .countedBytes p => return some (.bytes (← Blob.decodeCounted p order))

/-- Runs one operation. A failing one leaves the byte order and what it did
not consume. -/
def step (options : Options) (op : Operation) : EStateM Error Decoder (Option Value) := fun d =>
  match field options d.order op d.reader with
  | .ok v? reader => .ok v? { order := op.orderAfter d.order, reader }
  | .error err reader => .error err { d with reader }

/-- Runs operations up to the first that fails, and collects their values
behind those in `before` in reverse. -/
def runAfter (options : Options) (before : List Value) :
    List Operation → EStateM Error Decoder (List Value)
  | [] => return before.reverse
  | op :: rest => do
    let v? ← step options op
    runAfter options (v?.toList ++ before) rest

def run (options : Options) (ops : List Operation) : EStateM Error Decoder (List Value) :=
  runAfter options [] ops

end Decoder

/-- The values of one record and the offset just past it. -/
structure Unpacked where
  values : List Value
  nextOffset : Nat
deriving DecidableEq

namespace Format

/-- The record of this format that starts at `offset`. -/
def unpack (format : Format) (data : List UInt8) (offset : Nat) (options : Options) :
    Except Error Unpacked := do
  let d ← Decoder.start data offset
  match Decoder.run options format.operations d with
  | .ok values d => return ⟨values, d.reader.position⟩
  | .error err _ => .error err

end Format
end PackedRecord
