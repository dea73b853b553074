import PackedRecord.Size

/-!
# Packing

An encoder goes through the operations of a format, takes a value for each
that needs one and writes its field behind the fields before it. An operation
that fails does so before it writes anything, although it need not leave the
arguments as they were: a value that does not fit has been taken.

`Format.pack` measures the record first, so that every fault of the arguments
is found before anything is written.
-/

namespace PackedRecord

structure Encoder where
  order : ByteOrder
  arguments : Arguments
  output : List UInt8
deriving DecidableEq

namespace Encoder

/-- An encoder over `values` that has written nothing. -/
def ofValues (values : List Value) : Encoder := ⟨.little, .ofValues values, []⟩

/-- What a taking does to an encoder. -/
def taking {α : Type} (x : Taking α) : EStateM Error Encoder α := fun e =>
  match x e.arguments with
  | .ok a args => .ok a { e with arguments := args }
  | .error err args => .error err { e with arguments := args }

/-- What a writing does to an encoder. -/
def writing (x : Write Unit) : EStateM Error Encoder Unit := fun e =>
  match x e.output with
  | .ok _ output => .ok () { e with output := output }
  | .error err output => .error err { e with output := output }

/-- Writes the field of what is taken, in the byte order of the moment. -/
def put {α : Type} (x : Taking α) (write : ByteOrder → α → Write Unit) :
    EStateM Error Encoder Unit := do
  let a ← taking x
  writing (write (← get).order a)

/-- Runs one operation. -/
def step (op : Operation) : EStateM Error Encoder Unit :=
  match op with
  | .byteOrder next => modify fun e => { e with order := next }
  | .padding n => writing (Write.zeros n)
  | .bool => put (Arguments.takeBool op) fun _ b => Write.bytes (SingleBool.encode b)
  | .bitArray count =>
    put (Arguments.takeBools op) fun _ bits => Write.bytes (Bits.encode count bits)
  | .countedBits p => put (Arguments.takeBools op) (Bits.writeCounted p)
  | .integer width _ =>
    put (Arguments.takeInt op) fun order n =>
      Write.bytes (FixedInt.encode order width n.toUInt64.toNat)
  | .float width =>
    put (Arguments.takeFloat op) fun order x => Write.bytes (FloatField.encode order width x)
  | .taggedFloat => put (Arguments.takeFloat op) fun _ x => TaggedFloat.write x
  | .signedVarint => put (Arguments.takeInt op) fun _ n => Write.bytes (Zigzag.encode n)
  | .unsignedVarint =>
    put (Arguments.takeInt op) fun _ n => Write.bytes (Varint.encode n.toUInt64.toNat)
  | .terminatedString => put (Arguments.takeStr op) fun _ text => StringField.writeTerminated text
  | .countedString p => put (Arguments.takeStr op) (StringField.writeCounted p)
  | .fixedString size => put (Arguments.takeStr op) fun _ text => StringField.writeFixed size text
  | .fixedBytes size => put (Arguments.takeBytes op) fun _ content => Blob.writeFixed size content
  | .countedBytes p => put (Arguments.takeBytes op) (Blob.writeCounted p)

/-- Runs operations up to the first that fails. -/
def run : List Operation → EStateM Error Encoder Unit
  | [] => return ()
  | op :: rest => do
    step op
    run rest

/-- The output, if the policy allows for the values left over. -/
def finish (options : Options) (e : Encoder) : Except Error (List UInt8) := do
  e.arguments.finish options
  return e.output

end Encoder

namespace Format

/-- The record of this format that holds `values`. -/
def pack (format : Format) (values : List Value) (options : Options) :
    Except Error (List UInt8) := do
  let _ ← Size.measure format values options
  match Encoder.run format.operations (.ofValues values) with
  | .ok _ e => return e.output
  | .error err _ => .error err

end Format
end PackedRecord
