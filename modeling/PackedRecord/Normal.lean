import PackedRecord.Format.Operation

/-!
# Normal forms

What a field keeps of a value. A field may be narrower than its value:
integers lose their high bits, floats are rounded, arrays, blobs and text
buffers are cut or filled up. The normal form of a value for an operation is
the value that comes back, said in terms of the value alone and without the
bytes in between. Values of a kind that the operation does not take are left
as they are.
-/

namespace PackedRecord

/-- A list cut or filled up to a length. -/
def exactly {α : Type} (size : Nat) (filling : α) (items : List α) : List α :=
  items.take size ++ List.replicate (size - items.length) filling

@[simp] theorem length_exactly {α : Type} (size : Nat) (filling : α) (items : List α) :
    (exactly size filling items).length = size := by
  simp only [exactly, List.length_append, List.length_take, List.length_replicate]
  omega

/-- The integer congruent to `word` that lies in the range of a field. -/
def ByteWidth.reduce (width : ByteWidth) (signed : Bool) (word : Int) : Int :=
  if signed then word.bmod width.limit else word % width.limit

/-- A text without the zeros at its end. -/
def withoutFinalZeros (text : List Char) : List Char :=
  (text.reverse.dropWhile (· == '\x00')).reverse

namespace Operation

/-- What comes back of a value. -/
def normal : Operation → Value → Value
  | .bitArray count, .bools bits => .bools (exactly count false bits)
  | .integer width signed, .int word => .ofInt (width.reduce signed word.toInt)
  | .float width, .float pattern => .float (.ofNat (width.widen (width.narrow pattern.toNat)))
  | .taggedFloat, .float pattern =>
    .float (if Interchange.double.isZero pattern.toNat then 0 else pattern)
  | .fixedString size, .str text =>
    .str (String.ofList (withoutFinalZeros (StringField.fitting size text.toList)))
  | .fixedBytes size, .bytes content => .bytes (exactly size 0 content)
  | _, v => v

@[simp] theorem kind_normal (op : Operation) (v : Value) : (op.normal v).kind = v.kind := by
  unfold normal
  split <;> rfl

end Operation

namespace Format

/-- What comes back of the values of a record, one for each operation that takes one. -/
def normal (format : Format) (values : List Value) : List Value :=
  List.zipWith Operation.normal (format.operations.filter fun op => op.kind?.isSome) values

end Format
end PackedRecord
