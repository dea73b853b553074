import PackedRecord.Bytes.Writer
import PackedRecord.Floating.Field

/-!
# Tagged floats

A float in the fewest bytes that lose nothing: a tag, then nothing for zero
or the value in the narrowest format whose reading is equal to it, always
least significant byte first. Both zeros take the tag of zero and read as the
positive one. A NaN equals nothing, so it is always written in full.
-/

namespace PackedRecord.TaggedFloat

/-- The narrowest width that reads back as an equal value; none for zero. -/
def width? (pattern : Nat) : Option FloatWidth :=
  if Double.equal pattern 0 then none
  else if Double.equal (FloatWidth.half.widen (FloatWidth.half.narrow pattern)) pattern then
    some .half
  else if Double.equal (FloatWidth.single.widen (FloatWidth.single.narrow pattern)) pattern then
    some .single
  else some .double

/-- The tag of a width, zero having its own. -/
def tag : Option FloatWidth → UInt8
  | none => 0
  | some .half => 1
  | some .single => 2
  | some .double => 3

/-- The width a tag announces. -/
def ofTag? (tag : UInt8) : Option (Option FloatWidth) :=
  if tag = 0 then some none
  else if tag = 1 then some (some .half)
  else if tag = 2 then some (some .single)
  else if tag = 3 then some (some .double)
  else none

def encode (pattern : UInt64) : List UInt8 :=
  let width := width? pattern.toNat
  tag width :: match width with
    | none => []
    | some width => FloatField.encode .little width pattern

def write (pattern : UInt64) : Write Unit := do
  let width := width? pattern.toNat
  Write.byte (tag width)
  match width with
  | none => return ()
  | some width => Write.bytes (FloatField.encode .little width pattern)

/-- How many bytes `write` writes. -/
def length (pattern : UInt64) : Nat :=
  match width? pattern.toNat with
  | none => 1
  | some width => 1 + width.bytes

def decode : Read UInt64 := do
  let start ← Read.position
  let t ← Read.byte
  match ofTag? t with
  | none => Read.fail (.invalidTag t start)
  | some none => return 0
  | some (some width) => FloatField.decode .little width

end PackedRecord.TaggedFloat
