import PackedRecord.Bytes.Blob
import PackedRecord.Text.Utf8

/-!
# Strings

Text as UTF-8 in one of three shapes: closed by a zero byte, behind its
length in bytes, or in a buffer of a fixed size. A buffer keeps as many whole
characters as it has room for (`StringField.fitting`) and fills up with
zeros, which reading strips again.
-/

namespace PackedRecord.StringField

/-! ## Closed by a zero -/

def encodeTerminated (text : String) : List UInt8 := Utf8.bytes text ++ [0]

def writeTerminated (text : String) : Write Unit := do
  Write.bytes (Utf8.bytes text)
  Write.byte 0

/-- How many bytes `writeTerminated` writes. -/
def terminatedLength (text : String) : Nat := (Utf8.bytes text).length + 1

def decodeTerminated (options : Options) : Read String := do
  let start ← Read.position
  let (content, terminated) ← Read.untilZero
  if !terminated && options.unterminatedStrings = .reject then
    Read.fail (.unterminatedString start)
  else
    Read.ofExcept (Utf8.read options.invalidUtf8 start content)

/-! ## Behind a length -/

def encodeCounted (p : LengthPrefix) (order : ByteOrder) (text : String) :
    Except Error (List UInt8) :=
  Blob.encodeCounted p order (Utf8.bytes text)

def writeCounted (p : LengthPrefix) (order : ByteOrder) (text : String) : Write Unit :=
  Blob.writeCounted p order (Utf8.bytes text)

def decodeCounted (p : LengthPrefix) (order : ByteOrder) (policy : Utf8Policy) : Read String := do
  let length ← p.decode order
  let start ← Read.position
  let content ← Read.bytes length
  Read.ofExcept (Utf8.read policy start content)

/-! ## In a buffer -/

/-- The leading characters that fit `room` bytes, up to the first that does
not, behind those in `before` in reverse. -/
def fittingAfter (before : List Char) (room : Nat) : List Char → List Char
  | [] => before.reverse
  | c :: rest =>
    let size := (Utf8.encodeChar c).length
    if size ≤ room then fittingAfter (c :: before) (room - size) rest else before.reverse

/-- The longest run of whole leading characters that fits `room` bytes. -/
def fitting (room : Nat) (text : List Char) : List Char := fittingAfter [] room text

/-- Exactly `size` bytes. -/
def encodeFixed (size : Nat) (text : String) : List UInt8 :=
  Blob.encodeFixed size (Utf8.encode (fitting size text.toList))

def writeFixed (size : Nat) (text : String) : Write Unit :=
  Blob.writeFixed size (Utf8.encode (fitting size text.toList))

/-- The bytes without the zeros at their end. -/
def stripZeros (content : List UInt8) : List UInt8 :=
  (content.reverse.dropWhile (· == 0)).reverse

def decodeFixed (size : Nat) (policy : Utf8Policy) : Read String := do
  let start ← Read.position
  let content ← Read.bytes size
  Read.ofExcept (Utf8.read policy start (stripZeros content))

end PackedRecord.StringField
