import PackedRecord.Text.Quoted
import PackedRecord.Value

/-!
# Errors

Every way in which parsing a format, packing or unpacking can fail, as a
cause with the data that pins it down. Each cause belongs to one category -
the format text is wrong, the values do not fit the format, or the bytes do
not fit the format - and `Error.message` is the only place that words them.
-/

namespace PackedRecord

/-- Which input is at fault. -/
inductive Category where
  | formatText
  | argument
  | data
deriving DecidableEq

/-- Why an operation failed. Positions and offsets count bytes from the start
of the text or the data, indices count values from the first. -/
inductive Error where
  /-- No field starts with this character. -/
  | unknownOpcode (opcode : Char) (position : Nat)
  /-- The opcode needs a size and has none. -/
  | missingSize (opcode : Char) (position : Nat)
  | invalidIntegerWidth (bits : Nat)
  | invalidFloatWidth (bits : Nat)
  | invalidPrefixWidth (opcode : Char) (width : Nat)
  /-- The number that starts here does not fit 64 bits. -/
  | sizeTooLarge (position : Nat)
  | typeMismatch (index : Nat) (opcode : Char) (expected found : Kind)
  | missingArgument (index : Nat) (opcode : Char)
  | extraArguments (expected supplied : Nat)
  /-- The length does not fit a length field of `width` bytes. -/
  | lengthOverflow (length width : Nat)
  | unexpectedEnd (offset needed available : Nat)
  /-- A tagged float starts with none of the four tags. -/
  | invalidTag (tag : UInt8) (offset : Nat)
  | varintOverflow (offset : Nat)
  | invalidUtf8 (offset : Nat)
  | unterminatedString (offset : Nat)
  | offsetOutOfRange (offset length : Nat)
deriving DecidableEq

namespace Error

def category : Error → Category
  | .unknownOpcode .. | .missingSize .. | .invalidIntegerWidth .. | .invalidFloatWidth ..
  | .invalidPrefixWidth .. | .sizeTooLarge .. => .formatText
  | .typeMismatch .. | .missingArgument .. | .extraArguments .. | .lengthOverflow .. => .argument
  | .unexpectedEnd .. | .invalidTag .. | .varintOverflow .. | .invalidUtf8 ..
  | .unterminatedString .. | .offsetOutOfRange .. => .data

/-- A byte as two uppercase hexadecimal digits. -/
private def upperHex (b : UInt8) : String :=
  String.ofList [(Text.hexDigit (b.toNat / 16)).toUpper, (Text.hexDigit (b.toNat % 16)).toUpper]

/-- The text of an error. -/
def message : Error → String
  | .unknownOpcode opcode position =>
    let shown := Text.quoted opcode
    s!"unknown format character {shown} at position {position}"
  | .missingSize opcode position =>
    s!"format character '{opcode}' at position {position} requires a size, e.g. {opcode}16"
  | .invalidIntegerWidth bits =>
    s!"invalid integer width {bits}: must be a positive multiple of 8 up to 64"
  | .invalidFloatWidth bits =>
    s!"invalid float width {bits}: only f16, f32 and f64 are supported"
  | .invalidPrefixWidth opcode width =>
    s!"invalid length prefix width {width} for '{opcode}': must be 1..=8 bytes"
  | .sizeTooLarge position =>
    s!"size parameter at position {position} is too large"
  | .typeMismatch index opcode expected found =>
    let wanted := expected.name
    let given := found.name
    s!"argument {index} for '{opcode}' has wrong type: expected {wanted}, found {given}"
  | .missingArgument index opcode =>
    s!"missing argument {index} for '{opcode}'"
  | .extraArguments expected supplied =>
    s!"too many arguments: format consumes {expected}, {supplied} supplied"
  | .lengthOverflow length width =>
    s!"length {length} does not fit into a {width}-byte length prefix"
  | .unexpectedEnd offset needed available =>
    s!"unexpected end of data at offset {offset}: need {needed} bytes, {available} available"
  | .invalidTag tag offset =>
    let digits := upperHex tag
    s!"invalid variable float tag 0x{digits} at offset {offset}"
  | .varintOverflow offset =>
    s!"varint at offset {offset} overflows 64 bits"
  | .invalidUtf8 offset =>
    s!"invalid UTF-8 in string at offset {offset}"
  | .unterminatedString offset =>
    s!"string at offset {offset} has no zero terminator"
  | .offsetOutOfRange offset length =>
    s!"offset {offset} is beyond the end of the data ({length} bytes)"

end Error
end PackedRecord
