import PackedRecord.Format.Operation

/-!
# Format texts

A format text is a sequence of opcodes, each followed by a decimal size where
the opcode takes one, with blanks anywhere between. Parsing takes one opcode
at a time and never looks beyond its own run of digits (`parseFrom`). It stops at
the first fault, and every position counts bytes from the start of the text.
-/

namespace PackedRecord

namespace Format

/-! ## Characters -/

/-- The characters that may stand between operations. -/
def isBlank (c : Char) : Bool :=
  c = ' ' || c = '\t' || c = '\n' || c = '\x0c' || c = '\r'

/-- The number a run of digits denotes. -/
def number (digits : List Char) : Nat :=
  digits.foldl (fun n c => 10 * n + (c.toNat - '0'.toNat)) 0

/-- The bound of sizes, counts and lengths. -/
def sizeLimit : Nat := UInt64.size

/-- The size that a run of digits gives, if there is one. It starts at `position`. -/
def size? (position : Nat) (digits : List Char) : Except Error (Option Nat) :=
  if digits.isEmpty then .ok none
  else if sizeLimit ≤ number digits then .error (.sizeTooLarge position)
  else .ok (some (number digits))

end Format

namespace Operation

/-- The operation of an opcode that takes no size. -/
def bare? : Char → Option Operation
  | '<' => some (.byteOrder .little)
  | '>' => some (.byteOrder .big)
  | '=' => some (.byteOrder .native)
  | 'g' => some .taggedFloat
  | 'n' => some .taggedFloat
  | 'v' => some .signedVarint
  | 'V' => some .unsignedVarint
  | 'z' => some .terminatedString
  | 'p' => some (.countedString .varint)
  | _ => none

/-- A length of a fixed width. -/
def fixedPrefix (opcode : Char) (width : Nat) : Except Error LengthPrefix :=
  match ByteWidth.ofNat? width with
  | some width => .ok (.fixed width)
  | none => .error (.invalidPrefixWidth opcode width)

/-- A length as a varint, spelled without a width or with width 0, or of a
fixed width. -/
def optionalPrefix (opcode : Char) : Option Nat → Except Error LengthPrefix
  | none => .ok .varint
  | some 0 => .ok .varint
  | some width => fixedPrefix opcode width

/-- The size of an opcode that cannot do without. -/
def required (opcode : Char) (position : Nat) : Option Nat → Except Error Nat
  | none => .error (.missingSize opcode position)
  | some n => .ok n

def integerOf (signed : Bool) (bits : Nat) : Except Error Operation :=
  match ByteWidth.ofNat? (bits / 8) with
  | some width =>
    if bits % 8 = 0 then .ok (.integer width signed) else .error (.invalidIntegerWidth bits)
  | none => .error (.invalidIntegerWidth bits)

def floatOf (bits : Nat) : Except Error Operation :=
  match FloatWidth.ofBits? bits with
  | some width => .ok (.float width)
  | none => .error (.invalidFloatWidth bits)

/-- What an opcode that takes a size makes of its position and its size. -/
def sized? : Char → Option (Nat → Option Nat → Except Error Operation)
  | 'x' => some fun _ size => .ok (.padding (size.getD 1))
  | 'b' => some fun _ size => .ok (size.elim .bool .bitArray)
  | 'B' => some fun _ size => (optionalPrefix 'B' size).map .countedBits
  | 'i' => some fun _ size => integerOf true (size.getD 32)
  | 'I' => some fun _ size => integerOf false (size.getD 32)
  | 'f' => some fun _ size => floatOf (size.getD 32)
  | 's' => some fun _ size => (fixedPrefix 's' (size.getD 4)).map .countedString
  | 'c' => some fun position size => (required 'c' position size).map .fixedString
  | 'a' => some fun position size => (required 'a' position size).map .fixedBytes
  | 'A' => some fun _ size => (optionalPrefix 'A' size).map .countedBytes
  | _ => none

end Operation

namespace Format

/-- The operations of `text`, which starts at `position`, behind those in
`before` in reverse. -/
def parseFrom (position : Nat) (before : List Operation) :
    (text : List Char) → Except Error (List Operation)
  | [] => .ok before.reverse
  | c :: rest =>
    if isBlank c then parseFrom (position + 1) before rest
    else match Operation.bare? c with
    | some op => parseFrom (position + 1) (op :: before) rest
    | none => match Operation.sized? c with
    | some make => do
      let digits := rest.takeWhile Char.isDigit
      let size ← size? (position + 1) digits
      let op ← make position size
      parseFrom (position + 1 + digits.length) (op :: before) (rest.dropWhile Char.isDigit)
    | none => .error (.unknownOpcode c position)
termination_by text => text.length
decreasing_by
  · simp
  · simp
  · exact Nat.lt_succ_of_le (List.dropWhile_suffix _).length_le

/-- The format that a text spells. -/
def parse (text : String) : Except Error Format := do
  return ⟨← parseFrom 0 [] text.toList⟩

end Format
end PackedRecord
