import PackedRecord.Format.Parser

/-!
# The grammar of format texts

Which texts spell which operations, as a relation, with no procedure to find
out. A text is a run of tokens with blanks anywhere between them. A token is
an opcode, followed by a numeral if it takes a size. No token starts with a
digit (`Token.not_digit`), so a numeral always ends where its digits end and
no text is cut into tokens in two ways.
-/

namespace PackedRecord.Format

/-- A run of digits that denotes a number; zeros may lead. -/
inductive Numeral : List Char → Nat → Prop
  | single {c : Char} (h : c.isDigit = true) : Numeral [c] (c.toNat - '0'.toNat)
  | append {digits : List Char} {n : Nat} {c : Char} (more : Numeral digits n)
      (h : c.isDigit = true) : Numeral (digits ++ [c]) (10 * n + (c.toNat - '0'.toNat))

/-- A numeral of a number within the limit of sizes. -/
def Sized (digits : List Char) (n : Nat) : Prop := Numeral digits n ∧ n < sizeLimit

/-- An opcode with its numeral, if any, and the operation it stands for. -/
inductive Token : List Char → Operation → Prop
  | little : Token ['<'] (.byteOrder .little)
  | big : Token ['>'] (.byteOrder .big)
  | native : Token ['='] (.byteOrder .native)
  | taggedFloat : Token ['g'] .taggedFloat
  | taggedFloatAlias : Token ['n'] .taggedFloat
  | signedVarint : Token ['v'] .signedVarint
  | unsignedVarint : Token ['V'] .unsignedVarint
  | terminatedString : Token ['z'] .terminatedString
  | varintString : Token ['p'] (.countedString .varint)
  | singlePadding : Token ['x'] (.padding 1)
  | padding {digits : List Char} {n : Nat} (h : Sized digits n) :
      Token ('x' :: digits) (.padding n)
  | bool : Token ['b'] .bool
  | bitArray {digits : List Char} {n : Nat} (h : Sized digits n) :
      Token ('b' :: digits) (.bitArray n)
  | varintBits : Token ['B'] (.countedBits .varint)
  | zeroBits {digits : List Char} (h : Sized digits 0) :
      Token ('B' :: digits) (.countedBits .varint)
  | fixedBits {digits : List Char} (width : ByteWidth) (h : Sized digits width.bytes) :
      Token ('B' :: digits) (.countedBits (.fixed width))
  | defaultSigned (width : ByteWidth) (h : width.bytes = 4) : Token ['i'] (.integer width true)
  | signed {digits : List Char} (width : ByteWidth) (h : Sized digits (width.bytes * 8)) :
      Token ('i' :: digits) (.integer width true)
  | defaultUnsigned (width : ByteWidth) (h : width.bytes = 4) : Token ['I'] (.integer width false)
  | unsigned {digits : List Char} (width : ByteWidth) (h : Sized digits (width.bytes * 8)) :
      Token ('I' :: digits) (.integer width false)
  | defaultFloat : Token ['f'] (.float .single)
  | float {digits : List Char} (width : FloatWidth) (h : Sized digits (width.bytes * 8)) :
      Token ('f' :: digits) (.float width)
  | defaultString (width : ByteWidth) (h : width.bytes = 4) :
      Token ['s'] (.countedString (.fixed width))
  | string {digits : List Char} (width : ByteWidth) (h : Sized digits width.bytes) :
      Token ('s' :: digits) (.countedString (.fixed width))
  | fixedString {digits : List Char} {n : Nat} (h : Sized digits n) :
      Token ('c' :: digits) (.fixedString n)
  | fixedBytes {digits : List Char} {n : Nat} (h : Sized digits n) :
      Token ('a' :: digits) (.fixedBytes n)
  | varintBytes : Token ['A'] (.countedBytes .varint)
  | zeroBytes {digits : List Char} (h : Sized digits 0) :
      Token ('A' :: digits) (.countedBytes .varint)
  | countedBytes {digits : List Char} (width : ByteWidth) (h : Sized digits width.bytes) :
      Token ('A' :: digits) (.countedBytes (.fixed width))

/-- A text and the operations that its tokens stand for, in order. -/
inductive Spells : List Char → List Operation → Prop
  | empty : Spells [] []
  | blank {c : Char} {text : List Char} {ops : List Operation} (h : isBlank c = true)
      (rest : Spells text ops) : Spells (c :: text) ops
  | token {first text : List Char} {op : Operation} {ops : List Operation}
      (h : Token first op) (rest : Spells text ops) : Spells (first ++ text) (op :: ops)

theorem Token.ne_nil {text : List Char} {op : Operation} (h : Token text op) : text ≠ [] := by
  cases h <;> simp

/-- A token starts with its opcode, and no opcode is a digit. -/
theorem Token.not_digit {c : Char} {text : List Char} {op : Operation}
    (h : Token (c :: text) op) : c.isDigit = false := by
  cases h <;> rfl

end PackedRecord.Format
