/-!
# Values

A record is a list of values, and every value has one of six kinds. Which
kind a field takes is the format's business (`PackedRecord.Format.Operation`);
a value carries its own kind as its constructor, and the accessors below are
the only way the rest of the library looks inside.

Numbers are words, not mathematical quantities. An integer is a 64-bit word
read as signed, so an unsigned quantity above the signed range keeps its bits
and comes back unchanged from `unsigned?`. A float is the bit pattern of the
64-bit interchange format, so every NaN and both zeros are told apart.
-/

namespace PackedRecord

/-- What a value holds. -/
inductive Kind where
  | bool
  | bools
  | int
  | float
  | str
  | bytes
deriving DecidableEq

/-- The kind's name in messages. -/
def Kind.name : Kind → String
  | .bool => "boolean"
  | .bools => "boolean array"
  | .int => "integer"
  | .float => "float"
  | .str => "string"
  | .bytes => "byte array"

/-- One value of a record. -/
inductive Value where
  | bool (b : Bool)
  | bools (bits : List Bool)
  | int (word : Int64)
  | float (pattern : UInt64)
  | str (text : String)
  | bytes (content : List UInt8)
deriving DecidableEq

namespace Value

def kind : Value → Kind
  | .bool _ => .bool
  | .bools _ => .bools
  | .int _ => .int
  | .float _ => .float
  | .str _ => .str
  | .bytes _ => .bytes

/-! ## Accessors -/

def bool? : Value → Option Bool
  | .bool b => some b
  | _ => none

def bools? : Value → Option (List Bool)
  | .bools bits => some bits
  | _ => none

def int? : Value → Option Int64
  | .int word => some word
  | _ => none

/-- The same 64 bits read as an unsigned word. -/
def unsigned? (v : Value) : Option UInt64 :=
  v.int?.map Int64.toUInt64

def float? : Value → Option UInt64
  | .float pattern => some pattern
  | _ => none

def str? : Value → Option String
  | .str text => some text
  | _ => none

def bytes? : Value → Option (List UInt8)
  | .bytes content => some content
  | _ => none

/-! ## Integers of any width -/

/-- An integer reduced to its 64 low bits. -/
def ofInt (i : Int) : Value := .int (Int64.ofInt i)

/-- The value that holds an unsigned word bit for bit. -/
def ofUnsigned (word : UInt64) : Value := .int word.toInt64

@[simp] theorem unsigned?_ofUnsigned (word : UInt64) :
    (ofUnsigned word).unsigned? = some word := rfl

end Value
end PackedRecord
