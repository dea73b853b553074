import PackedRecord.Format.Operation
import PackedRecord.Json.Printer

/-!
# Values as JSON

JSON has neither fixed kinds of numbers nor bytes, so a document is read under
the guidance of a format: the item at each place has to convert to the kind
that the format takes there. Items beyond the last field convert by their own
shape. Floats that JSON cannot write are strings, and those strings read back.
-/

namespace PackedRecord

/-- Why a document does not spell values. -/
inductive Json.Mismatch where
  | notAnArray
  /-- The item at `index` does not convert to the kind expected there, or has
  no obvious kind beyond the last field. -/
  | unconvertible (index : Nat) (expected : Option Kind) (found : Json)

def Json.Mismatch.message : Json.Mismatch → String
  | .notAnArray => "expected a JSON array of values"
  | .unconvertible index (some kind) found =>
    let text := found.compact
    let wanted := kind.name
    s!"value {index}: cannot convert {text} to {wanted}"
  | .unconvertible index none found =>
    let text := found.compact
    s!"value {index}: cannot infer a value kind for {text}"

namespace Value

/-! ## From JSON -/

/-- The NaN that is read. -/
def quietNaN : UInt64 := 0x7FF8000000000000

def infinity : UInt64 := 0x7FF0000000000000

def negativeInfinity : UInt64 := 0xFFF0000000000000

/-- The float nearest to an integer. -/
def floatOfInt (n : Int) : UInt64 :=
  let f := Interchange.double
  let magnitude := f.nearest (n.natAbs * f.one) 1
  UInt64.ofNat (if n < 0 then magnitude + f.signBit else magnitude)

/-- A float that is written as a string. -/
def namedFloat? (name : String) : Option UInt64 :=
  if name = "NaN" ∨ name = "nan" then some quietNaN
  else if name = "inf" ∨ name = "+inf" ∨ name = "Infinity" then some infinity
  else if name = "-inf" ∨ name = "-Infinity" then some negativeInfinity
  else none

def floatOfJson? : Json → Option UInt64
  | .number (.integer n) => some (floatOfInt n)
  | .number (.float pattern) => some pattern
  | .string name => namedFloat? name
  | _ => none

def byteOfJson? (j : Json) : Option UInt8 := do
  let n ← j.integer?
  if 0 ≤ n ∧ n < 256 then some (UInt8.ofNat n.toNat) else none

/-- The value of a kind that a document spells. -/
def ofJson? (kind : Kind) (j : Json) : Option Value :=
  match kind with
  | .bool => j.bool?.map .bool
  | .bools => do return .bools (← (← j.array?).mapM Json.bool?)
  | .int => j.integer?.map .ofInt
  | .float => (floatOfJson? j).map .float
  | .str => j.string?.map .str
  | .bytes => do return .bytes (← (← j.array?).mapM byteOfJson?)

/-- The value that a document spells where no kind is expected. -/
def inferJson? (j : Json) : Option Value :=
  match j with
  | .bool b => some (.bool b)
  | .number (.integer n) => some (.ofInt n)
  | .number (.float pattern) => some (.float pattern)
  | .string text => some (.str text)
  | .array items =>
    if items.all fun item => item.bool?.isSome then ofJson? .bools j else ofJson? .bytes j
  | .null | .object _ => none

/-- The value of the item at a place where `expected` is expected. -/
def ofItem? : (expected : Option Kind) → Json → Option Value
  | some kind, j => ofJson? kind j
  | none, j => inferJson? j

/-! ## To JSON -/

/-- A float as a number if it is finite, else by its name. -/
def jsonOfFloat (pattern : UInt64) : Json :=
  let f := Interchange.double
  if f.isNaN pattern.toNat then .string "NaN"
  else if f.isInfinite pattern.toNat then
    .string (if f.sign pattern.toNat = 0 then "inf" else "-inf")
  else .number (.float pattern)

/-- A value as JSON; an integer is written with or without sign. -/
def toJson (unsigned : Bool) : Value → Json
  | .bool b => .bool b
  | .bools bits => .array (bits.map .bool)
  | .int word => if unsigned then .ofNat word.toUInt64.toNat else .ofInt word.toInt
  | .float pattern => jsonOfFloat pattern
  | .str text => .string text
  | .bytes content => .array (content.map fun b => .ofNat b.toNat)

/-- Values as JSON, integers with their sign. -/
def listToJson (values : List Value) : Json := .array (values.map (toJson false))

end Value

namespace Format

/-- Converts items from `index` on, those of `kinds` being expected first,
behind the values in `before` in reverse. -/
def convertFrom (index : Nat) (before : List Value) (kinds : List Kind) :
    List Json → Except Json.Mismatch (List Value)
  | [] => .ok before.reverse
  | item :: rest =>
    match Value.ofItem? kinds.head? item with
    | some v => convertFrom (index + 1) (v :: before) kinds.tail rest
    | none => .error (.unconvertible index kinds.head? item)

/-- The values that a document spells for this format. -/
def valuesOfJson (format : Format) (j : Json) : Except Json.Mismatch (List Value) :=
  match j with
  | .array items => convertFrom 0 [] format.kinds items
  | _ => .error .notAnArray

/-- For every value of a record, whether it is an unsigned integer. -/
def unsignedPlaces (format : Format) : List Bool :=
  (format.operations.filter fun op => op.kind?.isSome).map fun
    | .integer _ signed => !signed
    | .unsignedVarint => true
    | _ => false

/-- Renders values, those of `places` deciding on the signs of the first ones,
behind the documents in `before` in reverse. -/
def renderFrom (before : List Json) (places : List Bool) : List Value → List Json
  | [] => before.reverse
  | v :: rest => renderFrom (v.toJson (places.head?.getD false) :: before) places.tail rest

/-- The values of a record as JSON, unsigned integers without sign. -/
def jsonOfValues (format : Format) (values : List Value) : Json :=
  .array (renderFrom [] format.unsignedPlaces values)

end Format
end PackedRecord
