import PackedRecord.Decimal.Scaled
import PackedRecord.Json.Basic

/-!
# Reading JSON

The strict grammar: no comments, no trailing commas, no leading zeros, and in
strings neither raw controls nor escapes of half a surrogate pair. A number
without fraction and exponent that fits 64 bits, with or without sign, is an
integer; only minus zero is a float. A float beyond the largest one is
refused, and so is nesting deeper than `Json.deepest`.

Every function takes the text that is left and returns what it did not use.
The counter that bounds the recursion starts at more than twice the number of
characters (`Json.parse?`); no two calls go by without one being used.
-/

namespace PackedRecord.Json

/-- How deep arrays and objects may nest. -/
def deepest : Nat := 127

def isBlank (c : Char) : Bool := c = ' ' || c = '\n' || c = '\t' || c = '\r'

def skipBlanks (text : List Char) : List Char := text.dropWhile isBlank

/-! ## Numbers -/

/-- A run of digits and the text after it. -/
def digits (text : List Char) : List Char × List Char :=
  (text.takeWhile Char.isDigit, text.dropWhile Char.isDigit)

/-- The number a run of digits denotes. -/
def natural (run : List Char) : Nat :=
  run.foldl (fun n c => 10 * n + (c.toNat - '0'.toNat)) 0

/-- The digits before the point: a zero stands alone. -/
def wholePart? (text : List Char) : Option (List Char × List Char) :=
  match digits text with
  | ([], _) => none
  | ('0' :: _ :: _, _) => none
  | found => some found

/-- The digits behind the point, if there is one. -/
def fractionPart? : List Char → Option (Option (List Char) × List Char)
  | '.' :: text =>
    match digits text with
    | ([], _) => none
    | (run, rest) => some (some run, rest)
  | text => some (none, text)

/-- The exponent, if one is written. -/
def exponentPart? : List Char → Option (Option Int × List Char)
  | [] => some (none, [])
  | c :: text =>
    if c = 'e' || c = 'E' then
      let (negative, text) := match text with
        | '-' :: rest => (true, rest)
        | '+' :: rest => (false, rest)
        | rest => (false, rest)
      match digits text with
      | ([], _) => none
      | (run, rest) =>
        let n : Int := natural run
        some (some (if negative then -n else n), rest)
    else some (none, c :: text)

/-- The integer written with these digits, if it is one. -/
def asInteger? (negative : Bool) (whole : List Char) : Option Int :=
  let n := natural whole
  if negative then if 0 < n ∧ n ≤ UInt64.size / 2 then some (-n) else none
  else if n < UInt64.size then some n else none

/-- The float written with these digits, if it is finite. -/
def asFloat? (negative : Bool) (whole fraction : List Char) (exponent : Int) : Option UInt64 := do
  let pattern ← (Decimal.scale whole fraction exponent).read
  return UInt64.ofNat (if negative then pattern + Interchange.double.signBit else pattern)

/-- A number, the sign having been read. -/
def number? (negative : Bool) (text : List Char) : Option (Number × List Char) := do
  let (whole, text) ← wholePart? text
  let (fraction, text) ← fractionPart? text
  let (exponent, text) ← exponentPart? text
  match fraction, exponent, asInteger? negative whole with
  | none, none, some n => return (.integer n, text)
  | _, _, _ =>
    let pattern ← asFloat? negative whole (fraction.getD []) (exponent.getD 0)
    return (.float pattern, text)

/-! ## Strings -/

def hexValue? (c : Char) : Option Nat :=
  if c.isDigit then some (c.toNat - '0'.toNat)
  else if 'a' ≤ c && c ≤ 'f' then some (c.toNat - 'a'.toNat + 10)
  else if 'A' ≤ c && c ≤ 'F' then some (c.toNat - 'A'.toNat + 10)
  else none

/-- Four digits. -/
def codeUnit? : List Char → Option (Nat × List Char)
  | a :: b :: c :: d :: rest => do
    return (((← hexValue? a) * 16 + (← hexValue? b)) * 256
      + ((← hexValue? c) * 16 + (← hexValue? d)), rest)
  | _ => none

/-- A character by its code unit or by a surrogate pair. -/
def unicodeEscape? (text : List Char) : Option (Char × List Char) := do
  let (first, text) ← codeUnit? text
  if first < 0xD800 || 0xE000 ≤ first then return (Char.ofNat first, text)
  else if 0xDC00 ≤ first then none
  else match text with
    | '\\' :: 'u' :: text => do
      let (second, text) ← codeUnit? text
      if 0xDC00 ≤ second && second < 0xE000 then
        return (Char.ofNat (0x10000 + (first - 0xD800) * 0x400 + (second - 0xDC00)), text)
      else none
    | _ => none

/-- What a backslash and the text behind it stand for. -/
def escape? : List Char → Option (Char × List Char)
  | '"' :: text => some ('"', text)
  | '\\' :: text => some ('\\', text)
  | '/' :: text => some ('/', text)
  | 'b' :: text => some ('\x08', text)
  | 'f' :: text => some ('\x0c', text)
  | 'n' :: text => some ('\n', text)
  | 'r' :: text => some ('\r', text)
  | 't' :: text => some ('\t', text)
  | 'u' :: text => unicodeEscape? text
  | _ => none

/-- The rest of a string, behind the characters in `before` in reverse. -/
def stringFrom? (before : List Char) : Nat → List Char → Option (String × List Char)
  | 0, _ => none
  | _ + 1, [] => none
  | fuel + 1, c :: text =>
    if c = '"' then some (String.ofList before.reverse, text)
    else if c = '\\' then
      match escape? text with
      | some (escaped, text) => stringFrom? (escaped :: before) fuel text
      | none => none
    else if c < ' ' then none
    else stringFrom? (c :: before) fuel text

/-! ## Documents -/

mutual

/-- A document whose arrays and objects nest at most `depth` deep. -/
def document? : (fuel depth : Nat) → List Char → Option (Json × List Char)
  | 0, _, _ => none
  | fuel + 1, depth, text =>
    match text with
    | 'n' :: 'u' :: 'l' :: 'l' :: text => some (.null, text)
    | 't' :: 'r' :: 'u' :: 'e' :: text => some (.bool true, text)
    | 'f' :: 'a' :: 'l' :: 's' :: 'e' :: text => some (.bool false, text)
    | '"' :: text => (stringFrom? [] fuel text).map fun (s, text) => (.string s, text)
    | '-' :: text => (number? true text).map fun (n, text) => (.number n, text)
    | '[' :: text =>
      if depth = 0 then none
      else match skipBlanks text with
        | ']' :: text => some (.array [], text)
        | text => items? fuel (depth - 1) [] text
    | '\x7b' :: text =>
      if depth = 0 then none
      else match skipBlanks text with
        | '\x7d' :: text => some (.object [], text)
        | text => fields? fuel (depth - 1) [] text
    | text => (number? false text).map fun (n, text) => (.number n, text)

/-- The items of an array from the next one on, behind those in `before` in
reverse. -/
def items? : (fuel depth : Nat) → (before : List Json) → List Char → Option (Json × List Char)
  | 0, _, _, _ => none
  | fuel + 1, depth, before, text =>
    match document? fuel depth text with
    | none => none
    | some (item, text) =>
      match skipBlanks text with
      | ']' :: text => some (.array (item :: before).reverse, text)
      | ',' :: text => items? fuel depth (item :: before) (skipBlanks text)
      | _ => none

/-- The fields of an object from the next one on, added to those in `before`. -/
def fields? : (fuel depth : Nat) → (before : List (String × Json)) → List Char →
    Option (Json × List Char)
  | 0, _, _, _ => none
  | fuel + 1, depth, before, text =>
    match text with
    | '"' :: text =>
      match stringFrom? [] fuel text with
      | none => none
      | some (name, text) =>
        match skipBlanks text with
        | ':' :: text =>
          match document? fuel depth (skipBlanks text) with
          | none => none
          | some (item, text) =>
            let fields := insertField name item before
            match skipBlanks text with
            | '\x7d' :: text => some (.object fields, text)
            | ',' :: text => fields? fuel depth fields (skipBlanks text)
            | _ => none
        | _ => none
    | _ => none

end

/-- The document that a text spells, with blanks around it. -/
def parse? (text : String) : Option Json :=
  let chars := text.toList
  match document? (2 * chars.length + 2) deepest (skipBlanks chars) with
  | some (j, rest) => if (skipBlanks rest).isEmpty then some j else none
  | none => none

end PackedRecord.Json
