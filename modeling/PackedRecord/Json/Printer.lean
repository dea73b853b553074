import PackedRecord.Json.Basic
import PackedRecord.Text.Quoted

/-!
# JSON text

Writing a document, either without any blanks or laid out over lines with two
spaces a level. Strings escape the quote, the backslash and the controls
below the space, and nothing else. Floats have the fewest digits that read
back, positional up to the sixteenth place before the point and the fifth
behind it.
-/

namespace PackedRecord.Json

/-! ## Scalars -/

/-- Floats are positional from a hundred-thousandth up to below ten to the sixteenth. -/
def floatStyle : Decimal.Style := ⟨-5, 16⟩

/-- A finite float. -/
def floatText (pattern : UInt64) : List Char :=
  let f := Interchange.double
  let magnitude := f.magnitude pattern.toNat
  let sign := if f.sign pattern.toNat = 0 then [] else ['-']
  if magnitude = 0 then sign ++ ['0', '.', '0']
  else sign ++ Decimal.layout floatStyle (Decimal.shortest f magnitude)

def integerText (n : Int) : List Char :=
  (if n < 0 then ['-'] else []) ++ Nat.toDigits 10 n.natAbs

def numberText : Number → List Char
  | .integer n => integerText n
  | .float pattern => floatText pattern

/-- A character inside a string. -/
def escapedChar (c : Char) : List Char :=
  if c = '"' then ['\\', '"']
  else if c = '\\' then ['\\', '\\']
  else if c = '\x08' then ['\\', 'b']
  else if c = '\t' then ['\\', 't']
  else if c = '\n' then ['\\', 'n']
  else if c = '\x0c' then ['\\', 'f']
  else if c = '\r' then ['\\', 'r']
  else if c < ' ' then
    ['\\', 'u', '0', '0', Text.hexDigit (c.toNat / 16), Text.hexDigit (c.toNat % 16)]
  else [c]

def stringText (s : String) : List Char := '"' :: s.toList.flatMap escapedChar ++ ['"']

/-! ## Without blanks -/

mutual

def compactText : Json → List Char
  | .null => ['n', 'u', 'l', 'l']
  | .bool true => ['t', 'r', 'u', 'e']
  | .bool false => ['f', 'a', 'l', 's', 'e']
  | .number n => numberText n
  | .string s => stringText s
  | .array items => '[' :: [','].intercalate (compactItems [] items) ++ [']']
  | .object fields => '\x7b' :: [','].intercalate (compactFields [] fields) ++ ['\x7d']

/-- The texts of `items` behind those in `before` in reverse. -/
def compactItems (before : List (List Char)) : List Json → List (List Char)
  | [] => before.reverse
  | item :: rest => compactItems (compactText item :: before) rest

def compactFields (before : List (List Char)) : List (String × Json) → List (List Char)
  | [] => before.reverse
  | (name, item) :: rest =>
    compactFields ((stringText name ++ ':' :: compactText item) :: before) rest

end

/-- A document without blanks. -/
def compact (j : Json) : String := String.ofList (compactText j)

/-! ## Over lines -/

/-- The start of a line at a level. -/
def newLine (level : Nat) : List Char := '\n' :: List.replicate (2 * level) ' '

/-- Entries on lines of their own between two brackets; nothing between
brackets that hold nothing. -/
def bracketed (opening closing : Char) (level : Nat) (entries : List (List Char)) : List Char :=
  if entries.isEmpty then [opening, closing]
  else
    let inner := newLine (level + 1)
    opening :: inner ++ (',' :: inner).intercalate entries ++ newLine level ++ [closing]

mutual

def prettyText (level : Nat) : Json → List Char
  | .array items => bracketed '[' ']' level (prettyItems (level + 1) [] items)
  | .object fields => bracketed '\x7b' '\x7d' level (prettyFields (level + 1) [] fields)
  | .null => compactText .null
  | .bool b => compactText (.bool b)
  | .number n => compactText (.number n)
  | .string s => compactText (.string s)

def prettyItems (level : Nat) (before : List (List Char)) : List Json → List (List Char)
  | [] => before.reverse
  | item :: rest => prettyItems level (prettyText level item :: before) rest

def prettyFields (level : Nat) (before : List (List Char)) :
    List (String × Json) → List (List Char)
  | [] => before.reverse
  | (name, item) :: rest =>
    prettyFields level ((stringText name ++ ':' :: ' ' :: prettyText level item) :: before) rest

end

/-- A document over lines. -/
def pretty (j : Json) : String := String.ofList (prettyText 0 j)

end PackedRecord.Json
