import PackedRecord.Text.Unprintable

/-!
# Quoted characters

How a message shows one character: in single quotes, as itself if it has a
picture, with a backslash and a letter for the five common controls and the
two characters that would confuse the quotes, and by its code point in
lowercase hexadecimal for everything else.
-/

namespace PackedRecord.Text

/-- The digit of weight one, `n < 16`. -/
def hexDigit (n : Nat) : Char :=
  if n < 10 then Char.ofNat (48 + n) else Char.ofNat (87 + n)

/-- The letter that stands behind the backslash. -/
def escapeLetter? : Char → Option Char
  | '\x00' => some '0'
  | '\t' => some 't'
  | '\r' => some 'r'
  | '\n' => some 'n'
  | '\'' => some '\''
  | '\\' => some '\\'
  | _ => none

/-- A character as messages show it, without the quotes. -/
def shown (c : Char) : List Char :=
  match escapeLetter? c with
  | some letter => ['\\', letter]
  | none =>
    if isUnprintable c then
      ['\\', 'u', '\x7b'] ++ Nat.toDigits 16 c.toNat ++ ['\x7d']
    else [c]

/-- A character as messages show it, in single quotes. -/
def quoted (c : Char) : String :=
  String.ofList ('\'' :: (shown c ++ ['\'']))

end PackedRecord.Text
