import PackedRecord.Error
import PackedRecord.Options

/-!
# UTF-8

Text is written as UTF-8 and lengths count its bytes. Reading cuts the bytes
into pieces (`Utf8.pieces`): characters, and maximal ill-formed subparts - the
longest beginning of a character that is there, or one byte that begins none.
Both readings of doubtful bytes come from the same pieces. The strict one
fails at the first ill-formed piece (`Utf8.fault?`); the lossy one writes the
replacement character for each (`Utf8.lossy`).

Overlong forms, surrogates and code points above the last one begin no
character: the range of the second byte depends on the first (`Utf8.lead?`).
-/

namespace PackedRecord.Utf8

/-! ## Writing -/

def encodeChar (c : Char) : List UInt8 :=
  let n := c.toNat
  if n < 0x80 then [.ofNat n]
  else if n < 0x800 then [.ofNat (0xC0 + n / 0x40), .ofNat (0x80 + n % 0x40)]
  else if n < 0x10000 then
    [.ofNat (0xE0 + n / 0x1000), .ofNat (0x80 + n / 0x40 % 0x40), .ofNat (0x80 + n % 0x40)]
  else
    [.ofNat (0xF0 + n / 0x40000), .ofNat (0x80 + n / 0x1000 % 0x40),
      .ofNat (0x80 + n / 0x40 % 0x40), .ofNat (0x80 + n % 0x40)]

def encode (text : List Char) : List UInt8 := text.flatMap encodeChar

/-- The bytes of a string. -/
def bytes (s : String) : List UInt8 := encode s.toList

/-! ## Reading one piece -/

/-- What a first byte announces: how many bytes follow, the bits it
contributes, and the range that the second byte must lie in. -/
structure Lead where
  more : Nat
  bits : Nat
  low : Nat
  high : Nat

/-- The announcement of a first byte that is not ASCII. -/
def lead? (b : Nat) : Option Lead :=
  if b < 0xC2 then none
  else if b < 0xE0 then some ⟨1, b - 0xC0, 0x80, 0xBF⟩
  else if b < 0xF0 then
    some ⟨2, b - 0xE0, if b = 0xE0 then 0xA0 else 0x80, if b = 0xED then 0x9F else 0xBF⟩
  else if b < 0xF5 then
    some ⟨3, b - 0xF0, if b = 0xF0 then 0x90 else 0x80, if b = 0xF4 then 0x8F else 0xBF⟩
  else none

/-- A piece of the bytes. -/
inductive Piece where
  | char (c : Char)
  /-- A maximal ill-formed subpart of `length` bytes; `atEnd` if it is the
  beginning of a character that the data cut short. -/
  | illFormed (length : Nat) (atEnd : Bool)
deriving DecidableEq

/-- Reads the bytes after the first one. `bits` holds what was read so far,
`read` counts it. -/
def follow : (more bits low high read : Nat) → List UInt8 → Piece × List UInt8
  | 0, bits, _, _, _, rest => (.char (Char.ofNat bits), rest)
  | _ + 1, _, _, _, read, [] => (.illFormed read true, [])
  | more + 1, bits, low, high, read, b :: rest =>
    if low ≤ b.toNat && b.toNat ≤ high then
      follow more (bits * 0x40 + (b.toNat - 0x80)) 0x80 0xBF (read + 1) rest
    else (.illFormed read false, b :: rest)

/-- The piece that starts with `b`, and the bytes after it. -/
def piece (b : UInt8) (rest : List UInt8) : Piece × List UInt8 :=
  if b.toNat < 0x80 then (.char (Char.ofNat b.toNat), rest)
  else match lead? b.toNat with
    | none => (.illFormed 1 false, rest)
    | some lead => follow lead.more lead.bits lead.low lead.high 1 rest

theorem follow_length_le (more bits low high read : Nat) (data : List UInt8) :
    (follow more bits low high read data).2.length ≤ data.length := by
  induction more generalizing bits low high read data with
  | zero => simp [follow]
  | succ more ih =>
    cases data with
    | nil => simp [follow]
    | cons b rest =>
      simp only [follow]
      split
      · exact Nat.le_trans (ih ..) (by simp)
      · simp

theorem piece_length_le (b : UInt8) (rest : List UInt8) :
    (piece b rest).2.length ≤ rest.length := by
  unfold piece
  split
  · simp
  · split
    · simp
    · exact follow_length_le ..

/-! ## Reading all -/

/-- The pieces of `data`, behind those in `before` in reverse. -/
def piecesAfter (before : List Piece) : (data : List UInt8) → List Piece
  | [] => before.reverse
  | b :: rest => piecesAfter ((piece b rest).1 :: before) (piece b rest).2
termination_by data => data.length
decreasing_by exact Nat.lt_succ_of_le (piece_length_le b rest)

def pieces (data : List UInt8) : List Piece := piecesAfter [] data

/-- Where strict reading stops. -/
structure Fault where
  /-- How many bytes before it are well formed. -/
  offset : Nat
  length : Nat
  atEnd : Bool
deriving DecidableEq

/-- The first ill-formed piece, `offset` bytes being before the first piece. -/
def faultAfter? (offset : Nat) : List Piece → Option Fault
  | [] => none
  | .char c :: rest => faultAfter? (offset + (encodeChar c).length) rest
  | .illFormed length atEnd :: _ => some ⟨offset, length, atEnd⟩

def fault? (data : List UInt8) : Option Fault := faultAfter? 0 (pieces data)

/-- The character a piece is read as when ill-formed bytes are replaced. -/
def Piece.replaced : Piece → Char
  | .char c => c
  | .illFormed .. => '\uFFFD'

/-- The text with every ill-formed piece replaced. -/
def lossy (data : List UInt8) : String :=
  String.ofList ((pieces data).map Piece.replaced)

/-- The text of well-formed bytes. -/
def decode (data : List UInt8) : Except Fault String :=
  match fault? data with
  | none => .ok (lossy data)
  | some fault => .error fault

/-- Reads a string under a policy. Errors point into the data that `content`
was taken from, at `offset`. -/
def read (policy : Utf8Policy) (offset : Nat) (content : List UInt8) : Except Error String :=
  match policy with
  | .lossy => .ok (lossy content)
  | .strict =>
    match decode content with
    | .ok text => .ok text
    | .error fault => .error (.invalidUtf8 (offset + fault.offset))

end PackedRecord.Utf8
