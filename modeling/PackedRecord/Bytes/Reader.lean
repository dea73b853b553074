import PackedRecord.Error

/-!
# Reading bytes

A reader holds the bytes that are left and the position of the first of them
in the data. Positions are absolute, so errors and the end of a record point
into the data the caller supplied, wherever reading began.

A reading (`Read`) either succeeds or fails, and in both cases leaves a
reader. A reading that checks its length first fails without moving; one that
consumed something before it failed stays behind what it consumed.
-/

namespace PackedRecord

structure Reader where
  position : Nat
  rest : List UInt8
deriving DecidableEq

/-- A computation that consumes bytes and may fail. -/
abbrev Read := EStateM Error Reader

namespace Reader

/-- A reader over `data` from `offset`, which may be the end but not beyond. -/
def start (data : List UInt8) (offset : Nat) : Except Error Reader :=
  if data.length < offset then .error (.offsetOutOfRange offset data.length)
  else .ok ⟨offset, data.drop offset⟩

def remaining (r : Reader) : Nat := r.rest.length

end Reader

namespace Read

def fail {α : Type} (e : Error) : Read α := fun r => .error e r

/-- The position of the next byte. -/
def position : Read Nat := fun r => .ok r.position r

/-- A result found without reading. -/
def ofExcept {α : Type} : Except Error α → Read α
  | .ok a => fun r => .ok a r
  | .error e => fail e

/-- Fails unless `n` bytes are left. -/
def ensure (n : Nat) : Read Unit := fun r =>
  if r.remaining < n then .error (.unexpectedEnd r.position n r.remaining) r
  else .ok () r

def byte : Read UInt8 := fun r =>
  match r.rest with
  | [] => .error (.unexpectedEnd r.position 1 0) r
  | b :: rest => .ok b ⟨r.position + 1, rest⟩

/-- The next `n` bytes. -/
def bytes (n : Nat) : Read (List UInt8) := do
  ensure n
  fun r => .ok (r.rest.take n) ⟨r.position + n, r.rest.drop n⟩

/-- Moves past `n` bytes. -/
def skip (n : Nat) : Read Unit := do
  ensure n
  fun r => .ok () ⟨r.position + n, r.rest.drop n⟩

/-- The bytes before the next zero, and whether there is one. The zero is
consumed; without one all that is left is. -/
def untilZero : Read (List UInt8 × Bool) := fun r =>
  let content := r.rest.takeWhile (· != 0)
  match r.rest.dropWhile (· != 0) with
  | [] => .ok (content, false) ⟨r.position + content.length, []⟩
  | _ :: rest => .ok (content, true) ⟨r.position + content.length + 1, rest⟩

end Read
end PackedRecord
