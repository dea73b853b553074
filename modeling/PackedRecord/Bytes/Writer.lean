import PackedRecord.Error

/-!
# Writing bytes

What is written goes behind all that was written before. A writing (`Write`)
may fail, and what it has written by then stays written.

Zeros are written by moving the end of the output. Where the end is going to
be is a 64-bit number, and so many zeros that the sum does not fit one bring it
back before the point where it was: then the output is cut there, and nothing
is added (`Write.zeros`).
-/

namespace PackedRecord

/-- A computation that adds to what was written before and may fail. -/
abbrev Write := EStateM Error (List UInt8)

namespace Write

/-- A result found without writing. -/
def ofExcept {α : Type} : Except Error α → Write α
  | .ok a => fun output => .ok a output
  | .error e => fun output => .error e output

def byte (b : UInt8) : Write Unit := fun output => .ok () (output ++ [b])

def bytes (new : List UInt8) : Write Unit := fun output => .ok () (output ++ new)

/-- The output with its end moved to `size`, over zeros if there is nothing. -/
def resize (size : Nat) (output : List UInt8) : List UInt8 :=
  if output.length < size then output ++ List.replicate (size - output.length) 0
  else output.take size

/-- Moves the end by `n` bytes, in the arithmetic of 64-bit numbers. -/
def zeros (n : Nat) : Write Unit := fun output =>
  .ok () (resize ((output.length + n) % UInt64.size) output)

end Write
end PackedRecord
