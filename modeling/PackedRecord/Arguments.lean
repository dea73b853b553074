import PackedRecord.Format.Operation

/-!
# Arguments

Packing and sizing take the supplied values one after another. A value of the
wrong kind is an error but stays taken; a missing one changes nothing. What is
left over at the end is the business of the options.
-/

namespace PackedRecord

/-- The values not yet taken, and how many were. -/
structure Arguments where
  taken : Nat
  rest : List Value
deriving DecidableEq

/-- A computation that takes values and may fail. -/
abbrev Taking := EStateM Error Arguments

namespace Arguments

def ofValues (values : List Value) : Arguments := ⟨0, values⟩

/-- The next value, which has to be of a kind and is seen through that kind's
accessor. -/
def take {α : Type} (op : Operation) (kind : Kind) (view : Value → Option α) : Taking α :=
  fun args => match args.rest with
  | [] => .error (.missingArgument args.taken op.opcode) args
  | v :: rest =>
    let args' : Arguments := ⟨args.taken + 1, rest⟩
    match view v with
    | some a => .ok a args'
    | none => .error (.typeMismatch args.taken op.opcode kind v.kind) args'

def takeBool (op : Operation) : Taking Bool := take op .bool Value.bool?
def takeBools (op : Operation) : Taking (List Bool) := take op .bools Value.bools?
def takeInt (op : Operation) : Taking Int64 := take op .int Value.int?
def takeFloat (op : Operation) : Taking UInt64 := take op .float Value.float?
def takeStr (op : Operation) : Taking String := take op .str Value.str?
def takeBytes (op : Operation) : Taking (List UInt8) := take op .bytes Value.bytes?

/-- Fails on the result of a computation that takes no value. -/
def ofExcept {α : Type} : Except Error α → Taking α
  | .ok a => fun args => .ok a args
  | .error e => fun args => .error e args

/-- Applies the policy on values that no operation took. -/
def finish (options : Options) (args : Arguments) : Except Error Unit :=
  if args.rest.isEmpty then .ok ()
  else match options.extraValues with
    | .ignore => .ok ()
    | .reject => .error (.extraArguments args.taken (args.taken + args.rest.length))

end Arguments
end PackedRecord
