/-!
# Options

Three independent policies, each with a strict and a lenient setting. The
strict setting of each is the default; a lenient one turns one particular
error into a success and touches nothing else.
-/

namespace PackedRecord

/-- What to do with values left over after the last field. -/
inductive ExtraValues where
  | reject
  | ignore
deriving DecidableEq, Inhabited

/-- What to do when a zero-terminated string runs to the end of the data. -/
inductive UnterminatedStrings where
  | reject
  | accept
deriving DecidableEq, Inhabited

/-- What to do with string bytes that are no UTF-8. -/
inductive Utf8Policy where
  | strict
  | lossy
deriving DecidableEq, Inhabited

/-- The policies of one packing, unpacking or sizing run. -/
structure Options where
  extraValues : ExtraValues := .reject
  unterminatedStrings : UnterminatedStrings := .reject
  invalidUtf8 : Utf8Policy := .strict
deriving DecidableEq, Inhabited

namespace Options

/-- Rejects whatever is questionable. -/
def strict : Options := {}

/-- Accepts whatever can be accepted. -/
def lenient : Options := ⟨.ignore, .accept, .lossy⟩

end Options
end PackedRecord
