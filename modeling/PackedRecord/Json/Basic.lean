import PackedRecord.Decimal.Shortest

/-!
# JSON documents

A document as a tree. A number is either an integer of at most 64 bits, with
or without sign, or a finite float. The fields of an object have distinct
names and stand in ascending order.
-/

namespace PackedRecord

inductive Json.Number where
  | integer (n : Int)
  | float (pattern : UInt64)
deriving DecidableEq

inductive Json where
  | null
  | bool (b : Bool)
  | number (n : Json.Number)
  | string (text : String)
  | array (items : List Json)
  | object (fields : List (String × Json))

namespace Json

/-- An object's fields with one put in; a field of the same name is replaced. -/
def insertField (name : String) (item : Json) : List (String × Json) → List (String × Json)
  | [] => [(name, item)]
  | (other, old) :: rest =>
    if name = other then (name, item) :: rest
    else if name < other then (name, item) :: (other, old) :: rest
    else (other, old) :: insertField name item rest

/-- The object with these fields; of two with one name the later stays. -/
def ofFields (fields : List (String × Json)) : Json :=
  .object (fields.foldl (fun kept field => insertField field.1 field.2 kept) [])

def ofNat (n : Nat) : Json := .number (.integer n)

def ofInt (n : Int) : Json := .number (.integer n)

/-! ## What a document holds -/

def bool? : Json → Option Bool
  | .bool b => some b
  | _ => none

def string? : Json → Option String
  | .string text => some text
  | _ => none

def array? : Json → Option (List Json)
  | .array items => some items
  | _ => none

/-- An integer, not a float that happens to be whole. -/
def integer? : Json → Option Int
  | .number (.integer n) => some n
  | _ => none

end Json
end PackedRecord
