/-!
# Byte order

Numbers of a fixed width are written least or most significant byte first.
The native order is that of the host, which is little-endian here.
-/

namespace PackedRecord

inductive ByteOrder where
  | little
  | big
  | native
deriving DecidableEq

namespace ByteOrder

/-- The order a record starts with. -/
instance : Inhabited ByteOrder := ⟨.little⟩

/-- The native order replaced by the one it stands for. -/
def resolve : ByteOrder → ByteOrder
  | .native => .little
  | order => order

def isLittle (order : ByteOrder) : Bool := order.resolve = .little

/-- The character that selects the order. -/
def opcode : ByteOrder → Char
  | .little => '<'
  | .big => '>'
  | .native => '='

/-- Turns bytes in little-endian order into this order, and back. -/
def arrange (order : ByteOrder) (bytes : List UInt8) : List UInt8 :=
  if order.isLittle then bytes else bytes.reverse

@[simp] theorem arrange_arrange (order : ByteOrder) (bytes : List UInt8) :
    order.arrange (order.arrange bytes) = bytes := by
  unfold arrange; split <;> simp

@[simp] theorem length_arrange (order : ByteOrder) (bytes : List UInt8) :
    (order.arrange bytes).length = bytes.length := by
  unfold arrange; split <;> simp

end ByteOrder
end PackedRecord
