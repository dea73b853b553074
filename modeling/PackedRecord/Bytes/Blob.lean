import PackedRecord.Bytes.LengthPrefix

/-!
# Blobs

Raw bytes, in a field of a fixed size or behind their length. A fixed field
is filled up with zeros or cut; reading it keeps the filling, since nothing
tells it from the content.
-/

namespace PackedRecord.Blob

/-- Exactly `size` bytes. -/
def encodeFixed (size : Nat) (content : List UInt8) : List UInt8 :=
  let kept := content.take size
  kept ++ List.replicate (size - kept.length) 0

def writeFixed (size : Nat) (content : List UInt8) : Write Unit := do
  let kept := content.take size
  Write.bytes kept
  Write.zeros (size - kept.length)

def decodeFixed (size : Nat) : Read (List UInt8) := Read.bytes size

/-- The length, then the bytes. -/
def encodeCounted (p : LengthPrefix) (order : ByteOrder) (content : List UInt8) :
    Except Error (List UInt8) := do
  return (← p.encode order content.length) ++ content

def writeCounted (p : LengthPrefix) (order : ByteOrder) (content : List UInt8) : Write Unit := do
  p.write order content.length
  Write.bytes content

def decodeCounted (p : LengthPrefix) (order : ByteOrder) : Read (List UInt8) := do
  let length ← p.decode order
  Read.bytes length

/-- How many bytes `writeCounted` writes for `length` bytes of content. -/
def countedLength (p : LengthPrefix) (length : Nat) : Nat :=
  p.encodedLength length + length

end PackedRecord.Blob
