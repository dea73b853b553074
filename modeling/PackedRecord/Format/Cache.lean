import PackedRecord.Format.Parser

/-!
# Remembered formats

A cache hands out the format of a text and parses each text once. What it
hands out is shared: every parse gets a serial number of its own, so two
handed-out formats are one and the same object exactly if their numbers agree.
The numbers go on counting when the cache is cleared. Texts that spell no
format are not remembered.
-/

namespace PackedRecord

/-- A format as a cache hands it out. -/
structure SharedFormat where
  serial : Nat
  format : Format
deriving DecidableEq

structure FormatCache where
  /-- The formats by their texts, the latest first. -/
  entries : List (String × SharedFormat)
  hits : Nat
  misses : Nat
  nextSerial : Nat
deriving DecidableEq

namespace FormatCache

def empty : FormatCache := ⟨[], 0, 0, 0⟩

/-- How many texts are remembered. -/
def size (cache : FormatCache) : Nat := cache.entries.length

def isEmpty (cache : FormatCache) : Bool := cache.entries.isEmpty

/-- The format of a text, parsed if it is not remembered. -/
def get (cache : FormatCache) (text : String) : Except Error SharedFormat × FormatCache :=
  match cache.entries.lookup text with
  | some shared => (.ok shared, { cache with hits := cache.hits + 1 })
  | none =>
    match Format.parse text with
    | .error e => (.error e, cache)
    | .ok format =>
      let shared : SharedFormat := ⟨cache.nextSerial, format⟩
      (.ok shared, {
        entries := (text, shared) :: cache.entries
        hits := cache.hits
        misses := cache.misses + 1
        nextSerial := cache.nextSerial + 1 })

/-- Forgets every format and the counts. -/
def clear (cache : FormatCache) : FormatCache :=
  { empty with nextSerial := cache.nextSerial }

end FormatCache
end PackedRecord
