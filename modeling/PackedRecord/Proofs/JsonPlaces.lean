import PackedRecord.Proofs.DecoderHistory
import PackedRecord.Proofs.JsonValues
import PackedRecord.Proofs.Misfits

/-!
# Values at their places

A document is written and read place by place, and what is at a place depends
on the operation that takes the value there. The reader looks up the kind that
the operation takes (`Format.getElem?_kinds`), the writer whether it holds
unsigned numbers (`Format.getElem?_unsignedPlaces`). Both pass over the
operations that take no value, so both look at the same operation, however
byte orders and padding are mixed in.

So values of the kinds that a format takes come back from the document, and
that is what unpacking yields (`Format.kinds_of_unpack`). The sign is no part
of it: whether an integer is written with or without, it is read as the same 64
bits (`Format.json_faithful`).
-/

namespace PackedRecord

/-- Without its sign, a word is the number it is congruent to. -/
theorem toNat_toUInt64 (word : Int64) : (word.toUInt64.toNat : Int) = word.toInt % 2 ^ 64 := by
  have hlt := word.toUInt64.toNat_lt
  have hword : word.toInt = Int.bmod word.toUInt64.toNat (2 ^ 64) :=
    BitVec.toInt_eq_toNat_bmod word.toBitVec
  have hemod : Int.bmod word.toUInt64.toNat (2 ^ 64) % ((2 ^ 64 : Nat) : Int)
      = word.toUInt64.toNat % ((2 ^ 64 : Nat) : Int) := Int.bmod_emod
  rw [hword]
  omega

namespace Format

/-- The number that an integer is written as at a place. -/
def numberAt (format : Format) (place : Nat) (word : Int64) : Int :=
  if (Operation.takers format.operations)[place]?.any fun op => op.opcode = 'I' ∨ op.opcode = 'V'
  then word.toInt % 2 ^ 64 else word.toInt

/-! ## What is at a place -/

theorem getElem?_kinds (format : Format) (place : Nat) :
    format.kinds[place]? = (Operation.takers format.operations)[place]?.bind Operation.kind? := by
  obtain ⟨ops⟩ := format
  show (ops.filterMap Operation.kind?)[place]? = _
  induction ops generalizing place with
  | nil => rfl
  | cons op ops ih =>
      cases hkind : op.kind? with
      | none => rw [List.filterMap_cons_none hkind, Operation.takers_pass hkind, ih]
      | some kind =>
          have htakes : op.kind?.isSome = true := by rw [hkind]; rfl
          rw [List.filterMap_cons_some hkind, Operation.takers_cons htakes]
          cases place with
          | zero => exact hkind.symm
          | succ place => exact ih place

theorem getElem?_unsignedPlaces (format : Format) (place : Nat) :
    format.unsignedPlaces[place]?.getD false
      = (Operation.takers format.operations)[place]?.any fun op =>
        op.opcode = 'I' ∨ op.opcode = 'V' := by
  rw [unsignedPlaces, List.getElem?_map]
  show Option.getD (((Operation.takers format.operations)[place]?).map _) false = _
  cases (Operation.takers format.operations)[place]? with
  | none => rfl
  | some op =>
      cases op with
      | integer width signed => cases signed <;> rfl
      | byteOrder order => cases order <;> rfl
      | countedString p => cases p <;> rfl
      | _ => rfl

/-! ## Writing -/

theorem getElem?_jsonOfValues {format : Format} {values : List Value} {place : Nat} {word : Int64}
    (h : values[place]? = some (.int word)) :
    (renderFrom [] format.unsignedPlaces values)[place]?
      = some (.ofInt (format.numberAt place word)) := by
  rw [getElem?_renderFrom, h, getElem?_unsignedPlaces, numberAt]
  cases (Operation.takers format.operations)[place]?.any fun op =>
      op.opcode = 'I' ∨ op.opcode = 'V' with
  | false => rfl
  | true => exact congrArg (fun n => some (Json.ofInt n)) (toNat_toUInt64 word)

/-- No place has its own sign if none is asked for. -/
theorem map_toJson (values : List Value) :
    values.map (Value.toJson false) = renderFrom [] [] values := by
  induction values with
  | nil => rfl
  | cons v values ih => rw [renderFrom_cons, List.map_cons, ih]; rfl

/-! ## Reading -/

/-- What is unpacked, under whatever policies, has the kinds that the format takes. -/
theorem kinds_of_unpack {format : Format} {data : List UInt8} {offset next : Nat}
    {options : Options} {values : List Value}
    (h : format.unpack data offset options = .ok ⟨values, next⟩) :
    values.map Value.kind = format.kinds := by
  obtain ⟨hoffset, rest, hrecord⟩ := unpack_eq_ok_iff.mp h
  obtain ⟨last, hrun⟩ := Decoder.runAfter_of_ok [] hrecord
  exact (Decoder.runAfter_eq_ok hrun).1

/-- Values of the kinds that a format takes, as unpacking yields them, come
back from both documents, but for the NaNs, which all have one name. An integer
is written without sign exactly where the format has an unsigned number. -/
theorem json_faithful (format : Format) :
    (∀ data offset options values next,
        format.unpack data offset options = .ok ⟨values, next⟩ →
        values.map Value.kind = format.kinds)
      ∧ (∀ values, values.map Value.kind <+: format.kinds →
        format.valuesOfJson (format.jsonOfValues values) = .ok (values.map Value.withNamedNaN)
          ∧ format.valuesOfJson (Value.listToJson values)
            = .ok (values.map Value.withNamedNaN))
      ∧ ∀ values, ∃ items, format.jsonOfValues values = .array items
        ∧ items.length = values.length
        ∧ ∀ (place : Nat) word, values[place]? = some (.int word) →
          items[place]? = some (.number (.integer (format.numberAt place word))) := by
  refine ⟨fun data offset options values next => kinds_of_unpack, fun values hkinds => ⟨?_, ?_⟩,
    fun values => ⟨_, rfl, length_renderFrom _ values, fun place word => getElem?_jsonOfValues⟩⟩
  · exact valuesOfJson_renderFrom hkinds format.unsignedPlaces
  · rw [Value.listToJson, map_toJson]
    exact valuesOfJson_renderFrom hkinds []

/-- All bits set, in an unsigned field and in a signed one behind padding, a
signalling NaN, and an array without elements where no further value is given. -/
theorem json_faithful_sample :
    ∃ items, jsonOfValues ⟨[.byteOrder .big, .integer ⟨8, by decide, by decide⟩ false, .padding 3,
          .integer ⟨8, by decide, by decide⟩ true, .float .half, .countedBytes .varint, .bool]⟩
        [.int (-1), .int (-1), .float 0x7FF0040000000000, .bytes []] = .array items
      ∧ items[0]? = some (.number (.integer 0xFFFFFFFFFFFFFFFF))
      ∧ items[1]? = some (.number (.integer (-1)))
      ∧ valuesOfJson ⟨[.byteOrder .big, .integer ⟨8, by decide, by decide⟩ false, .padding 3,
          .integer ⟨8, by decide, by decide⟩ true, .float .half, .countedBytes .varint, .bool]⟩
        (.array items)
        = .ok [.int (-1), .int (-1), .float 0x7FF8000000000000, .bytes []] := by
  obtain ⟨-, hback, hplaces⟩ := json_faithful ⟨[.byteOrder .big,
    .integer ⟨8, by decide, by decide⟩ false, .padding 3,
    .integer ⟨8, by decide, by decide⟩ true, .float .half, .countedBytes .varint, .bool]⟩
  obtain ⟨items, hitems, -, hnumbers⟩ :=
    hplaces [.int (-1), .int (-1), .float 0x7FF0040000000000, .bytes []]
  have hread := (hback [.int (-1), .int (-1), .float 0x7FF0040000000000, .bytes []]
    ⟨[.bool], by decide⟩).1
  rw [hitems] at hread
  exact ⟨items, hitems, hnumbers 0 (-1) rfl, hnumbers 1 (-1) rfl, hread⟩

end Format
end PackedRecord
