import PackedRecord.Proofs.Floats
import PackedRecord.Proofs.Records
import PackedRecord.Proofs.Strings

/-!
# Records know where they end

Every field is a delimited reading (`Read.Delimited`): what it yields depends
on its own bytes only, and any beginning of them is recognised as cut short.
So is a record, since delimited readings follow one another
(`Decoder.delimited_record`).

One field is an exception by choice. A text that may run to the end of the
data has no end of its own, which is why the policy on unterminated strings
has to be the strict one.
-/

namespace PackedRecord

namespace Decoder

variable {options : Options}

theorem delimited_field (hreject : options.unterminatedStrings = .reject) (order : ByteOrder)
    (op : Operation) : Read.Delimited (field options order op) := by
  cases op with
  | byteOrder next => exact .pure none
  | padding n => exact (Read.Delimited.skip n).map fun _ => none
  | bool => exact SingleBool.delimited_decode.map _
  | bitArray count => exact (Bits.delimited_decode count).map _
  | countedBits p => exact (Bits.delimited_decodeCounted p order).map _
  | integer width signed => exact (FixedInt.delimited_decode order width signed).map _
  | float width => exact (FloatField.delimited_decode order width).map _
  | taggedFloat => exact TaggedFloat.delimited_decode.map _
  | signedVarint => exact Zigzag.delimited_decode.map _
  | unsignedVarint => exact Varint.delimited_decode.map _
  | terminatedString => exact (StringField.delimited_decodeTerminated hreject).map _
  | countedString p => exact (StringField.delimited_decodeCounted p order options.invalidUtf8).map _
  | fixedString size => exact (StringField.delimited_decodeFixed size options.invalidUtf8).map _
  | fixedBytes size => exact (Read.Delimited.bytes size).map _
  | countedBytes p => exact (Blob.delimited_decodeCounted p order).map _

theorem delimited_record (hreject : options.unterminatedStrings = .reject) :
    ∀ (order : ByteOrder) (ops : List Operation), Read.Delimited (record options order ops)
  | _, [] => .pure []
  | order, op :: ops =>
      (delimited_field hreject order op).bind fun v? =>
        (delimited_record hreject (op.orderAfter order) ops).map fun values => v?.toList ++ values

end Decoder

namespace Format

/-- A record is the same wherever its bytes stand, and no beginning of them is a record. -/
theorem unpack_delimited {format : Format} {data : List UInt8} {offset next : Nat}
    {options : Options} {values : List Value}
    (hreject : options.unterminatedStrings = .reject)
    (hunpack : format.unpack data offset options = .ok ⟨values, next⟩) :
    offset ≤ next ∧ next ≤ data.length
      ∧ (∀ (data' : List UInt8) (offset' : Nat), offset' + (next - offset) ≤ data'.length →
        (data'.drop offset').take (next - offset) = (data.drop offset).take (next - offset) →
        format.unpack data' offset' options = .ok ⟨values, offset' + (next - offset)⟩)
      ∧ ∀ m, offset ≤ m → m < next →
        ∃ err, format.unpack (data.take m) offset options = .error err ∧ err.isCutShort = true := by
  obtain ⟨hoffset, rest, hrecord⟩ := unpack_eq_ok_iff.mp hunpack
  obtain ⟨field, hsplit, hnext, hreads, hshort⟩ :=
    Decoder.delimited_record hreject .little format.operations hrecord
  have hsplit : data.drop offset = field ++ rest := hsplit
  have hnext : next = offset + field.length := hnext
  have hlength : next - offset = field.length := by omega
  have hdata : data.length - offset = field.length + rest.length := by
    rw [← List.length_drop, hsplit, List.length_append]
  have hfield : (data.drop offset).take (next - offset) = field := by
    rw [hsplit, hlength, List.take_left]
  refine ⟨by omega, by omega, ?_, ?_⟩
  · intro data' offset' hfits hsame
    rw [hfield, hlength] at hsame
    have hsplit' : data'.drop offset' = field ++ data'.drop (offset' + field.length) := by
      rw [← List.drop_drop]
      conv => lhs; rw [← List.take_append_drop field.length (data'.drop offset'), hsame]
    have hrecord' := hreads offset' (data'.drop (offset' + field.length))
    rw [← hsplit'] at hrecord'
    rw [hlength]
    exact unpack_of_ok (by omega) hrecord'
  · intro m hle hlt
    have hbegun : (data.take m).drop offset = field.take (m - offset) := by
      rw [List.drop_take, hsplit, List.take_append_of_le_length (by omega)]
    have hmissing : field.drop (m - offset) ≠ [] := by
      intro hnil
      have hge := List.drop_eq_nil_iff.mp hnil
      omega
    obtain ⟨err, r, herror, hcut⟩ := hshort offset _ _
      (List.take_append_drop (m - offset) field).symm hmissing
    refine ⟨err, unpack_of_error (r := r) ?_ ?_, hcut⟩
    · rw [List.length_take]
      omega
    · rw [hbegun]
      exact herror

/-- A record cut inside its tagged float, and the same record elsewhere. -/
theorem unpack_delimited_sample :
    unpack ⟨[.byteOrder .big, .countedString (.fixed ⟨2, by decide, by decide⟩), .taggedFloat]⟩
        [0, 2, 0x68, 0x69, 1, 0, 0x3C, 7] 0 .strict
        = .ok ⟨[.str "hi", .float 0x3FF0000000000000], 7⟩
      ∧ ∃ err, unpack ⟨[.byteOrder .big, .countedString (.fixed ⟨2, by decide, by decide⟩),
        .taggedFloat]⟩ [9, 0, 2, 0x68, 0x69, 1] 1 .strict = .error err ∧ err.isCutShort = true := by
  have hunpack : unpack ⟨[.byteOrder .big, .countedString (.fixed ⟨2, by decide, by decide⟩),
      .taggedFloat]⟩ [9, 0, 2, 0x68, 0x69, 1, 0, 0x3C] 1 .strict
      = .ok ⟨[.str "hi", .float 0x3FF0000000000000], 8⟩ := by decide +kernel
  obtain ⟨-, -, helsewhere, hcut⟩ := unpack_delimited rfl hunpack
  exact ⟨helsewhere [0, 2, 0x68, 0x69, 1, 0, 0x3C, 7] 0 (by decide) rfl,
    hcut 6 (by decide) (by decide)⟩

end Format
end PackedRecord
