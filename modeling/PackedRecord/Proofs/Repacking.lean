import PackedRecord.Proofs.Prediction
import PackedRecord.Proofs.RoundTrip

/-!
# Packing what was unpacked

What is unpacked, from bytes in whatever spelling, packs again, and after that
it comes back bit for bit; only the negative zero of a tagged float has no
field of its own (`Format.pack_unpack`).

The new record need not be as long as the old one. A number in a varint may
have been longer than it has to be, but a NaN that was spelled in two bytes is
written in eight, and a text without its zero gets one. So a field can grow, by
no more than a zero or ten bytes for each that was read (`Operation.Regrows`), and
a record of data that is ten times shorter than the longest one always fits
(`Format.Fits`).
-/

namespace PackedRecord

/-! ## How much a field can grow -/

namespace LengthPrefix

/-- A length is written in at most ten bytes, and read from at least one. -/
theorem consumes_encodedLength (p : LengthPrefix) (order : ByteOrder) :
    Read.Consumes (p.decode order) fun length taken =>
      p.encodedLength length ≤ 10 * taken.length := by
  intro r r' length h
  obtain ⟨taken, hrest, hposition, hpos⟩ :=
    (p.delimited_decode order).consumes_pos (p.needsData_decode order) h
  refine ⟨taken, hrest, hposition, ?_⟩
  cases p with
  | varint =>
      have hmost : Varint.length length ≤ 10 := Varint.length_le_maxLength (Varint.decode_lt h)
      rw [encodedLength]
      omega
  | fixed width =>
      have hmost := width.le
      rw [encodedLength]
      omega

/-- What stands behind a length is written again in no more bytes. -/
theorem consumes_counted {α : Type} {p : LengthPrefix} {order : ByteOrder} {x : Nat → Read α}
    {size : α → Nat} {count : α → Nat}
    (hx : ∀ length, Read.Consumes (x length) fun a taken =>
      count a = length ∧ size a ≤ taken.length) :
    Read.Consumes (p.decode order >>= x) fun a taken =>
      p.encodedLength (count a) + size a ≤ 10 * taken.length := by
  refine (p.consumes_encodedLength order).bind fun length number hnumber => (hx length).imp ?_
  rintro a content ⟨rfl, hsize⟩
  rw [List.length_append]
  omega

end LengthPrefix

theorem TaggedFloat.length_encode_le (pattern : UInt64) : (encode pattern).length ≤ 10 := by
  rw [length_encode, length]
  cases width? pattern.toNat with
  | none => decide
  | some width => cases width <;> decide

theorem Varint.length_encode_le {n : Nat} (h : n < UInt64.size) : (encode n).length ≤ 10 := by
  rw [length_encode]
  exact length_le_maxLength h

theorem StringField.consumes_terminated {options : Options}
    (hstrict : options.invalidUtf8 = .strict) :
    Read.Consumes (decodeTerminated options) fun text taken =>
      (Utf8.bytes text).length ≤ taken.length := by
  rintro ⟨p, rest⟩ r' text h
  by_cases hmem : (0 : UInt8) ∈ rest
  · obtain ⟨content, after, rfl, hcontent⟩ := List.eq_append_cons_of_mem hmem
    rw [decodeTerminated_closed options hcontent, hstrict] at h
    obtain ⟨_, hrest, hposition, hread, rfl⟩ := Read.Consumes.ofExcept h
    have hrest : after = r'.rest := hrest
    have hposition : r'.position = p + content.length + 1 := hposition
    refine ⟨content ++ [0], by simp [hrest], by simp [hposition, Nat.add_assoc], ?_⟩
    simp only [← Utf8.bytes_of_read hread, List.length_append, Nat.le_add_right]
  · rw [decodeTerminated_open options hmem, hstrict] at h
    split at h
    · cases h
    · obtain ⟨_, hrest, hposition, hread, rfl⟩ := Read.Consumes.ofExcept h
      have hrest : [] = r'.rest := hrest
      have hposition : r'.position = p + rest.length := hposition
      refine ⟨rest, by simp [← hrest], hposition, ?_⟩
      simp only [← Utf8.bytes_of_read hread, Nat.le_refl]

/-- A value read from `taken` makes no field longer than this. -/
def Operation.Regrows (order : ByteOrder) (op : Operation) (v? : Option Value)
    (taken : List UInt8) : Prop :=
  ∀ field, op.Stores order v? field → field.length ≤ 10 * taken.length + v?.toList.length

namespace Decoder

variable {options : Options}

/-- A field of ten bytes at most, where at least one was read, and one of a fixed size. -/
theorem consumes_regrows_of_le (order : ByteOrder) {op : Operation} (hop : op ≠ .terminatedString)
    (h : op.fixedSize? = none → ∀ v? field, op.Stores order v? field → field.length ≤ 10) :
    Read.Consumes (field options order op) (op.Regrows order) := by
  have hpolicy : field options order op
      = field { options with unterminatedStrings := .reject } order op := by
    cases op <;> first | rfl | exact absurd rfl hop
  rw [hpolicy]
  refine (consumes_canTake rfl order op).imp fun v? taken htaken written hstores => ?_
  have hwritten := hstores.canTake
  rw [Operation.CanTake] at htaken hwritten
  cases hfixed : op.fixedSize? with
  | some n =>
      simp only [hfixed] at htaken hwritten
      omega
  | none =>
      simp only [hfixed] at htaken
      have hmost := h hfixed v? written hstores
      omega

theorem consumes_regrows (hstrict : options.invalidUtf8 = .strict) (order : ByteOrder)
    (op : Operation) : Read.Consumes (field options order op) (op.Regrows order) := by
  cases op with
  | taggedFloat =>
      refine consumes_regrows_of_le order (by rintro ⟨⟩) ?_
      rintro - v? _ ⟨⟩
      exact TaggedFloat.length_encode_le _
  | signedVarint =>
      refine consumes_regrows_of_le order (by rintro ⟨⟩) ?_
      rintro - v? _ ⟨⟩
      exact Varint.length_encode_le (UInt64.toNat_lt _)
  | unsignedVarint =>
      refine consumes_regrows_of_le order (by rintro ⟨⟩) ?_
      rintro - v? _ ⟨⟩
      exact Varint.length_encode_le (UInt64.toNat_lt _)
  | terminatedString =>
      refine (StringField.consumes_terminated hstrict).map ?_
      rintro text taken htaken _ ⟨⟩
      rw [StringField.length_encodeTerminated, StringField.terminatedLength]
      show _ ≤ 10 * taken.length + 1
      omega
  | countedBits p =>
      have hbits : ∀ count, Read.Consumes (Bits.decode count) fun bits taken =>
          bits.length = count ∧ Bits.packedLength bits.length ≤ taken.length := by
        intro count r r' bits h
        obtain ⟨taken, hrest, hposition, hlength⟩ :=
          (Read.Consumes.bytes_length (Bits.packedLength count)).map_length _ h
        have hcount := Bits.length_of_decode h
        exact ⟨taken, hrest, hposition, hcount, by rw [hcount, hlength]⟩
      refine (LengthPrefix.consumes_counted hbits).map fun bits taken htaken field hstores => ?_
      cases hstores with
      | countedBits h =>
          rw [Bits.encodeCounted_eq] at h
          rw [LengthPrefix.length_of_counted h, Bits.length_encode]
          exact Nat.le_add_right_of_le htaken
  | countedString p =>
      have htext : ∀ length, Read.Consumes (Read.position >>= fun start =>
          Read.bytes length >>= fun content =>
            Read.ofExcept (Utf8.read options.invalidUtf8 start content))
          fun text taken => (Utf8.bytes text).length = length
            ∧ (Utf8.bytes text).length ≤ taken.length := by
        intro length
        rw [hstrict]
        refine (StringField.consumes_text length id).imp ?_
        rintro text taken ⟨rfl, hsame⟩
        rw [← hsame]
        exact ⟨rfl, Nat.le_refl _⟩
      refine (LengthPrefix.consumes_counted htext).map fun text taken htaken field hstores => ?_
      cases hstores with
      | countedString h =>
          rw [StringField.encodeCounted_eq] at h
          rw [LengthPrefix.length_of_counted h]
          exact Nat.le_add_right_of_le htaken
  | countedBytes p =>
      have hcontent : ∀ length, Read.Consumes (Read.bytes length) fun content taken =>
          content.length = length ∧ content.length ≤ taken.length := by
        refine fun length => (Read.Consumes.bytes length).imp ?_
        rintro content _ ⟨hlength, rfl⟩
        exact ⟨hlength, Nat.le_refl _⟩
      refine (LengthPrefix.consumes_counted hcontent).map
        fun content taken htaken field hstores => ?_
      cases hstores with
      | countedBytes h =>
          rw [Blob.encodeCounted_eq] at h
          rw [LengthPrefix.length_of_counted h]
          exact Nat.le_add_right_of_le htaken
  | _ => exact consumes_regrows_of_le order (by rintro ⟨⟩) fun h => (by cases h)

/-- The values of a record that was read make one that has not grown by much. -/
theorem consumes_writes (hstrict : options.invalidUtf8 = .strict) :
    ∀ (ops : List Operation) (order : ByteOrder),
      Read.Consumes (record options order ops) fun values taken =>
        ∃ fields, Writes order ops values fields
          ∧ fields.flatten.length ≤ 10 * taken.length + values.length
  | [], order => .pure ⟨[], .nil order, Nat.le_refl 0⟩
  | op :: ops, order => by
      have hhead : Read.Consumes (field options order op) fun v? taken =>
          ∃ written, op.Stores order v? written
            ∧ written.length ≤ 10 * taken.length + v?.toList.length := by
        intro r r' v? h
        obtain ⟨taken, hrest, hposition, hregrows⟩ := consumes_regrows hstrict order op h
        obtain ⟨written, hstores, -⟩ := Operation.stores_of_decode hstrict h
        exact ⟨taken, hrest, hposition, written, hstores, hregrows written hstores⟩
      refine hhead.bind fun v? taken ⟨written, hstores, hwritten⟩ =>
        (consumes_writes hstrict ops (op.orderAfter order)).map ?_
      rintro values taken' ⟨fields, hwrites, hfields⟩
      refine ⟨written :: fields, .cons hstores hwrites, ?_⟩
      simp only [List.flatten_cons, List.length_append]
      omega

end Decoder

/-! ## Records -/

namespace Format

variable {format : Format} {data : List UInt8} {offset next : Nat} {values : List Value}
  {options : Options}

theorem fits_of_unpack (hstrict : options.invalidUtf8 = .strict)
    (h : format.unpack data offset options = .ok ⟨values, next⟩)
    (hdata : 10 * data.length + values.length < UInt64.size) : format.Fits values := by
  obtain ⟨hoffset, rest, hrecord⟩ := unpack_eq_ok_iff.mp h
  obtain ⟨taken, hsplit, -, fields, hwrites, hlength⟩ :=
    Decoder.consumes_writes hstrict format.operations .little hrecord
  have hsplit : data.drop offset = taken ++ rest := hsplit
  have htaken := congrArg List.length hsplit
  rw [List.length_drop, List.length_append] at htaken
  rw [← List.append_nil values]
  exact (fits_iff hwrites []).mpr (by omega)

/-- What was unpacked packs, and from then on comes back as it is, but for negative
zeros. Only of more data than this, which no machine can address, could the new record
be too long to fit. -/
theorem pack_unpack (hunpack : format.unpack data offset options = .ok ⟨values, next⟩)
    (hstrict : options.invalidUtf8 = .strict) (packing unpacking : Options) :
    values.map Value.kind = format.kinds
      ∧ (10 * data.length + values.length < UInt64.size → format.Fits values)
      ∧ ∃ packed, format.pack values packing = .ok packed
        ∧ (format.Fits values → Size.measure format values packing = .ok packed.length
          ∧ format.unpack packed 0 unpacking = .ok ⟨format.positiveZeros values, packed.length⟩
          ∧ format.pack (format.positiveZeros values) packing = .ok packed) := by
  obtain ⟨-, rest, hrecord⟩ := unpack_eq_ok_iff.mp hunpack
  obtain ⟨fields, hwrites, hall⟩ := Decoder.writes_of_record hstrict hrecord
  have hnormal : format.normal values = format.positiveZeros values := by
    rw [normal_eq_map, positiveZeros_eq_map]
    exact List.map_congr_left fun p hp => (hall p hp).2
  obtain ⟨packed, hpacked⟩ : ∃ packed, format.pack values packing = .ok packed :=
    ⟨_, pack_eq_ok_iff.mpr
      ⟨values, [], fields, (List.append_nil values).symm, hwrites, Or.inl rfl, rfl⟩⟩
  refine ⟨hwrites.kinds, fits_of_unpack hstrict hunpack, packed, hpacked, fun hfits => ?_⟩
  have hlength : fields.flatten.length < UInt64.size := by
    rw [← List.append_nil values] at hfits
    exact (fits_iff hwrites []).mp hfits
  have hpack := pack_of_writes hwrites hlength packing
  obtain rfl : packed = fields.flatten := Except.ok.inj (hpacked.symm.trans hpack)
  refine ⟨(measure_pack_agree format values packing).2.1 hfits _ hpack, ?_, ?_⟩
  · have hback := unpack_of_writes hwrites (fun p hp => (hall p hp).1) [] [] unpacking
    rw [List.nil_append, List.append_nil, List.length_nil, Nat.zero_add, hnormal] at hback
    exact hback
  · rw [← hnormal]
    exact pack_of_writes hwrites.normal hlength packing

/-- A boolean of two, a number in three bytes for one, a negative zero in full,
unused bits set, and a text without its zero. -/
theorem pack_unpack_sample :
    ∃ packed, pack ⟨[.bool, .unsignedVarint, .taggedFloat, .bitArray 3, .terminatedString]⟩
        [.bool true, .int 5, .float 0x8000000000000000, .bools [true, true, true], .str "h"] .strict
        = .ok packed
      ∧ unpack ⟨[.bool, .unsignedVarint, .taggedFloat, .bitArray 3, .terminatedString]⟩ packed 0
          .strict
        = .ok ⟨[.bool true, .int 5, .float 0, .bools [true, true, true], .str "h"],
          packed.length⟩ := by
  have hunpack : unpack ⟨[.bool, .unsignedVarint, .taggedFloat, .bitArray 3, .terminatedString]⟩
      [9, 2, 0x85, 0x80, 0, 3, 0, 0, 0, 0, 0, 0, 0, 0x80, 0xFF, 0x68] 1 ⟨.reject, .accept, .strict⟩
      = .ok ⟨[.bool true, .int 5, .float 0x8000000000000000, .bools [true, true, true], .str "h"],
        16⟩ := by decide +kernel
  obtain ⟨-, hfits, packed, hpack, hrepack⟩ := pack_unpack hunpack rfl .strict .strict
  obtain ⟨-, hback, -⟩ := hrepack (hfits (by decide))
  exact ⟨packed, hpack, hback⟩

end Format
end PackedRecord
