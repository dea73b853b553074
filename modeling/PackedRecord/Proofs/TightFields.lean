import PackedRecord.Proofs.SelfDelimiting

/-!
# Fields that leave nothing open

Many values can be read from more than one field: a boolean from any byte
but zero, an integer from a varint with groups to spare, an array of bits
from a last byte whose other bits say nothing. Where nothing of that kind is
possible the field is *tight* (`Operation.isTight`), and then packing undoes
unpacking byte for byte, whatever was read (`Format.pack_restores`).

The lemmas are about readings that account for every byte they take:
`Read.Consumes x Made` says that what `x` took is a field `Made` of what it
yields. That is closed under sequencing (`Consumes.bind`), with the relation
growing from a codec over `Operation.Stores` for one operation to `Writes` for
a record. A codec contributes one equation, that its writing undoes its
reading, such as `FixedInt.encode_extend`, where a sign is extended and cut
off again, or `StringField.exactly_stripZeros`, where zeros are stripped and
filled in again.
-/

namespace PackedRecord

/-! ## Readings that account for what they take -/

namespace Read

variable {α β : Type}

/-- Whenever the reading succeeds, it took a field that is `Made` of what it yields. -/
def Consumes (x : Read α) (Made : α → List UInt8 → Prop) : Prop :=
  ∀ ⦃r r' : Reader⦄ ⦃a : α⦄, x r = .ok a r' →
    ∃ field, r.rest = field ++ r'.rest ∧ r'.position = r.position + field.length ∧ Made a field

namespace Consumes

theorem pure {a : α} {Made : α → List UInt8 → Prop} (h : Made a []) :
    Consumes (Pure.pure a) Made := by
  intro r r' a' hr
  cases hr
  exact ⟨[], rfl, rfl, h⟩

theorem imp {x : Read α} {Made Made' : α → List UInt8 → Prop} (hx : Consumes x Made)
    (h : ∀ a field, Made a field → Made' a field) : Consumes x Made' := by
  intro r r' a hr
  obtain ⟨field, hrest, hposition, hmade⟩ := hx hr
  exact ⟨field, hrest, hposition, h a field hmade⟩

theorem bind {x : Read α} {f : α → Read β} {Made : α → List UInt8 → Prop}
    {Made' : β → List UInt8 → Prop} (hx : Consumes x Made)
    (hf : ∀ a u, Made a u → Consumes (f a) fun b w => Made' b (u ++ w)) :
    Consumes (x >>= f) Made' := by
  intro r r' b h
  obtain ⟨a, r₁, hxr, hfr⟩ := bind_eq_ok.mp h
  obtain ⟨u, hu, hup, hmade⟩ := hx hxr
  obtain ⟨w, hw, hwp, hmade'⟩ := hf a u hmade hfr
  refine ⟨u ++ w, ?_, ?_, hmade'⟩
  · rw [hu, hw, List.append_assoc]
  · rw [hwp, hup, List.length_append, Nat.add_assoc]

theorem map {x : Read α} {g : α → β} {Made : α → List UInt8 → Prop}
    {Made' : β → List UInt8 → Prop} (hx : Consumes x Made)
    (h : ∀ a field, Made a field → Made' (g a) field) :
    Consumes (x >>= fun a => Pure.pure (g a)) Made' :=
  hx.bind fun a u hmade => pure (by rw [List.append_nil]; exact h a u hmade)

theorem position {k : Nat → Read α} {Made : α → List UInt8 → Prop}
    (h : ∀ p, Consumes (k p) Made) : Consumes (Read.position >>= k) Made :=
  fun r _ _ hr => h r.position hr

theorem bytes (n : Nat) :
    Consumes (Read.bytes n) fun content field => content.length = n ∧ field = content := by
  intro r r' content h
  have hlength := length_of_bytes h
  rw [bytes_eq] at h
  split at h
  · cases h
  · cases h
    exact ⟨_, (List.take_append_drop n r.rest).symm, by rw [hlength], hlength, rfl⟩

theorem byte : Consumes Read.byte fun b field => field = [b] := by
  rintro ⟨p, rest⟩ r' b h
  cases rest with
  | nil => cases h
  | cons c rest =>
      cases h
      exact ⟨[b], rfl, rfl, rfl⟩

theorem skip (n : Nat) : Consumes (Read.skip n) fun _ field => field.length = n := by
  intro r r' _ h
  rw [skip_eq] at h
  split at h
  · cases h
  · next hle =>
      have hlength : (r.rest.take n).length = n := by
        rw [List.length_take, Nat.min_eq_left (Nat.le_of_not_lt hle)]
      cases h
      exact ⟨_, (List.take_append_drop n r.rest).symm, by rw [hlength], hlength⟩

theorem ofExcept {result : Except Error α} :
    Consumes (Read.ofExcept result) fun a field => result = .ok a ∧ field = [] := by
  cases result with
  | ok a => exact pure ⟨rfl, rfl⟩
  | error e =>
      intro r r' a h
      cases h

end Consumes
end Read

/-! ## Codecs -/

namespace FixedInt

theorem consumes_decodeUnsigned (order : ByteOrder) (width : ByteWidth) :
    Read.Consumes (decodeUnsigned order width) fun n field =>
      n < width.limit ∧ field = encode order width n := by
  refine (Read.Consumes.bytes width.bytes).map ?_
  rintro _ field ⟨hlength, rfl⟩
  exact ⟨order.numberOf_arrange_lt hlength, (order.arrange_lowBytes hlength).symm⟩

theorem consumes_decode (order : ByteOrder) (width : ByteWidth) (signed : Bool) :
    Read.Consumes (decode order width signed) fun word field =>
      field = encode order width word.toUInt64.toNat := by
  refine (consumes_decodeUnsigned order width).map ?_
  rintro raw _ ⟨hlt, rfl⟩
  exact (encode_extend order signed hlt).symm

end FixedInt

namespace FloatField

/-- Only the 32-bit format changes what it loads: it makes a NaN quiet. -/
theorem consumes_decode (order : ByteOrder) {width : FloatWidth} (h : width ≠ .single) :
    Read.Consumes (decode order width) fun pattern field =>
      field = encode order width pattern := by
  refine (Read.Consumes.bytes width.bytes).map ?_
  rintro _ field ⟨hlength, rfl⟩
  have hlt := order.numberOf_arrange_lt hlength
  have hsettled : ∀ stored, width.settled stored = stored := by
    intro stored
    cases width with
    | single => exact absurd rfl h
    | half | double => rfl
  rw [encode, toNat_ofNat_of_lt (width.widen_lt hlt), width.narrow_widen hlt, hsettled,
    order.arrange_lowBytes hlength]

end FloatField

namespace Bits

/-- In a whole number of bytes no bit is left over. -/
theorem consumes_decode {count : Nat} (h : count % 8 = 0) :
    Read.Consumes (decode count) fun bits field => field = encode count bits := by
  refine (Read.Consumes.bytes (packedLength count)).map ?_
  rintro _ packed ⟨hlength, rfl⟩
  have hcount : (packed.flatMap unpackByte).length ≤ count := by
    rw [length_flatMap_unpackByte, hlength, packedLength]
    omega
  rw [encode, List.take_of_length_le hcount, List.take_of_length_le hcount, ← hlength,
    packAfter_flatMap]

end Bits

namespace Blob

theorem consumes_decodeFixed (size : Nat) :
    Read.Consumes (decodeFixed size) fun content field => field = encodeFixed size content := by
  refine (Read.Consumes.bytes size).imp ?_
  rintro content _ ⟨hlength, rfl⟩
  rw [encodeFixed_eq, exactly_of_length hlength]

end Blob

/-- A length of fixed width has one spelling. -/
theorem LengthPrefix.consumes_decode {p : LengthPrefix} (h : p ≠ .varint) (order : ByteOrder) :
    Read.Consumes (p.decode order) fun length field =>
      p.check length = .ok () ∧ field = p.field order length := by
  cases p with
  | varint => exact absurd rfl h
  | fixed width =>
      refine (FixedInt.consumes_decodeUnsigned order width).imp ?_
      exact fun length field ⟨hlt, hfield⟩ => ⟨check_fixed_eq_ok.mpr hlt, hfield⟩

theorem Blob.consumes_decodeCounted {p : LengthPrefix} (h : p ≠ .varint) (order : ByteOrder) :
    Read.Consumes (decodeCounted p order) fun content field =>
      encodeCounted p order content = .ok field := by
  refine (p.consumes_decode h order).bind ?_
  rintro length _ ⟨hcheck, rfl⟩
  refine (Read.Consumes.bytes length).imp ?_
  rintro content _ ⟨rfl, rfl⟩
  rw [encodeCounted_eq, LengthPrefix.map_check_eq_ok]
  exact ⟨hcheck, rfl⟩

namespace StringField

/-- A text of `n` bytes, from the bytes that `view` keeps of them. -/
theorem consumes_text (n : Nat) (view : List UInt8 → List UInt8) :
    Read.Consumes (Read.position >>= fun start =>
      Read.bytes n >>= fun content => Read.ofExcept (Utf8.read .strict start (view content)))
      fun text field => field.length = n ∧ view field = Utf8.bytes text := by
  refine Read.Consumes.position fun start => (Read.Consumes.bytes n).bind ?_
  rintro content _ ⟨hlength, rfl⟩
  refine Read.Consumes.ofExcept.imp ?_
  rintro text _ ⟨hread, rfl⟩
  rw [List.append_nil]
  exact ⟨hlength, Utf8.bytes_of_read hread⟩

theorem consumes_decodeCounted {p : LengthPrefix} (h : p ≠ .varint) (order : ByteOrder) :
    Read.Consumes (decodeCounted p order .strict) fun text field =>
      encodeCounted p order text = .ok field := by
  refine (p.consumes_decode h order).bind ?_
  rintro length _ ⟨hcheck, rfl⟩
  refine (consumes_text length id).imp ?_
  rintro text field ⟨rfl, hsame⟩
  rw [encodeCounted_eq, LengthPrefix.map_check_eq_ok, ← hsame]
  exact ⟨hcheck, rfl⟩

/-- The zeros that reading strips are those that writing fills in. -/
theorem consumes_decodeFixed (size : Nat) :
    Read.Consumes (decodeFixed size .strict) fun text field =>
      field = encodeFixed size text := by
  refine (consumes_text size stripZeros).imp ?_
  rintro text field ⟨hlength, hsame⟩
  have hencode : Utf8.encode text.toList = stripZeros field := hsame.symm
  have hfits : (Utf8.encode text.toList).length ≤ size := by
    rw [hencode, ← hlength]
    exact (List.rdropWhile_prefix _ field).length_le
  rw [encodeFixed, fitting_of_length_le hfits, Blob.encodeFixed_eq, hencode, exactly_stripZeros,
    exactly_of_length hlength]

theorem consumes_decodeTerminated {options : Options} (hstrict : options.invalidUtf8 = .strict)
    (hreject : options.unterminatedStrings = .reject) :
    Read.Consumes (decodeTerminated options) fun text field => field = encodeTerminated text := by
  rintro ⟨p, rest⟩ r' text h
  by_cases hmem : (0 : UInt8) ∈ rest
  · obtain ⟨content, after, rfl, hcontent⟩ := List.eq_append_cons_of_mem hmem
    rw [decodeTerminated_closed options hcontent, hstrict] at h
    obtain ⟨_, hrest, hposition, hread, rfl⟩ := Read.Consumes.ofExcept h
    have hrest : after = r'.rest := hrest
    have hposition : r'.position = p + content.length + 1 := hposition
    have hcontent : content = Utf8.bytes text := Utf8.bytes_of_read hread
    refine ⟨content ++ [0], by simp [hrest], by simp [hposition, Nat.add_assoc], ?_⟩
    rw [hcontent]
    rfl
  · rw [decodeTerminated_open options hmem, if_pos hreject] at h
    cases h

end StringField

/-! ## One field -/

/-- The operations of which a field is told by its value: no two fields read the same. -/
def Operation.isTight : Operation → Bool
  | .byteOrder _ | .integer .. | .terminatedString | .fixedString _ | .fixedBytes _ => true
  | .bitArray count => count % 8 = 0
  | .float width => width ≠ .single
  | .countedString p | .countedBytes p => p ≠ .varint
  | .padding _ | .bool | .countedBits _ | .taggedFloat | .signedVarint | .unsignedVarint => false

namespace Decoder

variable {options : Options}

/-- What a tight operation reads is the field it would write. -/
theorem consumes_field (hstrict : options.invalidUtf8 = .strict)
    (hreject : options.unterminatedStrings = .reject) (order : ByteOrder) {op : Operation}
    (htight : op.isTight = true) :
    Read.Consumes (field options order op) (op.Stores order) := by
  cases op with
  | byteOrder next => exact .pure (.byteOrder next)
  | integer width signed =>
      refine (FixedInt.consumes_decode order width signed).map ?_
      rintro word _ rfl
      exact .integer width signed word
  | bitArray count =>
      refine (Bits.consumes_decode (of_decide_eq_true htight)).map ?_
      rintro bits _ rfl
      exact .bitArray count bits
  | float width =>
      refine (FloatField.consumes_decode order (of_decide_eq_true htight)).map ?_
      rintro pattern _ rfl
      exact .float width pattern
  | terminatedString =>
      refine (StringField.consumes_decodeTerminated hstrict hreject).map ?_
      rintro text _ rfl
      exact .terminatedString text
  | countedString p =>
      rw [field, hstrict]
      refine (StringField.consumes_decodeCounted (of_decide_eq_true htight) order).map ?_
      exact fun text field hencode => .countedString hencode
  | fixedString size =>
      rw [field, hstrict]
      refine (StringField.consumes_decodeFixed size).map ?_
      rintro text _ rfl
      exact .fixedString size text
  | fixedBytes size =>
      refine (Blob.consumes_decodeFixed size).map ?_
      rintro content _ rfl
      exact .fixedBytes size content
  | countedBytes p =>
      refine (Blob.consumes_decodeCounted (of_decide_eq_true htight) order).map ?_
      exact fun content field hencode => .countedBytes hencode
  | padding _ | bool | countedBits _ | taggedFloat | signedVarint | unsignedVarint => cases htight

/-- A record of tight fields is read from the bytes it would write. -/
theorem consumes_record (hstrict : options.invalidUtf8 = .strict)
    (hreject : options.unterminatedStrings = .reject) :
    ∀ {ops : List Operation} (order : ByteOrder), (∀ op ∈ ops, op.isTight = true) →
    Read.Consumes (record options order ops) fun values taken =>
      ∃ fields, Writes order ops values fields ∧ taken = fields.flatten
  | [], order, _ => .pure ⟨[], .nil order, rfl⟩
  | op :: ops, order, htight => by
      have hhead := consumes_field hstrict hreject order (htight op List.mem_cons_self)
      have htail := consumes_record hstrict hreject (op.orderAfter order) fun op hop =>
        htight op (List.mem_cons_of_mem _ hop)
      refine hhead.bind fun v? field hstores => htail.map ?_
      rintro values _ ⟨fields, hwrites, rfl⟩
      exact ⟨field :: fields, .cons hstores hwrites, rfl⟩

end Decoder

/-! ## Records -/

namespace Format

/-- Packing what was unpacked from tight fields restores the bytes. -/
theorem pack_restores {format : Format} (htight : ∀ op ∈ format.operations, op.isTight = true)
    {data : List UInt8} {offset next : Nat} {options : Options} {values : List Value}
    (hstrict : options.invalidUtf8 = .strict) (hreject : options.unterminatedStrings = .reject)
    (hunpack : format.unpack data offset options = .ok ⟨values, next⟩)
    (hdata : data.length < UInt64.size) (packing : Options) :
    offset ≤ next ∧ next ≤ data.length
      ∧ format.pack values packing = .ok ((data.drop offset).take (next - offset)) := by
  obtain ⟨hoffset, rest, hrecord⟩ := unpack_eq_ok_iff.mp hunpack
  obtain ⟨_, hsplit, hnext, fields, hwrites, rfl⟩ :=
    Decoder.consumes_record hstrict hreject .little htight hrecord
  have hsplit : data.drop offset = fields.flatten ++ rest := hsplit
  have hnext : next = offset + fields.flatten.length := hnext
  have hsize : data.length - offset = fields.flatten.length + rest.length := by
    rw [← List.length_drop, hsplit, List.length_append]
  have hlength : next - offset = fields.flatten.length := by omega
  refine ⟨by omega, by omega, ?_⟩
  rw [hsplit, hlength, List.take_left]
  exact pack_of_writes hwrites (by omega) packing

/-- A signalling NaN, a number in either byte order, zeros inside a text and
behind it, and a negative zero. -/
theorem pack_restores_sample :
    pack ⟨[.float .half, .byteOrder .big, .integer ⟨3, by decide, by decide⟩ true, .fixedString 5,
        .bitArray 8, .countedString (.fixed ⟨2, by decide, by decide⟩), .float .half]⟩
      [.float 0xFFF0040000000000, .int (-2), .str "a\x00b",
        .bools [true, false, true, false, false, false, false, true], .str "hi",
        .float 0x8000000000000000] .lenient
      = .ok [0x01, 0xFC, 0xFF, 0xFF, 0xFE, 0x61, 0, 0x62, 0, 0, 0x85, 0, 2, 0x68, 0x69, 0x80,
        0] := by
  have hunpack : unpack ⟨[.float .half, .byteOrder .big,
        .integer ⟨3, by decide, by decide⟩ true, .fixedString 5, .bitArray 8,
        .countedString (.fixed ⟨2, by decide, by decide⟩), .float .half]⟩
      [9, 0x01, 0xFC, 0xFF, 0xFF, 0xFE, 0x61, 0, 0x62, 0, 0, 0x85, 0, 2, 0x68, 0x69, 0x80, 0, 7]
      1 .strict
      = .ok ⟨[.float 0xFFF0040000000000, .int (-2), .str "a\x00b",
        .bools [true, false, true, false, false, false, false, true], .str "hi",
        .float 0x8000000000000000], 18⟩ := by decide +kernel
  exact (pack_restores (by decide) rfl rfl hunpack (by decide) .lenient).2.2

end Format
end PackedRecord
