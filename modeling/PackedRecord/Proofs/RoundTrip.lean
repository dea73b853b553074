import PackedRecord.Normal
import PackedRecord.Proofs.Records

/-!
# Round trips

What is packed comes back in its normal form, from anywhere inside other
data, and the normal form packs to the same bytes (`Format.unpack_pack`). This
is read off the derivation of the record (`Writes`). For one field the codecs
give that it reads as the normal form (`Operation.Stores.reads`) and that the
normal form makes the same field (`Operation.Stores.normal`). The first has a
side condition, `Operation.Admits`: a zero inside a text closes it too early,
and a varint has no length beyond 64 bits.

Conversely what is unpacked makes a record again (`Decoder.writes_of_record`),
and always one that can be read back (`Operation.stores_of_decode`).

The normal form speaks of values alone. What it shares with the codecs is the
rounding of floats and `StringField.fitting`; that the latter is the longest
run of whole characters with room in the buffer is
`StringField.prefix_fitting_iff`.
-/

namespace PackedRecord

/-- The number of elements or bytes behind a length. -/
def Value.length : Value → Nat
  | .bools bits => bits.length
  | .str text => (Utf8.bytes text).length
  | .bytes content => content.length
  | _ => 0

/-- The values with the operations that take them. -/
def Format.assigned (format : Format) (values : List Value) : List (Operation × Value) :=
  (format.operations.filter fun op => op.kind?.isSome).zip values

namespace Operation

/-- What a value has to satisfy to be read back from the field it makes. -/
def Admits : Operation → Value → Prop
  | .terminatedString, .str text => '\x00' ∉ text.toList
  | .countedBits _, .bools bits => bits.length < UInt64.size
  | .countedString _, .str text => (Utf8.bytes text).length < UInt64.size
  | .countedBytes _, .bytes content => content.length < UInt64.size
  | _, _ => True

/-- The value with the negative zero of a tagged float replaced by the positive one. -/
def positiveZero : Operation → Value → Value
  | .taggedFloat, .float pattern => .float (if pattern = 0x8000000000000000 then 0 else pattern)
  | _, v => v

theorem admits_of_length {op : Operation} {v : Value}
    (hzero : op = .terminatedString → ∀ text, v = .str text → '\x00' ∉ text.toList)
    (hlength : v.length < UInt64.size) : op.Admits v := by
  unfold Admits
  split
  · exact hzero rfl _ rfl
  · exact hlength
  · exact hlength
  · exact hlength
  · trivial

/-! ## One field -/

theorem forall_none {α : Type} {p : α → Prop} : ∀ x ∈ none, p x := by
  rintro x ⟨⟩

theorem forall_some {α : Type} {p : α → Prop} {a : α} (h : p a) : ∀ x ∈ some a, p x := by
  rintro x ⟨⟩
  exact h

variable {order : ByteOrder} {op : Operation} {v? : Option Value} {field : List UInt8}

theorem Stores.isSome_kind (h : op.Stores order v? field) : op.kind?.isSome = v?.isSome := by
  cases h <;> rfl

/-- A field reads as the normal form of its value. -/
theorem Stores.reads (h : op.Stores order v? field) (hadmits : ∀ v ∈ v?, op.Admits v)
    (options : Options) :
    Read.Reads (Decoder.field options order op) field (v?.map op.normal) := by
  cases h with
  | byteOrder next => exact .pure none
  | padding n => exact (Read.Reads.skip List.length_replicate).map fun _ => none
  | bool b => exact (SingleBool.reads_decode b).map fun b => some (Value.bool b)
  | bitArray count bits =>
      exact (Bits.reads_decode count bits).map fun bits => some (Value.bools bits)
  | @countedBits p bits field h =>
      rw [Bits.encodeCounted_eq, LengthPrefix.map_check_eq_ok] at h
      obtain ⟨hcheck, rfl⟩ := h
      have hlength : bits.length < UInt64.size := hadmits _ rfl
      exact (Bits.reads_decodeCounted order hcheck hlength).map fun bits => some (Value.bools bits)
  | integer width signed word =>
      exact (FixedInt.reads_decode order width signed word).map fun word => some (Value.int word)
  | float width pattern =>
      exact (FloatField.reads_decode order width pattern).map fun pattern =>
        some (Value.float pattern)
  | taggedFloat pattern =>
      exact (TaggedFloat.reads_decode pattern).map fun pattern => some (Value.float pattern)
  | signedVarint word => exact (Zigzag.reads_decode word).map fun word => some (Value.int word)
  | unsignedVarint word =>
      have hreads := (Varint.reads_decode word.toUInt64.toNat_lt).map fun n =>
        some (Value.ofUnsigned (.ofNat n))
      rw [UInt64.ofNat_toNat] at hreads
      exact hreads
  | terminatedString text =>
      have hzero : '\x00' ∉ text.toList := hadmits _ rfl
      exact (StringField.reads_decodeTerminated options hzero).map fun text =>
        some (Value.str text)
  | @countedString p text field h =>
      rw [StringField.encodeCounted_eq, LengthPrefix.map_check_eq_ok] at h
      obtain ⟨hcheck, rfl⟩ := h
      have hlength : (Utf8.bytes text).length < UInt64.size := hadmits _ rfl
      exact (StringField.reads_decodeCounted order options.invalidUtf8 hcheck hlength).map
        fun text => some (Value.str text)
  | fixedString size text =>
      exact (StringField.reads_decodeFixed size options.invalidUtf8 text).map fun text =>
        some (Value.str text)
  | fixedBytes size content =>
      exact (Blob.reads_decodeFixed size content).map fun content => some (Value.bytes content)
  | @countedBytes p content field h =>
      rw [Blob.encodeCounted_eq, LengthPrefix.map_check_eq_ok] at h
      obtain ⟨hcheck, rfl⟩ := h
      have hlength : content.length < UInt64.size := hadmits _ rfl
      exact (Blob.reads_decodeCounted order hcheck hlength).map fun content =>
        some (Value.bytes content)

/-- The normal form makes the same field. -/
theorem Stores.normal (h : op.Stores order v? field) :
    op.Stores order (v?.map op.normal) field := by
  cases h with
  | bitArray count bits =>
      rw [← Bits.encode_exactly count bits]
      exact .bitArray count (exactly count false bits)
  | integer width signed word =>
      rw [← FixedInt.encode_reduce order width signed word]
      exact .integer width signed (Int64.ofInt (width.reduce signed word.toInt))
  | float width pattern =>
      rw [← FloatField.encode_kept order width pattern]
      exact .float width (FloatField.kept width pattern)
  | taggedFloat pattern =>
      rw [← TaggedFloat.encode_kept pattern]
      exact .taggedFloat (TaggedFloat.kept pattern)
  | fixedString size text =>
      rw [← StringField.encodeFixed_kept size text]
      exact .fixedString size _
  | fixedBytes size content =>
      have hsame : Blob.encodeFixed size (exactly size 0 content)
          = Blob.encodeFixed size content := by
        rw [Blob.encodeFixed_eq, exactly_exactly, ← Blob.encodeFixed_eq]
      rw [← hsame]
      exact .fixedBytes size (exactly size 0 content)
  | byteOrder next => exact .byteOrder next
  | padding n => exact .padding n
  | bool b => exact .bool b
  | countedBits h => exact .countedBits h
  | signedVarint word => exact .signedVarint word
  | unsignedVarint word => exact .unsignedVarint word
  | terminatedString text => exact .terminatedString text
  | countedString h => exact .countedString h
  | countedBytes h => exact .countedBytes h

/-- What the decoder yields makes a field again, and one that gives it back. -/
theorem stores_of_decode {options : Options} (hstrict : options.invalidUtf8 = .strict)
    {r r' : Reader} (h : Decoder.field options order op r = .ok v? r') :
    ∃ field, op.Stores order v? field
      ∧ ∀ v ∈ v?, op.Admits v ∧ op.normal v = op.positiveZero v := by
  cases op with
  | byteOrder next =>
      cases h
      exact ⟨[], .byteOrder next, forall_none⟩
  | padding n =>
      obtain ⟨_, r₁, -, hpure⟩ := bind_eq_ok.mp h
      cases hpure
      exact ⟨_, .padding n, forall_none⟩
  | bool =>
      obtain ⟨b, r₁, -, hpure⟩ := bind_eq_ok.mp h
      cases hpure
      exact ⟨_, .bool b, forall_some ⟨trivial, rfl⟩⟩
  | bitArray count =>
      obtain ⟨bits, r₁, hbits, hpure⟩ := bind_eq_ok.mp h
      cases hpure
      have hsame : exactly count false bits = bits :=
        exactly_of_length (Bits.length_of_decode hbits)
      exact ⟨_, .bitArray count bits, forall_some ⟨trivial, congrArg Value.bools hsame⟩⟩
  | countedBits p =>
      obtain ⟨bits, r₁, hbits, hpure⟩ := bind_eq_ok.mp h
      cases hpure
      obtain ⟨hcheck, hlength⟩ := Bits.check_of_decodeCounted hbits
      have hencode := (Bits.encodeCounted_eq p order bits).trans
        (LengthPrefix.map_check_eq_ok.mpr ⟨hcheck, rfl⟩)
      exact ⟨_, .countedBits hencode, forall_some ⟨hlength, rfl⟩⟩
  | integer width signed =>
      obtain ⟨word, r₁, hword, hpure⟩ := bind_eq_ok.mp h
      cases hpure
      have hsame := FixedInt.reduce_of_decode hword
      exact ⟨_, .integer width signed word, forall_some ⟨trivial, congrArg Value.int hsame⟩⟩
  | float width =>
      obtain ⟨pattern, r₁, hpattern, hpure⟩ := bind_eq_ok.mp h
      cases hpure
      have hsame := FloatField.kept_of_decode hpattern
      exact ⟨_, .float width pattern, forall_some ⟨trivial, congrArg Value.float hsame⟩⟩
  | taggedFloat =>
      obtain ⟨pattern, r₁, -, hpure⟩ := bind_eq_ok.mp h
      cases hpure
      have hsame := TaggedFloat.kept_eq pattern
      exact ⟨_, .taggedFloat pattern, forall_some ⟨trivial, congrArg Value.float hsame⟩⟩
  | signedVarint =>
      obtain ⟨word, r₁, -, hpure⟩ := bind_eq_ok.mp h
      cases hpure
      exact ⟨_, .signedVarint word, forall_some ⟨trivial, rfl⟩⟩
  | unsignedVarint =>
      obtain ⟨n, r₁, -, hpure⟩ := bind_eq_ok.mp h
      cases hpure
      exact ⟨_, .unsignedVarint _, forall_some ⟨trivial, rfl⟩⟩
  | terminatedString =>
      obtain ⟨text, r₁, htext, hpure⟩ := bind_eq_ok.mp h
      cases hpure
      have hzero := StringField.zero_not_mem_of_decodeTerminated hstrict htext
      exact ⟨_, .terminatedString text, forall_some ⟨hzero, rfl⟩⟩
  | countedString p =>
      obtain ⟨text, r₁, htext, hpure⟩ := bind_eq_ok.mp h
      cases hpure
      rw [hstrict] at htext
      obtain ⟨hcheck, hlength⟩ := StringField.check_of_decodeCounted htext
      have hencode := (StringField.encodeCounted_eq p order text).trans
        (LengthPrefix.map_check_eq_ok.mpr ⟨hcheck, rfl⟩)
      exact ⟨_, .countedString hencode, forall_some ⟨hlength, rfl⟩⟩
  | fixedString size =>
      obtain ⟨text, r₁, htext, hpure⟩ := bind_eq_ok.mp h
      cases hpure
      rw [hstrict] at htext
      have hsame := StringField.kept_of_decodeFixed htext
      exact ⟨_, .fixedString size text, forall_some ⟨trivial, congrArg Value.str hsame⟩⟩
  | fixedBytes size =>
      obtain ⟨content, r₁, hcontent, hpure⟩ := bind_eq_ok.mp h
      cases hpure
      have hsame : exactly size 0 content = content :=
        exactly_of_length (Read.length_of_bytes hcontent)
      exact ⟨_, .fixedBytes size content, forall_some ⟨trivial, congrArg Value.bytes hsame⟩⟩
  | countedBytes p =>
      obtain ⟨content, r₁, hcontent, hpure⟩ := bind_eq_ok.mp h
      cases hpure
      obtain ⟨hcheck, hlength⟩ := Blob.check_of_decodeCounted hcontent
      have hencode := (Blob.encodeCounted_eq p order content).trans
        (LengthPrefix.map_check_eq_ok.mpr ⟨hcheck, rfl⟩)
      exact ⟨_, .countedBytes hencode, forall_some ⟨hlength, rfl⟩⟩

end Operation

/-! ## Records -/

namespace Format

/-- The values with every negative zero of a tagged float replaced by the positive one. -/
def positiveZeros (format : Format) (values : List Value) : List Value :=
  List.zipWith Operation.positiveZero (format.operations.filter fun op => op.kind?.isSome) values

section
variable {op : Operation} {ops : List Operation} {v? : Option Value} {values : List Value}

theorem assigned_cons (h : op.kind?.isSome = v?.isSome) :
    assigned ⟨op :: ops⟩ (v?.toList ++ values)
      = v?.toList.map (Prod.mk op) ++ assigned ⟨ops⟩ values := by
  cases v? with
  | none => simp [assigned, h]
  | some v => simp [assigned, h]

theorem normal_cons (h : op.kind?.isSome = v?.isSome) :
    normal ⟨op :: ops⟩ (v?.toList ++ values)
      = (v?.map op.normal).toList ++ normal ⟨ops⟩ values := by
  cases v? with
  | none => simp [normal, h]
  | some v => simp [normal, h]

end

theorem normal_eq_map (format : Format) (values : List Value) :
    format.normal values = (format.assigned values).map fun p => p.1.normal p.2 :=
  List.map_uncurry_zip_eq_zipWith.symm

theorem positiveZeros_eq_map (format : Format) (values : List Value) :
    format.positiveZeros values = (format.assigned values).map fun p => p.1.positiveZero p.2 :=
  List.map_uncurry_zip_eq_zipWith.symm

end Format

namespace Writes

variable {order : ByteOrder} {ops : List Operation} {values : List Value}
  {fields : List (List UInt8)}

/-- Values behind those of the record are assigned to nothing. -/
theorem assigned_append (h : Writes order ops values fields) (left : List Value) :
    Format.assigned ⟨ops⟩ (values ++ left) = Format.assigned ⟨ops⟩ values := by
  induction h with
  | nil order => rfl
  | cons head _ ih =>
      have hkind := head.isSome_kind
      rw [List.append_assoc, Format.assigned_cons hkind, Format.assigned_cons hkind, ih]

theorem kinds (h : Writes order ops values fields) :
    values.map Value.kind = ops.filterMap Operation.kind? := by
  induction h with
  | nil order => rfl
  | cons head _ ih =>
      rw [List.map_append, ih]
      cases head <;> rfl

theorem normal (h : Writes order ops values fields) :
    Writes order ops (Format.normal ⟨ops⟩ values) fields := by
  induction h with
  | nil order => exact .nil order
  | cons head _ ih =>
      rw [Format.normal_cons head.isSome_kind]
      exact .cons head.normal ih

theorem reads (h : Writes order ops values fields)
    (hadmits : ∀ p ∈ Format.assigned ⟨ops⟩ values, p.1.Admits p.2) (options : Options) :
    Read.Reads (Decoder.record options order ops) fields.flatten (Format.normal ⟨ops⟩ values) := by
  induction h with
  | nil order => exact .pure []
  | @cons order op v? field ops values fields head _ ih =>
      rw [Format.assigned_cons head.isSome_kind] at hadmits
      have hhead : ∀ v ∈ v?, op.Admits v := fun v hv =>
        hadmits (op, v) (List.mem_append_left _
          (List.mem_map_of_mem (Option.mem_toList.mpr hv)))
      have htail := ih fun p hp => hadmits p (List.mem_append_right _ hp)
      rw [Format.normal_cons head.isSome_kind]
      exact (head.reads hhead options).bind
        (htail.map fun values => (v?.map op.normal).toList ++ values)

end Writes

/-- The values of a record that was read make a record again. -/
theorem Decoder.writes_of_record {options : Options} (hstrict : options.invalidUtf8 = .strict) :
    ∀ {ops : List Operation} {order : ByteOrder} {r r' : Reader} {values : List Value},
    record options order ops r = .ok values r' →
    ∃ fields, Writes order ops values fields
      ∧ ∀ p ∈ Format.assigned ⟨ops⟩ values, p.1.Admits p.2 ∧ p.1.normal p.2 = p.1.positiveZero p.2
  | [], order, _, _, _, h => by
      cases h
      exact ⟨[], .nil order, fun p hp => (by cases hp)⟩
  | op :: ops, order, r, r', values, h => by
      obtain ⟨v?, r₁, hfield, htail⟩ := bind_eq_ok.mp h
      obtain ⟨values', r₂, hrecord, hpure⟩ := bind_eq_ok.mp htail
      cases hpure
      obtain ⟨field, hstores, hone⟩ := Operation.stores_of_decode hstrict hfield
      obtain ⟨fields, hwrites, hall⟩ := writes_of_record hstrict hrecord
      refine ⟨field :: fields, .cons hstores hwrites, ?_⟩
      rw [Format.assigned_cons hstores.isSome_kind]
      intro p hp
      rcases List.mem_append.mp hp with hp | hp
      · obtain ⟨v, hv, rfl⟩ := List.mem_map.mp hp
        exact hone v (Option.mem_toList.mp hv)
      · exact hall p hp

/-! ## Packing and unpacking -/

namespace Format

theorem unpack_of_writes {format : Format} {values : List Value} {written : List (List UInt8)}
    (h : Writes .little format.operations values written)
    (hadmits : ∀ p ∈ format.assigned values, p.1.Admits p.2) (before after : List UInt8)
    (options : Options) :
    format.unpack (before ++ written.flatten ++ after) before.length options
      = .ok ⟨format.normal values, before.length + written.flatten.length⟩ := by
  have hoffset : before.length ≤ (before ++ written.flatten ++ after).length := by
    rw [List.append_assoc, List.length_append]
    omega
  refine unpack_of_ok (r := ⟨before.length + written.flatten.length, after⟩) hoffset ?_
  rw [List.append_assoc, List.drop_left]
  exact h.reads hadmits options before.length after

/-- What was packed comes back in its normal form, which packs to the same bytes. -/
theorem unpack_pack {format : Format} {values : List Value} {packing : Options}
    {packed : List UInt8} (hpack : format.pack values packing = .ok packed)
    (hfits : format.Fits values)
    (hzero : ∀ text, (Operation.terminatedString, Value.str text) ∈ format.assigned values →
      '\x00' ∉ text.toList)
    (hlength : ∀ v ∈ values, v.length < UInt64.size)
    (before after : List UInt8) (unpacking repacking : Options) :
    format.unpack (before ++ packed ++ after) before.length unpacking
        = .ok ⟨format.normal values, before.length + packed.length⟩
      ∧ format.pack (format.normal values) repacking = .ok packed := by
  obtain ⟨taken, left, written, rfl, hwrites, rfl, hwritten⟩ :=
    writes_of_pack_of_fits hfits hpack
  have hassigned : format.assigned (taken ++ left) = format.assigned taken :=
    hwrites.assigned_append left
  have hnormal : format.normal (taken ++ left) = format.normal taken := by
    rw [normal_eq_map, hassigned, ← normal_eq_map]
  have hadmits : ∀ p ∈ format.assigned taken, p.1.Admits p.2 := by
    rintro ⟨op, v⟩ hp
    have hv : v ∈ taken := (List.of_mem_zip hp).2
    refine Operation.admits_of_length ?_ (hlength v (List.mem_append_left _ hv))
    rintro rfl text rfl
    exact hzero text (hassigned ▸ hp)
  rw [hnormal]
  exact ⟨unpack_of_writes hwrites hadmits before after unpacking,
    pack_of_writes hwrites.normal hwritten repacking⟩

/-- A number beyond its field, a text beyond its buffer and a negative zero. -/
theorem unpack_pack_sample :
    unpack ⟨[.byteOrder .big, .integer ⟨2, by decide, by decide⟩ true, .fixedString 4,
        .terminatedString, .taggedFloat]⟩
      ([7] ++ [0x9C, 0x40, 0x61, 0xC3, 0xB1, 0, 0x68, 0x69, 0, 0] ++ [9]) 1 .lenient
      = .ok ⟨[.int (-25536), .str "añ", .str "hi", .float 0], 11⟩ := by
  have hpack : pack ⟨[.byteOrder .big, .integer ⟨2, by decide, by decide⟩ true, .fixedString 4,
        .terminatedString, .taggedFloat]⟩
      [.int 40000, .str "añ€", .str "hi", .float 0x8000000000000000] .strict
      = .ok [0x9C, 0x40, 0x61, 0xC3, 0xB1, 0, 0x68, 0x69, 0, 0] := by decide +kernel
  have hback := unpack_pack hpack (fits_of_fields rfl (by decide))
    (by simp [assigned, Operation.kind?]) (by decide) [7] [9] .lenient .strict
  exact hback.1

end Format
end PackedRecord
