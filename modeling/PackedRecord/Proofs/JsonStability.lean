import PackedRecord.Proofs.HexDigits
import PackedRecord.Proofs.JsonNumbers

/-!
# Packing documents

A document that is packed, written as digits and unpacked again need not come
back as it was: numbers are reduced and rounded, buffers are cut, and there is
more than one way to write a float. But once is enough. The document that
comes back packs to the same bytes and comes back as it is
(`Format.json_stable`).

What is unpacked is the normal form of the values. It has the kinds that the
format takes and no NaN that cannot be named, so it comes back from JSON, and
it packs to the same bytes.

All this is about records that fit (`Format.Fits`). Where zeros go beyond the
largest 64-bit number the output is cut instead, and what was packed before
them does not come back (`Format.json_cut`).
-/

namespace PackedRecord.Format

theorem admits_of_assigned {format : Format} {values : List Value}
    (hzero : ∀ text, (Operation.terminatedString, Value.str text) ∈ format.assigned values →
      '\x00' ∉ text.toList)
    (hlength : ∀ v ∈ values, v.length < UInt64.size) :
    ∀ p ∈ format.assigned values, p.1.Admits p.2 := by
  rintro ⟨op, v⟩ hp
  refine Operation.admits_of_length ?_ (hlength v (List.of_mem_zip hp).2)
  rintro rfl text rfl
  exact hzero text hp

theorem withNamedNaN_normal {format : Format} {values : List Value}
    (h : ∀ v ∈ values, v.withNamedNaN = v) :
    (format.normal values).map Value.withNamedNaN = format.normal values := by
  rw [normal_eq_map, List.map_map]
  refine List.map_congr_left fun p hp => ?_
  exact p.1.withNamedNaN_normal (h p.2 (List.of_mem_zip hp).2)

/-- The document that comes back of a packed one is written for all the fields,
packs to the same bytes and comes back as it is, under any policies. No NaN is
in it to begin with, since there is none to be written in a document. -/
theorem json_stable (format : Format) :
    (∀ text j, Json.parse? text = some j → j.Finite)
      ∧ ∀ {j : Json} {values : List Value} {packing : Options} {packed : List UInt8},
        j.Finite → format.valuesOfJson j = .ok values →
        format.pack values packing = .ok packed → format.Fits values →
        (∀ text, (Operation.terminatedString, Value.str text) ∈ format.assigned values →
          '\x00' ∉ text.toList) →
        (∀ v ∈ values, v.length < UInt64.size) →
        Command.decodeHex (Hex.encode packed) = .ok packed
          ∧ ∃ record items, (∀ unpacking, format.unpack packed 0 unpacking = .ok record)
            ∧ record.nextOffset = packed.length
            ∧ format.jsonOfValues record.values = .array items
            ∧ items.length = format.valueCount
            ∧ format.valuesOfJson (.array items) = .ok record.values
            ∧ ∀ repacking, format.pack record.values repacking = .ok packed := by
  refine ⟨fun text j => Json.finite_of_parse?,
    fun {j values packing packed} hfinite hvalues hpack hfits hzero hlength => ?_⟩
  obtain ⟨taken, left, written, rfl, hwrites, rfl, hwritten⟩ :=
    writes_of_pack_of_fits hfits hpack
  have hkinds : (format.normal taken).map Value.kind = format.kinds := hwrites.normal.kinds
  have hadmits : ∀ p ∈ format.assigned taken, p.1.Admits p.2 := by
    have hassigned : format.assigned (taken ++ left) = format.assigned taken :=
      hwrites.assigned_append left
    exact hassigned ▸ admits_of_assigned hzero hlength
  have hnamed : (format.normal taken).map Value.withNamedNaN = format.normal taken :=
    withNamedNaN_normal fun v hv =>
      withNamedNaN_of_valuesOfJson hfinite hvalues v (List.mem_append_left left hv)
  refine ⟨Command.decodeHex_encode _, ⟨format.normal taken, written.flatten.length⟩, _,
    fun unpacking => ?_, rfl, rfl, ?_, ?_, pack_of_writes hwrites.normal hwritten⟩
  · have hback := unpack_of_writes hwrites hadmits [] [] unpacking
    rwa [List.nil_append, List.append_nil, List.length_nil, Nat.zero_add] at hback
  · rw [length_renderFrom, valueCount, ← hkinds, List.length_map]
  · rw [valuesOfJson_renderFrom (hkinds ▸ List.prefix_rfl), hnamed]

/-- A number beyond its field, a float beyond its own, a NaN and an integer for a float. -/
theorem json_stable_sample :
    ∃ record items,
      unpack ⟨[.integer ⟨1, by decide, by decide⟩ false, .float .half, .float .single,
          .taggedFloat]⟩ [44, 0, 0x7C, 0, 0, 0xC0, 0x7F, 1, 0, 0x45] 0 .lenient = .ok record
      ∧ jsonOfValues ⟨[.integer ⟨1, by decide, by decide⟩ false, .float .half, .float .single,
          .taggedFloat]⟩ record.values = .array items
      ∧ items.length = 4
      ∧ valuesOfJson ⟨[.integer ⟨1, by decide, by decide⟩ false, .float .half, .float .single,
          .taggedFloat]⟩ (.array items) = .ok record.values := by
  have hfinite : (Json.array [.ofNat 300, .number (.float 0x7E37E43C8800759C), .string "NaN",
      .ofNat 5]).Finite := by
    refine .array ?_
    simp only [List.forall_mem_cons]
    exact ⟨.integer 300, .float (by decide +kernel), .string "NaN", .integer 5,
      List.forall_mem_nil _⟩
  have hvalues : valuesOfJson ⟨[.integer ⟨1, by decide, by decide⟩ false, .float .half,
      .float .single, .taggedFloat]⟩ (.array [.ofNat 300, .number (.float 0x7E37E43C8800759C),
        .string "NaN", .ofNat 5])
      = .ok [.int 300, .float 0x7E37E43C8800759C, .float Value.quietNaN,
        .float 0x4014000000000000] := by
    refine valuesOfJson_array_eq_ok_iff.mpr ⟨rfl, fun i item hitem => ?_⟩
    rcases i with _ | _ | _ | _ | i <;> cases hitem <;> decide +kernel
  have hpack : pack ⟨[.integer ⟨1, by decide, by decide⟩ false, .float .half, .float .single,
      .taggedFloat]⟩ [.int 300, .float 0x7E37E43C8800759C, .float Value.quietNaN,
        .float 0x4014000000000000] .strict
      = .ok [44, 0, 0x7C, 0, 0, 0xC0, 0x7F, 1, 0, 0x45] := by decide +kernel
  obtain ⟨-, record, items, hunpack, -, hrender, hlength, hback, -⟩ :=
    (json_stable _).2 hfinite hvalues hpack (fits_of_fields rfl (by decide +kernel))
      (by simp [assigned, Operation.kind?]) (by decide +kernel)
  exact ⟨record, items, hunpack .lenient, hrender, hlength, hback⟩

/-- As many zeros as bring the end of the output back to its beginning: the
boolean before them is lost, and what is left cannot be unpacked. -/
theorem json_cut :
    valuesOfJson ⟨[.bool, .padding 18446744073709551615]⟩ (.array [.bool true])
        = .ok [.bool true]
      ∧ pack ⟨[.bool, .padding 18446744073709551615]⟩ [.bool true] .strict = .ok []
      ∧ Size.measure ⟨[.bool, .padding 18446744073709551615]⟩ [.bool true] .strict
        = .ok 18446744073709551615
      ∧ unpack ⟨[.bool, .padding 18446744073709551615]⟩ [] 0 .strict
        = .error (.unexpectedEnd 0 1 0) := by
  refine ⟨valuesOfJson_array_eq_ok_iff.mpr ⟨rfl, fun i item hitem => ?_⟩, ?_, ?_, ?_⟩
  · rcases i with _ | i <;> cases hitem
    decide +kernel
  · decide +kernel
  · decide +kernel
  · decide +kernel

end PackedRecord.Format
