import PackedRecord.Proofs.JsonPlaces

/-!
# Packing what a document spells

A document is read under the kinds of a format, so its values cannot be of the
wrong kind: where the format takes a value the item was converted to that
kind, and further items are left over. What packing can still complain about is
their number, which is that of the items, and lengths
(`Format.pack_error_of_kinds`).

Otherwise the document is at fault, with the first item that does not convert.
Reading looks no further than that, so whatever stands before it reads as it
would alone (`Format.json_arguments`).
-/

namespace PackedRecord.Format

/-! ## Values of the right kinds -/

section
variable {format : Format} {values : List Value} {options : Options} {err : Error}

/-- If the first misfit is a missing value, it is missing just behind the last one. -/
theorem place_of_missing {place : Nat} {op : Operation}
    (htaker : (Operation.takers format.operations)[place]? = some op)
    (hmissing : values[place]? = none)
    (hfirst : ∀ j < place, format.misfit? values j = none) : place = values.length := by
  have hle : values.length ≤ place := List.getElem?_eq_none_iff.mp hmissing
  rcases Nat.eq_or_lt_of_le hle with heq | hlt
  · exact heq.symm
  · have htaken := Nat.lt_trans hlt (List.getElem?_eq_some_iff.mp htaker).1
    have hnone := hfirst values.length hlt
    rw [misfit?, misfitAfter?, List.getElem?_eq_getElem htaken,
      List.getElem?_eq_none (Nat.le_refl values.length)] at hnone
    cases hnone

/-- Values of the kinds that are taken are too few, too many, or too long. -/
theorem pack_error_of_kinds
    (hkinds : ∀ (place : Nat) v kind, values[place]? = some v →
      format.kinds[place]? = some kind → v.kind = kind)
    (h : format.pack values options = .error err) :
    (∃ op, (Operation.takers format.operations)[values.length]? = some op
        ∧ err = .missingArgument values.length op.opcode)
      ∨ (format.valueCount < values.length ∧ options.extraValues = .reject
        ∧ err = .extraArguments format.valueCount values.length)
      ∨ ∃ v ∈ values, ∃ width : ByteWidth, width.limit ≤ v.length
        ∧ err = .lengthOverflow v.length width.bytes := by
  rcases pack_eq_error_iff.mp h with ⟨place, hmisfit, hfirst⟩ | ⟨-, hextra⟩
  · obtain ⟨op, htaker, hop⟩ := Option.bind_eq_some_iff.mp hmisfit
    rw [Nat.zero_add] at hop
    cases hvalue : values[place]? with
    | none =>
        obtain rfl := place_of_missing htaker hvalue hfirst
        rw [hvalue] at hop
        cases hop
        exact Or.inl ⟨op, htaker, rfl⟩
    | some v =>
        have htakes : op.kind?.isSome = true :=
          (List.mem_filter.mp (List.mem_of_getElem? htaker)).2
        obtain ⟨kind, hkind⟩ := Option.isSome_iff_exists.mp htakes
        have hexpected : format.kinds[place]? = some kind := by
          rw [getElem?_kinds, htaker]
          exact hkind
        obtain rfl := hkinds place v kind hvalue hexpected
        rw [hvalue, Operation.misfit?_of_kind hkind] at hop
        cases hcheck : op.checkLength v.length with
        | ok _ =>
            rw [hcheck] at hop
            cases hop
        | error err' =>
            rw [hcheck] at hop
            cases hop
            exact Or.inr (Or.inr
              ⟨v, List.mem_of_getElem? hvalue, Operation.checkLength_eq_error hcheck⟩)
  · exact Or.inr (Or.inl hextra)

end

/-! ## Documents -/

section
variable {format : Format} {items : List Json}

theorem kinds_of_valuesOfJson {values : List Value}
    (h : format.valuesOfJson (.array items) = .ok values) {place : Nat} {v : Value} {kind : Kind}
    (hvalue : values[place]? = some v) (hkind : format.kinds[place]? = some kind) :
    v.kind = kind := by
  obtain ⟨hlength, hitems⟩ := valuesOfJson_array_eq_ok_iff.mp h
  have hlt : place < items.length := hlength ▸ (List.getElem?_eq_some_iff.mp hvalue).1
  have hitem := hitems place _ (List.getElem?_eq_getElem hlt)
  rw [hkind, hvalue] at hitem
  exact Value.kind_of_ofJson? hitem

/-- A document converts if each of its items does. -/
theorem valuesOfJson_of_items
    (h : ∀ (place : Nat) item, items[place]? = some item →
      Value.ofItem? format.kinds[place]? item ≠ none) :
    ∃ values, format.valuesOfJson (.array items) = .ok values := by
  cases hread : format.valuesOfJson (.array items) with
  | ok values => exact ⟨values, rfl⟩
  | error mismatch =>
      obtain ⟨i, found, -, hfound, hnone, -⟩ := convertFrom_eq_error hread
      exact absurd hnone (h i found hfound)

/-- The values that a document spells are as many as its items and of the right
kinds; a document that spells none has a first item that does not convert. -/
theorem json_arguments (format : Format) (items : List Json) :
    (∀ values, format.valuesOfJson (.array items) = .ok values → values.length = items.length
        ∧ ∀ options err, format.pack values options = .error err →
          (items.length < format.valueCount ∧ ∃ op,
              (Operation.takers format.operations)[items.length]? = some op
              ∧ err = .missingArgument items.length op.opcode)
            ∨ (format.valueCount < items.length ∧ options.extraValues = .reject
              ∧ err = .extraArguments format.valueCount items.length)
            ∨ ∃ v ∈ values, ∃ width : ByteWidth, width.limit ≤ v.length
              ∧ err = .lengthOverflow v.length width.bytes)
      ∧ ∀ mismatch, format.valuesOfJson (.array items) = .error mismatch →
        ∃ index expected found, mismatch = .unconvertible index expected found
          ∧ expected = (Operation.takers format.operations)[index]?.bind Operation.kind?
          ∧ (expected = none ↔ format.valueCount ≤ index)
          ∧ items[index]? = some found ∧ Value.ofItem? expected found = none
          ∧ ∀ k ≤ index, ∃ values, format.valuesOfJson (.array (items.take k)) = .ok values := by
  refine ⟨fun values hvalues => ?_, fun mismatch h => ?_⟩
  · have hlength := (valuesOfJson_array_eq_ok_iff.mp hvalues).1
    refine ⟨hlength, fun options err hpack => ?_⟩
    rw [← hlength]
    rcases pack_error_of_kinds (fun place v kind => kinds_of_valuesOfJson hvalues) hpack with
      ⟨op, htaker, herr⟩ | hothers
    · have hlt := (List.getElem?_eq_some_iff.mp htaker).1
      rw [← valueCount_eq_length_takers] at hlt
      exact Or.inl ⟨hlt, op, htaker, herr⟩
    · exact Or.inr hothers
  · obtain ⟨index, found, rfl, hfound, hnone, hbefore⟩ := convertFrom_eq_error h
    rw [Nat.zero_add]
    refine ⟨index, _, found, rfl, getElem?_kinds format index, List.getElem?_eq_none_iff, hfound,
      hnone, fun k hk => valuesOfJson_of_items fun place item hitem => ?_⟩
    rw [List.getElem?_take] at hitem
    split at hitem
    · next hlt => exact hbefore place item (Nat.lt_of_lt_of_le hlt hk) hitem
    · cases hitem

end

/-- An item that is no text, and what it would take to do without it. -/
theorem json_arguments_sample :
    valuesOfJson ⟨[.byteOrder .big, .integer ⟨2, by decide, by decide⟩ false, .padding 2, .bool,
          .countedString (.fixed ⟨1, by decide, by decide⟩)]⟩
        (.array [.ofNat 300, .bool true, .null]) = .error (.unconvertible 2 (some .str) .null)
      ∧ ∃ values, valuesOfJson ⟨[.byteOrder .big, .integer ⟨2, by decide, by decide⟩ false,
          .padding 2, .bool, .countedString (.fixed ⟨1, by decide, by decide⟩)]⟩
          (.array [.ofNat 300, .bool true]) = .ok values
        ∧ ∀ options err, pack ⟨[.byteOrder .big, .integer ⟨2, by decide, by decide⟩ false,
            .padding 2, .bool, .countedString (.fixed ⟨1, by decide, by decide⟩)]⟩ values options
            = .error err →
          err = .missingArgument 2 's' ∨ ∃ length width, err = .lengthOverflow length width := by
  have hread : valuesOfJson ⟨[.byteOrder .big, .integer ⟨2, by decide, by decide⟩ false,
      .padding 2, .bool, .countedString (.fixed ⟨1, by decide, by decide⟩)]⟩
      (.array [.ofNat 300, .bool true, .null])
      = .error (.unconvertible 2 (some .str) .null) := rfl
  obtain ⟨index, _, _, hmismatch, -, -, -, -, hprefix⟩ := (json_arguments _ _).2 _ hread
  obtain rfl : 2 = index := by injection hmismatch
  obtain ⟨values, hvalues⟩ := hprefix 2 (Nat.le_refl 2)
  refine ⟨hread, values, hvalues, fun options err hpack => ?_⟩
  rcases ((json_arguments _ _).1 values hvalues).2 options err hpack with
    ⟨-, op, htaker, rfl⟩ | ⟨hlt, -⟩ | ⟨v, -, width, -, rfl⟩
  · cases htaker
    exact Or.inl rfl
  · exact absurd hlt (by decide)
  · exact Or.inr ⟨_, _, rfl⟩

end PackedRecord.Format
