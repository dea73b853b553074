import PackedRecord.Json.Values
import PackedRecord.Proofs.RoundTrip

/-!
# Values through JSON

A value written as JSON and read under its own kind comes back, an integer
with or without sign (`Value.ofJson?_toJson`). Only NaNs do not: they have one
name, and it reads as one of them (`Value.withNamedNaN`). That is the only NaN
among values read from a document of finite numbers (`Json.Finite`,
`Value.withNamedNaN_of_ofItem?`), and it is the only one that a field makes of
it (`Operation.withNamedNaN_normal`).

The loops over a whole record are taken apart by index. What is expected at a
place depends on the format and the place alone
(`Format.convertFrom_eq_ok_iff`, `Format.getElem?_renderFrom`), so that both
loops look at the same field, and values of the right kinds survive as a list
(`Format.valuesOfJson_renderFrom`). Reading fails at the first item that does
not convert, and there only (`Format.convertFrom_eq_error`).
-/

namespace PackedRecord

/-- Every number in the document is finite, as JSON has no others. -/
inductive Json.Finite : Json → Prop where
  | null : Finite .null
  | bool (b : Bool) : Finite (.bool b)
  | integer (n : Int) : Finite (.number (.integer n))
  | float {pattern : UInt64}
      (h : Interchange.double.magnitude pattern.toNat < Interchange.double.infinity) :
      Finite (.number (.float pattern))
  | string (text : String) : Finite (.string text)
  | array {items : List Json} (h : ∀ item ∈ items, Finite item) : Finite (.array items)
  | object {fields : List (String × Json)} (h : ∀ field ∈ fields, Finite field.2) :
      Finite (.object fields)

namespace Value
open Interchange

/-! ## NaNs -/

/-- The pattern, but for a NaN the one that its name reads as. -/
def namedNaN (pattern : UInt64) : UInt64 :=
  if double.isNaN pattern.toNat then quietNaN else pattern

/-- The value with a NaN replaced by the one that its name reads as. -/
def withNamedNaN : Value → Value
  | .float pattern => .float (namedNaN pattern)
  | v => v

theorem namedNaN_of_not_isNaN {pattern : UInt64} (h : double.isNaN pattern.toNat = false) :
    namedNaN pattern = pattern := by
  rw [namedNaN, h]
  rfl

theorem namedNaN_eq_self {pattern : UInt64} (h : namedNaN pattern = pattern) :
    double.isNaN pattern.toNat = false ∨ pattern = quietNaN := by
  cases hnan : double.isNaN pattern.toNat with
  | false => exact Or.inl rfl
  | true =>
      rw [namedNaN, hnan] at h
      exact Or.inr h.symm

/-- The named NaN stays the same in every field. -/
theorem namedNaN_kept (width : FloatWidth) {pattern : UInt64} (h : namedNaN pattern = pattern) :
    namedNaN (FloatField.kept width pattern) = FloatField.kept width pattern := by
  rcases namedNaN_eq_self h with hnot | rfl
  · exact namedNaN_of_not_isNaN ((FloatField.isNaN_kept width pattern).trans hnot)
  · cases width <;> decide +kernel

theorem namedNaN_keptTagged {pattern : UInt64} (h : namedNaN pattern = pattern) :
    namedNaN (TaggedFloat.kept pattern) = TaggedFloat.kept pattern := by
  rw [TaggedFloat.kept]
  split
  · decide +kernel
  · exact h

theorem withNamedNaN_of_kind_ne {v : Value} (h : v.kind ≠ .float) : v.withNamedNaN = v := by
  cases v with
  | float pattern => exact absurd rfl h
  | _ => rfl

/-! ## Back from JSON -/

/-- Documents written one by one read one by one. -/
theorem mapM_map_of_inverse {α β : Type} {read : β → Option α} {write : α → β}
    (h : ∀ a, read (write a) = some a) (items : List α) :
    (items.map write).mapM read = some items := by
  have hpure : read ∘ write = fun a => pure (id a) := funext h
  rw [List.mapM_map, hpure, List.mapM_pure, List.map_id]
  rfl

theorem floatOfJson?_jsonOfFloat (pattern : UInt64) :
    floatOfJson? (jsonOfFloat pattern) = some (namedNaN pattern) := by
  have hlt := pattern.toNat_lt
  have hsignBit : double.signBit = 0x8000000000000000 := rfl
  rw [jsonOfFloat, namedNaN]
  split
  · rfl
  · split
    · next hinfinite =>
        -- Infinity and the sign make up the whole pattern.
        have hmagnitude : double.magnitude pattern.toNat = 0x7FF0000000000000 :=
          of_decide_eq_true hinfinite
        rw [magnitude, hsignBit] at hmagnitude
        rw [sign, hsignBit]
        split
        · next hsign =>
            have hpattern : pattern = infinity :=
              UInt64.toNat_inj.mp (show pattern.toNat = 0x7FF0000000000000 by omega)
            rw [hpattern]
            rfl
        · next hsign =>
            have hpattern : pattern = negativeInfinity :=
              UInt64.toNat_inj.mp (show pattern.toNat = 0xFFF0000000000000 by omega)
            rw [hpattern]
            rfl
    · rfl

theorem byteOfJson?_ofNat (b : UInt8) : byteOfJson? (.ofNat b.toNat) = some b := by
  have hlt := b.toNat_lt
  have hrange : (0 : Int) ≤ b.toNat ∧ (b.toNat : Int) < 256 := by omega
  simp only [byteOfJson?, Json.ofNat, Json.integer?, Option.bind_eq_bind, Option.bind_some]
  rw [if_pos hrange, Int.toNat_natCast, UInt8.ofNat_toNat]

theorem ofInt_toNat_toUInt64 (word : Int64) : ofInt (word.toUInt64.toNat : Int) = .int word := by
  have hword : (word.toUInt64.toNat : Int) = (word.toBitVec.toNat : Nat) := rfl
  rw [ofInt, Value.int.injEq, ← Int64.toBitVec_inj, Int64.toBitVec_ofInt, hword]
  simp

/-- A value written as JSON comes back, if it is no other NaN. -/
theorem ofJson?_toJson (unsigned : Bool) (v : Value) :
    ofJson? v.kind (v.toJson unsigned) = some v.withNamedNaN := by
  cases v with
  | bool b => rfl
  | bools bits =>
      have hbool : ∀ b, Json.bool? (.bool b) = some b := fun _ => rfl
      show ((bits.map Json.bool).mapM Json.bool?).bind (fun bits => some (Value.bools bits)) = _
      rw [mapM_map_of_inverse hbool]
      rfl
  | int word =>
      cases unsigned with
      | true => exact congrArg some (ofInt_toNat_toUInt64 word)
      | false => exact congrArg (fun word => some (Value.int word)) (Int64.ofInt_toInt word)
  | float pattern =>
      show (floatOfJson? (jsonOfFloat pattern)).map Value.float = _
      rw [floatOfJson?_jsonOfFloat]
      rfl
  | str text => rfl
  | bytes content =>
      show ((content.map fun b => Json.ofNat b.toNat).mapM byteOfJson?).bind
        (fun content => some (Value.bytes content)) = _
      rw [mapM_map_of_inverse byteOfJson?_ofNat]
      rfl

/-! ## Kinds and NaNs of what is read -/

/-- A magnitude with any sign is a pattern of 64 bits. -/
theorem magnitude_ofNat_signed {negative : Prop} [Decidable negative] {m : Nat}
    (hm : m ≤ double.infinity) :
    double.magnitude (UInt64.ofNat (if negative then m + double.signBit else m)).toNat = m := by
  have hlt := double.infinity_lt_signBit
  have hsize : UInt64.size = 2 * double.signBit := rfl
  split
  · rw [toNat_ofNat_of_lt (by omega), magnitude, Nat.add_mod_right, Nat.mod_eq_of_lt (by omega)]
  · rw [toNat_ofNat_of_lt (by omega), magnitude_of_lt (by omega)]

theorem kind_of_ofJson? {kind : Kind} {j : Json} {v : Value} (h : ofJson? kind j = some v) :
    v.kind = kind := by
  cases kind with
  | bool | int | float | str =>
      obtain ⟨_, -, rfl⟩ := Option.map_eq_some_iff.mp h
      rfl
  | bools | bytes =>
      obtain ⟨_, -, h⟩ := Option.bind_eq_some_iff.mp h
      obtain ⟨_, -, h⟩ := Option.bind_eq_some_iff.mp h
      cases h
      rfl

theorem isNaN_floatOfInt (n : Int) : double.isNaN (floatOfInt n).toNat = false := by
  have hle := double.nearest_le (n.natAbs * double.one) 1
  rw [isNaN, floatOfInt, magnitude_ofNat_signed hle]
  exact decide_eq_false (Nat.not_lt.mpr hle)

theorem namedNaN_of_namedFloat? {name : String} {pattern : UInt64}
    (h : namedFloat? name = some pattern) : namedNaN pattern = pattern := by
  rw [namedFloat?] at h
  split at h
  · cases h
    decide +kernel
  · split at h
    · cases h
      decide +kernel
    · split at h
      · cases h
        decide +kernel
      · cases h

theorem namedNaN_of_floatOfJson? {j : Json} {pattern : UInt64} (hfinite : j.Finite)
    (h : floatOfJson? j = some pattern) : namedNaN pattern = pattern := by
  cases hfinite with
  | integer n =>
      cases h
      exact namedNaN_of_not_isNaN (isNaN_floatOfInt n)
  | float hlt =>
      cases h
      exact namedNaN_of_not_isNaN (decide_eq_false (by omega))
  | string name => exact namedNaN_of_namedFloat? h
  | null | bool b | array items | object fields => cases h

/-- No other NaN is read from a document. -/
theorem withNamedNaN_of_ofItem? {expected : Option Kind} {j : Json} {v : Value}
    (hfinite : j.Finite) (h : ofItem? expected j = some v) : v.withNamedNaN = v := by
  have hfloat : ∀ {pattern}, floatOfJson? j = some pattern →
      withNamedNaN (.float pattern) = .float pattern := fun hpattern =>
    congrArg Value.float (namedNaN_of_floatOfJson? hfinite hpattern)
  cases expected with
  | some kind =>
      by_cases hkind : kind = .float
      · subst hkind
        obtain ⟨pattern, hpattern, rfl⟩ := Option.map_eq_some_iff.mp h
        exact hfloat hpattern
      · exact withNamedNaN_of_kind_ne (kind_of_ofJson? h ▸ hkind)
  | none =>
      cases hfinite with
      | null | object fields => cases h
      | bool b | integer n | string text =>
          cases h
          rfl
      | float hlt =>
          cases h
          exact hfloat rfl
      | @array items hitems =>
          have hkind : v.kind ≠ .float := by
            change (if items.all fun item => item.bool?.isSome then ofJson? .bools (.array items)
              else ofJson? .bytes (.array items)) = some v at h
            split at h
            · rw [kind_of_ofJson? h]
              decide
            · rw [kind_of_ofJson? h]
              decide
          exact withNamedNaN_of_kind_ne hkind

end Value

/-- A field makes no other NaN of the one that was named. -/
theorem Operation.withNamedNaN_normal (op : Operation) {v : Value} (h : v.withNamedNaN = v) :
    (op.normal v).withNamedNaN = op.normal v := by
  cases v with
  | float pattern =>
      have hpattern : Value.namedNaN pattern = pattern := by injection h
      cases op with
      | float width => exact congrArg Value.float (Value.namedNaN_kept width hpattern)
      | taggedFloat => exact congrArg Value.float (Value.namedNaN_keptTagged hpattern)
      | _ => exact h
  | _ =>
      refine Value.withNamedNaN_of_kind_ne ?_
      rw [Operation.kind_normal]
      rintro ⟨⟩

namespace Format

/-! ## Reading items -/

/-- The item at every place is read as what the format expects there. -/
theorem convertFrom_eq_ok_iff : ∀ {items : List Json} {index : Nat} {before values : List Value}
    {kinds : List Kind}, convertFrom index before kinds items = .ok values ↔
      ∃ new, values = before.reverse ++ new ∧ new.length = items.length
        ∧ ∀ (i : Nat) item, items[i]? = some item → Value.ofItem? kinds[i]? item = new[i]?
  | [], index, before, values, kinds => by
      constructor
      · intro h
        cases h
        exact ⟨[], (List.append_nil _).symm, rfl, fun i item h => (by cases h)⟩
      · rintro ⟨new, rfl, hlength, -⟩
        rw [List.length_eq_zero_iff.mp hlength, List.append_nil]
        rfl
  | item :: items, index, before, values, kinds => by
      have hhead : kinds.head? = kinds[0]? := List.head?_eq_getElem?
      have htail : ∀ i, kinds.tail[i]? = kinds[i + 1]? := fun i => List.getElem?_tail
      rw [convertFrom, hhead]
      cases hitem : Value.ofItem? kinds[0]? item with
      | none =>
          constructor
          · intro h
            cases h
          · rintro ⟨new, -, hlength, hnew⟩
            have hzero := (hnew 0 item rfl).symm.trans hitem
            rw [List.getElem?_eq_none_iff, hlength] at hzero
            exact absurd hzero (Nat.not_succ_le_zero _)
      | some v =>
          refine convertFrom_eq_ok_iff.trans ?_
          constructor
          · rintro ⟨new, rfl, hlength, hnew⟩
            refine ⟨v :: new, by simp, congrArg (· + 1) hlength, ?_⟩
            intro i item' hi
            cases i with
            | zero =>
                cases hi
                exact hitem
            | succ i => exact htail i ▸ hnew i item' hi
          · rintro ⟨new, rfl, hlength, hnew⟩
            cases new with
            | nil => cases hlength
            | cons w new =>
                have hw : w = v := by
                  have hzero := (hnew 0 item rfl).symm.trans hitem
                  injection hzero
                subst hw
                refine ⟨new, by simp, Nat.succ_inj.mp hlength, fun i item' hi => ?_⟩
                rw [htail]
                exact hnew (i + 1) item' hi

/-- Reading stops at the first item that does not convert. -/
theorem convertFrom_eq_error : ∀ {items : List Json} {index : Nat} {before : List Value}
    {kinds : List Kind} {mismatch : Json.Mismatch},
    convertFrom index before kinds items = .error mismatch →
    ∃ i found, mismatch = .unconvertible (index + i) kinds[i]? found
      ∧ items[i]? = some found ∧ Value.ofItem? kinds[i]? found = none
      ∧ ∀ j item, j < i → items[j]? = some item → Value.ofItem? kinds[j]? item ≠ none
  | [], _, _, _, _, h => by cases h
  | item :: items, index, before, kinds, mismatch, h => by
      have hhead : kinds.head? = kinds[0]? := List.head?_eq_getElem?
      have htail : ∀ i, kinds.tail[i]? = kinds[i + 1]? := fun i => List.getElem?_tail
      rw [convertFrom, hhead] at h
      cases hitem : Value.ofItem? kinds[0]? item with
      | none =>
          rw [hitem] at h
          cases h
          exact ⟨0, item, rfl, rfl, hitem, fun j _ hj => absurd hj (Nat.not_lt_zero j)⟩
      | some v =>
          rw [hitem] at h
          obtain ⟨i, found, rfl, hfound, hnone, hbefore⟩ := convertFrom_eq_error h
          rw [htail] at hnone ⊢
          refine ⟨i + 1, found, by rw [Nat.add_right_comm, Nat.add_assoc], hfound, hnone, ?_⟩
          intro j item' hj hitem'
          cases j with
          | zero =>
              cases hitem'
              rw [hitem]
              exact Option.some_ne_none v
          | succ j => exact htail j ▸ hbefore j item' (Nat.lt_of_succ_lt_succ hj) hitem'

/-- The value at a place is read from the item there. -/
theorem valuesOfJson_array_eq_ok_iff {format : Format} {items : List Json} {values : List Value} :
    format.valuesOfJson (.array items) = .ok values ↔ values.length = items.length
      ∧ ∀ (i : Nat) item, items[i]? = some item →
        Value.ofItem? format.kinds[i]? item = values[i]? := by
  refine convertFrom_eq_ok_iff.trans ?_
  constructor
  · rintro ⟨new, rfl, h⟩
    exact h
  · intro h
    exact ⟨values, rfl, h⟩

theorem withNamedNaN_of_valuesOfJson {format : Format} {j : Json} {values : List Value}
    (hfinite : j.Finite) (h : format.valuesOfJson j = .ok values) :
    ∀ v ∈ values, v.withNamedNaN = v := by
  cases hfinite with
  | @array items hitems =>
      obtain ⟨hlength, hvalues⟩ := valuesOfJson_array_eq_ok_iff.mp h
      intro v hv
      obtain ⟨i, hi, rfl⟩ := List.mem_iff_getElem.mp hv
      have hi' : i < items.length := hlength ▸ hi
      have hread := hvalues i items[i] (List.getElem?_eq_getElem hi')
      rw [List.getElem?_eq_getElem hi] at hread
      exact Value.withNamedNaN_of_ofItem? (hitems _ (List.getElem_mem _)) hread
  | _ => cases h

/-! ## Writing values -/

theorem renderFrom_eq_append (before : List Json) (places : List Bool) (values : List Value) :
    renderFrom before places values = before.reverse ++ renderFrom [] places values := by
  induction values generalizing before places with
  | nil => exact (List.append_nil _).symm
  | cons v values ih =>
      rw [renderFrom, ih, renderFrom, ih [_], List.reverse_cons, List.append_assoc]
      rfl

theorem renderFrom_cons (places : List Bool) (v : Value) (values : List Value) :
    renderFrom [] places (v :: values)
      = v.toJson (places.head?.getD false) :: renderFrom [] places.tail values := by
  rw [renderFrom, renderFrom_eq_append]
  rfl

/-- The item at every place is written with the sign that the place has. -/
theorem getElem?_renderFrom (places : List Bool) (values : List Value) (i : Nat) :
    (renderFrom [] places values)[i]? = values[i]?.map (Value.toJson (places[i]?.getD false)) := by
  induction values generalizing places i with
  | nil => rfl
  | cons v values ih =>
      rw [renderFrom_cons]
      cases i with
      | zero => rw [List.head?_eq_getElem?]; rfl
      | succ i => rw [List.getElem?_cons_succ, List.getElem?_cons_succ, ih, List.getElem?_tail]

theorem length_renderFrom (places : List Bool) (values : List Value) :
    (renderFrom [] places values).length = values.length := by
  induction values generalizing places with
  | nil => rfl
  | cons v values ih => rw [renderFrom_cons, List.length_cons, ih, List.length_cons]

/-- Values of the kinds that the format takes come back, whichever of them are
written without sign. -/
theorem valuesOfJson_renderFrom {format : Format} {values : List Value}
    (hkinds : values.map Value.kind <+: format.kinds) (places : List Bool) :
    format.valuesOfJson (.array (renderFrom [] places values))
      = .ok (values.map Value.withNamedNaN) := by
  obtain ⟨others, hkinds⟩ := hkinds
  refine valuesOfJson_array_eq_ok_iff.mpr ⟨?_, fun i item hitem => ?_⟩
  · rw [List.length_map, length_renderFrom]
  · rw [getElem?_renderFrom] at hitem
    obtain ⟨v, hv, rfl⟩ := Option.map_eq_some_iff.mp hitem
    have hlt : i < values.length := (List.getElem?_eq_some_iff.mp hv).1
    have hkind : format.kinds[i]? = some v.kind := by
      rw [← hkinds, List.getElem?_append_left (by rwa [List.length_map]), List.getElem?_map, hv]
      rfl
    rw [hkind, List.getElem?_map, hv]
    exact Value.ofJson?_toJson _ v

end Format
end PackedRecord
