import PackedRecord.Proofs.RoundTrip

/-!
# Which values a record takes

The operations that take a value are matched with the supplied values one by
one. A value can be missing, of the wrong kind, or too long for the length
field it stands behind; `Format.misfit?` says which, for each place in the
list, from the operation and the value alone. Packing reports the first
misfit. If there is none it succeeds, unless values are left over that the
policy rejects. Together these are `Format.Rejects`, and
`Format.pack_eq_error_iff` says that packing fails in no other way.

One operation fails with the misfit of the next value or takes it
(`Encoder.field_outcome`). Along a record, the operations that take no value are
passed over and each of the others moves on by one place in the list
(`Encoder.fields_outcome`).
-/

namespace PackedRecord

namespace Operation

/-- The width of the length that stands before the field, if it has a fixed one. -/
def lengthWidth? : Operation → Option ByteWidth
  | .countedBits (.fixed width) | .countedString (.fixed width)
  | .countedBytes (.fixed width) => some width
  | _ => none

/-- The operations that take a value. -/
def takers (ops : List Operation) : List Operation := ops.filter fun op => op.kind?.isSome

/-- What is wrong with the value at `index` as the one the operation takes. -/
def misfit? (op : Operation) (index : Nat) : Option Value → Option Error
  | none => some (.missingArgument index op.opcode)
  | some v =>
    match op.kind? with
    | none => none
    | some kind =>
      if v.kind ≠ kind then some (.typeMismatch index op.opcode kind v.kind)
      else match op.lengthWidth? with
        | none => none
        | some width =>
          if width.limit ≤ v.length then some (.lengthOverflow v.length width.bytes) else none

end Operation

/-- What is wrong with the value for the `i`-th of the operations that take
one, `taken` values having gone before. -/
def misfitAfter? (taken : Nat) (ops : List Operation) (values : List Value) (i : Nat) :
    Option Error :=
  (Operation.takers ops)[i]?.bind fun op => op.misfit? (taken + i) values[i]?

/-- What is wrong with the `i`-th value of a record. -/
def Format.misfit? (format : Format) (values : List Value) (i : Nat) : Option Error :=
  misfitAfter? 0 format.operations values i

section
variable {op : Operation} {ops : List Operation} {v : Value} {values : List Value} {taken : Nat}

theorem Operation.takers_pass (h : op.kind? = none) : takers (op :: ops) = takers ops := by
  simp [takers, h]

theorem Operation.takers_cons (h : op.kind?.isSome = true) :
    takers (op :: ops) = op :: takers ops := by
  simp [takers, h]

theorem misfitAfter?_pass (h : op.kind? = none) (i : Nat) :
    misfitAfter? taken (op :: ops) values i = misfitAfter? taken ops values i := by
  rw [misfitAfter?, Operation.takers_pass h, misfitAfter?]

theorem misfitAfter?_zero (h : op.kind?.isSome = true) :
    misfitAfter? taken (op :: ops) values 0 = op.misfit? taken values[0]? := by
  rw [misfitAfter?, Operation.takers_cons h]
  rfl

theorem misfitAfter?_succ (h : op.kind?.isSome = true) (i : Nat) :
    misfitAfter? taken (op :: ops) (v :: values) (i + 1)
      = misfitAfter? (taken + 1) ops values i := by
  rw [misfitAfter?, Operation.takers_cons h, List.getElem?_cons_succ, List.getElem?_cons_succ,
    misfitAfter?, Nat.add_right_comm, Nat.add_assoc]

end

/-! ## One operation -/

/-- The check of the length before a field. -/
def Operation.checkLength : Operation → Nat → Except Error Unit
  | .countedBits p, length | .countedString p, length | .countedBytes p, length => p.check length
  | _, _ => .ok ()

namespace Operation

theorem checkLength_eq (op : Operation) (length : Nat) :
    op.checkLength length = match op.lengthWidth? with
      | none => .ok ()
      | some width =>
        if width.limit ≤ length then .error (.lengthOverflow length width.bytes) else .ok () := by
  have hcheck : ∀ width : ByteWidth, (LengthPrefix.fixed width).check length
      = if width.limit ≤ length then .error (.lengthOverflow length width.bytes) else .ok () := by
    intro width
    simp only [LengthPrefix.check, ByteWidth.maxUnsigned_lt_iff]
  cases op with
  | countedBits p | countedString p | countedBytes p =>
      cases p with
      | varint => rfl
      | fixed width => exact hcheck width
  | _ => rfl

/-- The check fails for a length that its field cannot hold. -/
theorem checkLength_eq_error {op : Operation} {length : Nat} {err : Error}
    (h : op.checkLength length = .error err) :
    ∃ width : ByteWidth, width.limit ≤ length ∧ err = .lengthOverflow length width.bytes := by
  rw [checkLength_eq] at h
  split at h
  · cases h
  · next width _ =>
      split at h
      · next hlong =>
          cases h
          exact ⟨width, hlong, rfl⟩
      · cases h

theorem misfit?_of_kind {op : Operation} {v : Value} (h : op.kind? = some v.kind) (index : Nat) :
    op.misfit? index (some v) = match op.checkLength v.length with
      | .ok _ => none
      | .error err => some err := by
  rw [misfit?, h, checkLength_eq]
  simp only [ne_eq, not_true_eq_false, if_false]
  cases op.lengthWidth? with
  | none => rfl
  | some width =>
      simp only
      split <;> rfl

end Operation

namespace Encoder

variable {order : ByteOrder} {op : Operation} {taken : Nat} {v : Value} {values : List Value}

theorem field_of_pass (order : ByteOrder) (h : op.kind? = none) (args : Arguments) :
    ∃ written, field order op args = .ok written args := by
  cases op with
  | byteOrder next => exact ⟨[], rfl⟩
  | padding n => exact ⟨List.replicate n 0, rfl⟩
  | _ => cases h

theorem field_of_missing (order : ByteOrder) (taken : Nat) (h : op.kind?.isSome = true) :
    field order op ⟨taken, []⟩ = .error (.missingArgument taken op.opcode) ⟨taken, []⟩ := by
  cases op with
  | byteOrder next => cases h
  | padding n => cases h
  | _ => rfl

theorem field_of_mismatch {kind : Kind} (hkind : op.kind? = some kind) (h : v.kind ≠ kind) :
    field order op ⟨taken, v :: values⟩
      = .error (.typeMismatch taken op.opcode kind v.kind) ⟨taken + 1, values⟩ := by
  cases op <;> cases hkind <;> cases v <;> first | rfl | exact absurd rfl h

/-- A value of the right kind is encoded if the check of its length passes. -/
theorem field_of_kind (order : ByteOrder) (taken : Nat) (values : List Value)
    (h : op.kind? = some v.kind) :
    ∃ written, field order op ⟨taken, v :: values⟩
      = Arguments.ofExcept ((op.checkLength v.length).map fun _ => written)
        ⟨taken + 1, values⟩ := by
  have hcounted : ∀ {encoded expected : Except Error (List UInt8)}, encoded = expected →
      Arguments.ofExcept encoded ⟨taken + 1, values⟩
        = Arguments.ofExcept expected ⟨taken + 1, values⟩ := by
    rintro encoded expected rfl
    rfl
  cases op with
  | byteOrder next => cases h
  | padding n => cases h
  | countedBits p =>
      cases v with
      | bools bits => exact ⟨_, hcounted (Bits.encodeCounted_eq p order bits)⟩
      | _ => cases h
  | countedString p =>
      cases v with
      | str text => exact ⟨_, hcounted (StringField.encodeCounted_eq p order text)⟩
      | _ => cases h
  | countedBytes p =>
      cases v with
      | bytes content => exact ⟨_, hcounted (Blob.encodeCounted_eq p order content)⟩
      | _ => cases h
  | _ => cases v <;> first | exact ⟨_, rfl⟩ | cases h

/-- An operation that takes a value fails with the misfit of the next one, or
takes it. -/
theorem field_outcome (order : ByteOrder) (htakes : op.kind?.isSome = true) (taken : Nat)
    (values : List Value) :
    (∃ err args, op.misfit? taken values[0]? = some err
        ∧ field order op ⟨taken, values⟩ = .error err args)
      ∨ op.misfit? taken values[0]? = none ∧ ∃ v rest written, values = v :: rest
        ∧ field order op ⟨taken, values⟩ = .ok written ⟨taken + 1, rest⟩ := by
  cases values with
  | nil => exact Or.inl ⟨_, _, rfl, field_of_missing order taken htakes⟩
  | cons v rest =>
      obtain ⟨kind, hkind⟩ := Option.isSome_iff_exists.mp htakes
      rw [List.getElem?_cons_zero]
      by_cases hv : v.kind = kind
      · subst hv
        obtain ⟨written, hfield⟩ := field_of_kind order taken rest hkind
        rw [Operation.misfit?_of_kind hkind, hfield]
        cases op.checkLength v.length with
        | ok _ => exact Or.inr ⟨rfl, v, rest, written, rfl, rfl⟩
        | error err => exact Or.inl ⟨err, _, rfl, rfl⟩
      · refine Or.inl ⟨_, _, ?_, field_of_mismatch hkind hv⟩
        rw [Operation.misfit?, hkind]
        exact if_pos hv

/-! ## All fields -/

/-- The fields of a record fail with the first misfit, or take one value for each
operation that takes one. -/
theorem fields_outcome : ∀ (ops : List Operation) (order : ByteOrder) (taken : Nat)
    (values : List Value),
    (∃ i err args, misfitAfter? taken ops values i = some err
        ∧ (∀ j < i, misfitAfter? taken ops values j = none)
        ∧ fields order ops ⟨taken, values⟩ = .error err args)
      ∨ (∀ i, misfitAfter? taken ops values i = none)
        ∧ (Operation.takers ops).length ≤ values.length
        ∧ ∃ written, fields order ops ⟨taken, values⟩
          = .ok written ⟨taken + (Operation.takers ops).length,
            values.drop (Operation.takers ops).length⟩
  | [], _, _, _ => Or.inr ⟨fun _ => rfl, Nat.zero_le _, _, rfl⟩
  | op :: ops, order, taken, values => by
      cases hkind : op.kind? with
      | none =>
          obtain ⟨written, hfield⟩ := field_of_pass order hkind ⟨taken, values⟩
          simp only [misfitAfter?_pass hkind, Operation.takers_pass hkind, fields,
            bind_of_ok hfield]
          rcases fields_outcome ops (op.orderAfter order) taken values with
            ⟨i, err, args, hi, hfirst, hrest⟩ | ⟨hfit, hle, rest, hrest⟩
          · exact Or.inl ⟨i, err, args, hi, hfirst, bind_of_error hrest⟩
          · exact Or.inr ⟨hfit, hle, _, bind_of_ok hrest⟩
      | some kind =>
          have htakes : op.kind?.isSome = true := by rw [hkind]; rfl
          rcases field_outcome order htakes taken values with
            ⟨err, args, hmisfit, hfield⟩ | ⟨hfits, v, rest, written, rfl, hfield⟩
          · refine Or.inl ⟨0, err, args, ?_, fun j hj => ?_, ?_⟩
            · rw [misfitAfter?_zero htakes, hmisfit]
            · exact absurd hj (Nat.not_lt_zero j)
            · rw [fields, bind_of_error hfield]
          · have hzero : misfitAfter? taken (op :: ops) (v :: rest) 0 = none := by
              rw [misfitAfter?_zero htakes, hfits]
            rw [fields, bind_of_ok hfield]
            rcases fields_outcome ops (op.orderAfter order) (taken + 1) rest with
              ⟨i, err, args, hi, hfirst, hrest⟩ | ⟨hfit, hle, fields', hrest⟩
            · refine Or.inl ⟨i + 1, err, args, ?_, ?_, bind_of_error hrest⟩
              · rw [misfitAfter?_succ htakes, hi]
              · intro j hj
                cases j with
                | zero => exact hzero
                | succ j =>
                    rw [misfitAfter?_succ htakes]
                    exact hfirst j (Nat.lt_of_succ_lt_succ hj)
            · rw [Operation.takers_cons htakes, List.length_cons]
              refine Or.inr ⟨?_, Nat.succ_le_succ hle, written :: fields', ?_⟩
              · intro i
                cases i with
                | zero => exact hzero
                | succ i => rw [misfitAfter?_succ htakes, hfit]
              · rw [bind_of_ok hrest, List.drop_succ_cons, Nat.add_right_comm, Nat.add_assoc]
                rfl

end Encoder

/-! ## Records -/

theorem Arguments.finish_eq (options : Options) (args : Arguments) :
    args.finish options =
      if 0 < args.rest.length ∧ options.extraValues = .reject then
        .error (.extraArguments args.taken (args.taken + args.rest.length))
      else .ok () := by
  unfold finish
  cases hrest : args.rest with
  | nil => rfl
  | cons v rest =>
      cases hextra : options.extraValues with
      | ignore => simp
      | reject => simp

namespace Format

/-- The error that packing and measuring report, if there is one: the first
misfit, or else values left over that the policy rejects. -/
def Rejects (format : Format) (values : List Value) (options : Options) (err : Error) : Prop :=
  (∃ i, format.misfit? values i = some err ∧ ∀ j < i, format.misfit? values j = none)
    ∨ ((∀ i, format.misfit? values i = none) ∧ format.valueCount < values.length
      ∧ options.extraValues = .reject ∧ err = .extraArguments format.valueCount values.length)

section
variable {format : Format} {values : List Value} {options : Options} {err : Error}

theorem valueCount_eq_length_takers (format : Format) :
    format.valueCount = (Operation.takers format.operations).length := by
  rw [valueCount, kinds, List.length_filterMap_eq_countP, List.countP_eq_length_filter]
  rfl

/-- Neither of two first misfits comes before the other. -/
theorem first_misfit_unique {i k : Nat} {err err' : Error}
    (hi : format.misfit? values i = some err) (hfirst : ∀ j < i, format.misfit? values j = none)
    (hk : format.misfit? values k = some err') (hfirst' : ∀ j < k, format.misfit? values j = none) :
    err = err' := by
  rcases Nat.lt_trichotomy i k with hlt | rfl | hlt
  · rw [hfirst' i hlt] at hi
    cases hi
  · rw [hi] at hk
    exact Option.some.inj hk
  · rw [hfirst k hlt] at hk
    cases hk

theorem fields_eq_error_iff : format.fields values options = .error err ↔
    format.Rejects values options err := by
  rw [fields, Arguments.ofValues]
  rcases Encoder.fields_outcome format.operations .little 0 values with
    ⟨i, err', args, hi, hfirst, hfields⟩ | ⟨hfit, hle, written, hfields⟩
  · rw [hfields]
    constructor
    · intro h
      cases h
      exact Or.inl ⟨i, hi, hfirst⟩
    · rintro (⟨k, hk, hfirst'⟩ | ⟨hfit, -⟩)
      · rw [first_misfit_unique hi hfirst hk hfirst']
      · cases hi.symm.trans (hfit i)
  · rw [← valueCount_eq_length_takers] at hle hfields
    have hsum : format.valueCount + (values.length - format.valueCount) = values.length := by
      omega
    simp only [hfields, Arguments.finish_eq, List.length_drop, Nat.zero_add, Nat.sub_pos_iff_lt,
      hsum]
    constructor
    · intro h
      split at h
      · next hextra =>
          cases h
          exact Or.inr ⟨hfit, hextra.1, hextra.2, rfl⟩
      · cases h
    · rintro (⟨i, hi, -⟩ | ⟨-, hlt, hreject, rfl⟩)
      · cases hi.symm.trans (hfit i)
      · rw [if_pos ⟨hlt, hreject⟩]
        rfl

theorem pack_eq_error_iff : format.pack values options = .error err ↔
    format.Rejects values options err := by
  rw [pack_eq, map_eq_error, fields_eq_error_iff]

theorem measure_eq_error_iff : Size.measure format values options = .error err ↔
    format.Rejects values options err := by
  rw [measure_eq, map_eq_error, fields_eq_error_iff]

end

end Format

/-! ## What misfits depend on -/

/-- The operation with the size of padding, or of a field of a fixed size, forgotten. -/
def Operation.unsized : Operation → Operation
  | .padding _ => .padding 0
  | .bitArray _ => .bitArray 0
  | .fixedString _ => .fixedString 0
  | .fixedBytes _ => .fixedBytes 0
  | op => op

/-- What is left of a value without its content. -/
def Value.outline (v : Value) : Kind × Nat := (v.kind, v.length)

namespace Operation

theorem kind?_unsized (op : Operation) : op.unsized.kind? = op.kind? := by
  cases op <;> rfl

theorem takers_map_unsized (ops : List Operation) :
    takers (ops.map unsized) = (takers ops).map unsized := by
  rw [takers, takers, List.filter_map]
  simp only [Function.comp_def, kind?_unsized]

theorem misfit?_unsized (op : Operation) (index : Nat) (v? : Option Value) :
    op.unsized.misfit? index v? = op.misfit? index v? := by
  cases op <;> rfl

theorem misfit?_congr {v? v'? : Option Value} (h : v'?.map Value.outline = v?.map Value.outline)
    (op : Operation) (index : Nat) : op.misfit? index v'? = op.misfit? index v? := by
  cases v? with
  | none =>
      rw [Option.map_none, Option.map_eq_none_iff] at h
      rw [h]
  | some v =>
      obtain ⟨v', rfl, hv⟩ := Option.map_eq_some_iff.mp h
      obtain ⟨hkind, hlength⟩ := Prod.mk.inj hv
      simp only [misfit?, hkind, hlength]

end Operation

namespace Format

theorem misfit?_congr {f g : Format} {values values' : List Value}
    (hops : g.operations.map Operation.unsized = f.operations.map Operation.unsized)
    (hvalues : values'.map Value.outline = values.map Value.outline) (i : Nat) :
    g.misfit? values' i = f.misfit? values i := by
  have hvalue : values'[i]?.map Value.outline = values[i]?.map Value.outline := by
    rw [← List.getElem?_map, hvalues, List.getElem?_map]
  have htakers : (Operation.takers g.operations)[i]?.map Operation.unsized
      = (Operation.takers f.operations)[i]?.map Operation.unsized := by
    rw [← List.getElem?_map, ← Operation.takers_map_unsized, hops, Operation.takers_map_unsized,
      List.getElem?_map]
  have hmisfit : ∀ op? : Option Operation,
      (op?.bind fun op => op.misfit? (0 + i) values[i]?)
        = (op?.map Operation.unsized).bind fun op => op.misfit? (0 + i) values[i]? := by
    intro op?
    cases op? with
    | none => rfl
    | some op => exact (op.misfit?_unsized (0 + i) values[i]?).symm
  simp only [misfit?, misfitAfter?, Operation.misfit?_congr hvalue]
  rw [hmisfit, htakers, ← hmisfit]

theorem valueCount_congr {f g : Format}
    (hops : g.operations.map Operation.unsized = f.operations.map Operation.unsized) :
    g.valueCount = f.valueCount := by
  have hlength := congrArg (fun ops => (Operation.takers ops).length) hops
  simp only [Operation.takers_map_unsized, List.length_map] at hlength
  rw [valueCount_eq_length_takers, valueCount_eq_length_takers, hlength]

theorem rejects_congr {f g : Format} {values values' : List Value}
    (hops : g.operations.map Operation.unsized = f.operations.map Operation.unsized)
    (hvalues : values'.map Value.outline = values.map Value.outline) (options : Options)
    (err : Error) : g.Rejects values' options err ↔ f.Rejects values options err := by
  have hlength : values'.length = values.length := by
    rw [← List.length_map (f := Value.outline), hvalues, List.length_map]
  simp only [Rejects, misfit?_congr hops hvalues, valueCount_congr hops, hlength]

/-- Packing and measuring report the first misfit, then values left over, and
nothing else; sizes of padding and of fixed fields play no part in it, nor
does what is in the values. -/
theorem pack_reports_first_misfit (format : Format) (values : List Value) (options : Options) :
    (∀ err, (format.pack values options = .error err ↔ format.Rejects values options err)
        ∧ (Size.measure format values options = .error err ↔ format.Rejects values options err))
      ∧ ((∀ err, ¬format.Rejects values options err) →
        ∃ packed size, format.pack values options = .ok packed
          ∧ Size.measure format values options = .ok size
          ∧ (format.Fits values → packed.length = size))
      ∧ ∀ (other : Format) (values' : List Value),
        other.operations.map Operation.unsized = format.operations.map Operation.unsized →
        values'.map Value.outline = values.map Value.outline →
        ∀ err, (other.pack values' options = .error err ↔ format.pack values options = .error err)
          ∧ (Size.measure other values' options = .error err
            ↔ Size.measure format values options = .error err) := by
  refine ⟨fun err => ⟨pack_eq_error_iff, measure_eq_error_iff⟩, fun hnone => ?_,
    fun other values' hops hvalues err => ?_⟩
  · cases hfields : format.fields values options with
    | error err => exact absurd (fields_eq_error_iff.mp hfields) (hnone err)
    | ok written =>
        refine ⟨_, _, by rw [pack_eq, hfields]; rfl, by rw [measure_eq, hfields]; rfl, ?_⟩
        intro hfits
        have hmost : written.flatten.length ≤ Size.most :=
          Nat.le_sub_one_of_lt (length_lt_of_fits hfits hfields)
        simp only [putAll_of_fields hfits hfields, Nat.min_eq_left hmost]
  · have hsame := rejects_congr hops hvalues options err
    exact ⟨pack_eq_error_iff.trans (hsame.trans pack_eq_error_iff.symm),
      measure_eq_error_iff.trans (hsame.trans measure_eq_error_iff.symm)⟩

/-- A blob too long for its length, before a value of the wrong kind and behind
padding that no one could write; with other padding and another blob as well. -/
theorem pack_reports_first_misfit_sample :
    pack ⟨[.padding 18446744073709551615, .bool,
        .countedBytes (.fixed ⟨1, by decide, by decide⟩), .taggedFloat]⟩
        [.bool true, .bytes (List.replicate 256 7), .str "x"] .strict
        = .error (.lengthOverflow 256 1)
      ∧ pack ⟨[.padding 0, .bool, .countedBytes (.fixed ⟨1, by decide, by decide⟩),
        .taggedFloat]⟩ [.bool false, .bytes (List.replicate 256 9), .str "y"] .strict
        = .error (.lengthOverflow 256 1) := by
  have hrejects : Rejects ⟨[.padding 18446744073709551615, .bool,
      .countedBytes (.fixed ⟨1, by decide, by decide⟩), .taggedFloat]⟩
      [.bool true, .bytes (List.replicate 256 7), .str "x"] .strict (.lengthOverflow 256 1) :=
    Or.inl ⟨1, by decide +kernel, by decide +kernel⟩
  obtain ⟨herror, -, hsame⟩ := pack_reports_first_misfit _ _ _
  have hpack := (herror _).1.mpr hrejects
  exact ⟨hpack, (hsame _ _ (by decide +kernel) (by decide +kernel) _).1.mpr hpack⟩

end Format
end PackedRecord
