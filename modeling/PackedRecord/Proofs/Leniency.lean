import PackedRecord.Proofs.Misfits
import PackedRecord.Proofs.ReadingErrors

/-!
# What leniency changes

A lenient policy turns one error into a success and touches nothing else. For
unpacking that is a comparison of two runs on the same data, the strict one
and another: they agree up to the first field where the strict one ends in an
error that a policy forgives (`Read.Relaxes`). Such an error is the last thing
that happens in the strict run, so runs put in a sequence agree just as far
(`Read.Relaxes.bind`), and the three places where a policy is asked are all
that is left to look at. The record as a whole is `Format.unpack_relaxes`.

For packing the only policy asked is the one on values left over, and asking
it is the last step; ignoring them is leaving them out (`Format.fields_ignore`).
-/

namespace PackedRecord

/-- The errors that a lenient policy on texts turns into successes. -/
def Error.isForgivable : Error → Bool
  | .unterminatedString _ | .invalidUtf8 _ => true
  | _ => false

/-! ## Two readings in step -/

/-- The first reading does what the second does, unless the second ends in an
error that a policy forgives. -/
def Read.Relaxes {α : Type} (x y : Read α) : Prop :=
  ∀ r, x r = y r ∨ ∃ err r', y r = .error err r' ∧ err.isForgivable = true

namespace Read.Relaxes

variable {α β : Type}

theorem refl (x : Read α) : Relaxes x x := fun _ => Or.inl rfl

theorem bind {x y : Read α} {f g : α → Read β} (hx : Relaxes x y) (hf : ∀ a, Relaxes (f a) (g a)) :
    Relaxes (x >>= f) (y >>= g) := by
  intro r
  rcases hx r with hsame | ⟨err, r', herr, hforgiven⟩
  · cases hy : y r with
    | error err r' => exact Or.inl (by rw [bind_of_error hy, bind_of_error (hsame.trans hy)])
    | ok a r' =>
        rw [bind_of_ok hy, bind_of_ok (hsame.trans hy)]
        exact hf a r'
  · exact Or.inr ⟨err, r', bind_of_error herr, hforgiven⟩

theorem map {x y : Read α} (hx : Relaxes x y) (g : α → β) :
    Relaxes (x >>= fun a => Pure.pure (g a)) (y >>= fun a => Pure.pure (g a)) :=
  hx.bind fun a => refl (Pure.pure (g a))

end Read.Relaxes

open Read (Relaxes)

/-! ## Texts -/

/-- Bytes that the strict reading accepts are the same text under either policy. -/
theorem Utf8.read_relaxes (policy : Utf8Policy) (offset : Nat) (content : List UInt8) :
    Relaxes (Read.ofExcept (Utf8.read policy offset content))
      (Read.ofExcept (Utf8.read .strict offset content)) := by
  cases hdecode : decode content with
  | ok text =>
      obtain rfl := decode_eq_ok_iff.mp hdecode
      rw [read_bytes, read_bytes]
      exact .refl _
  | error fault =>
      have hstrict :
          read .strict offset content = .error (.invalidUtf8 (offset + fault.offset)) := by
        simp only [read, hdecode]
      rw [hstrict]
      exact fun r => Or.inr ⟨_, r, rfl, rfl⟩

namespace StringField

theorem decodeTerminated_relaxes (options : Options) :
    Relaxes (decodeTerminated options) (decodeTerminated .strict) := by
  refine .bind (.refl _) fun start => .bind (.refl _) fun ⟨content, terminated⟩ => ?_
  cases terminated with
  | true => exact Utf8.read_relaxes options.invalidUtf8 start content
  | false => exact fun r => Or.inr ⟨.unterminatedString start, r, rfl, rfl⟩

theorem decodeCounted_relaxes (p : LengthPrefix) (order : ByteOrder) (policy : Utf8Policy) :
    Relaxes (decodeCounted p order policy) (decodeCounted p order .strict) :=
  .bind (.refl _) fun _ => .bind (.refl _) fun start => .bind (.refl _) fun content =>
    Utf8.read_relaxes policy start content

theorem decodeFixed_relaxes (size : Nat) (policy : Utf8Policy) :
    Relaxes (decodeFixed size policy) (decodeFixed size .strict) :=
  .bind (.refl _) fun start => .bind (.refl _) fun content =>
    Utf8.read_relaxes policy start (stripZeros content)

end StringField

/-! ## Unpacking -/

namespace Decoder

theorem field_relaxes (options : Options) (order : ByteOrder) (op : Operation) :
    Relaxes (field options order op) (field .strict order op) := by
  cases op with
  | terminatedString => exact .map (StringField.decodeTerminated_relaxes options) _
  | countedString p => exact .map (StringField.decodeCounted_relaxes p order _) _
  | fixedString size => exact .map (StringField.decodeFixed_relaxes size _) _
  | _ => exact .refl _

theorem record_relaxes (options : Options) : ∀ (order : ByteOrder) (ops : List Operation),
    Relaxes (record options order ops) (record .strict order ops)
  | _, [] => .refl _
  | order, op :: ops =>
      (field_relaxes options order op).bind fun _ =>
        .map (record_relaxes options (op.orderAfter order) ops) _

theorem field_extraValues (options : Options) (extra : ExtraValues) (order : ByteOrder)
    (op : Operation) :
    field { options with extraValues := extra } order op = field options order op := by
  cases op <;> rfl

theorem record_extraValues (options : Options) (extra : ExtraValues) :
    ∀ (order : ByteOrder) (ops : List Operation),
      record { options with extraValues := extra } order ops = record options order ops
  | _, [] => rfl
  | order, op :: ops => by
      simp only [record, field_extraValues, record_extraValues]

end Decoder

namespace Format

variable (format : Format) (data : List UInt8) (offset : Nat) (options : Options)

/-- Unpacking does what it does under the strict policies, unless these end in
an error that a policy forgives. -/
theorem unpack_relaxes : format.unpack data offset options = format.unpack data offset .strict
    ∨ ∃ err, format.unpack data offset .strict = .error err ∧ err.isForgivable = true := by
  rcases Nat.lt_or_ge data.length offset with hlt | hle
  · exact Or.inl (by rw [unpack_of_beyond hlt, unpack_of_beyond hlt])
  · rcases Decoder.record_relaxes options .little format.operations ⟨offset, data.drop offset⟩
      with hsame | ⟨err, r, herr, hforgiven⟩
    · exact Or.inl (by rw [unpack_eq_record hle, unpack_eq_record hle, hsame])
    · exact Or.inr ⟨err, unpack_of_error hle herr, hforgiven⟩

theorem unpack_extraValues (extra : ExtraValues) :
    format.unpack data offset { options with extraValues := extra }
      = format.unpack data offset options := by
  rcases Nat.lt_or_ge data.length offset with hlt | hle
  · rw [unpack_of_beyond hlt, unpack_of_beyond hlt]
  · rw [unpack_eq_record hle, unpack_eq_record hle, Decoder.record_extraValues]

end Format

/-! ## Packing -/

namespace Format

variable {format : Format} {values : List Value}

theorem misfit?_take (format : Format) (values : List Value) (i : Nat) :
    format.misfit? (values.take format.valueCount) i = format.misfit? values i := by
  unfold misfit? misfitAfter?
  rcases Nat.lt_or_ge i format.valueCount with hlt | hge
  · rw [List.getElem?_take_of_lt hlt]
  · rw [valueCount_eq_length_takers] at hge
    rw [List.getElem?_eq_none hge, Option.bind_none, Option.bind_none]

/-- Ignoring the values left over is leaving them out. -/
theorem fields_ignore (format : Format) (values : List Value) (options : Options) :
    format.fields values { options with extraValues := .ignore }
      = format.fields (values.take format.valueCount) { options with extraValues := .reject } := by
  cases hfields : format.fields values { options with extraValues := .ignore } with
  | ok written =>
      obtain ⟨taken, left, rfl, hwrites, -⟩ := fields_eq_ok_iff.mp hfields
      have hlength : taken.length = format.valueCount := by
        rw [valueCount, kinds, ← hwrites.kinds, List.length_map]
      rw [← hlength, List.take_left]
      exact (fields_eq_ok_iff.mpr ⟨taken, [], (List.append_nil _).symm, hwrites, Or.inl rfl⟩).symm
  | error err =>
      rcases fields_eq_error_iff.mp hfields with ⟨i, hi, hfirst⟩ | ⟨-, -, hreject, -⟩
      · refine (fields_eq_error_iff.mpr (Or.inl ⟨i, ?_, fun j hj => ?_⟩)).symm
        · rw [misfit?_take, hi]
        · rw [misfit?_take, hfirst j hj]
      · cases hreject

/-- The policies on texts are not asked. -/
theorem fields_texts (format : Format) (values : List Value) (options : Options)
    (unterminated : UnterminatedStrings) (utf8 : Utf8Policy) :
    format.fields values ⟨options.extraValues, unterminated, utf8⟩
      = format.fields values options :=
  rfl

/-- A lenient policy makes a success of the error it is there for, and changes
nothing else about unpacking, packing or measuring. -/
theorem lenient_only_forgives (format : Format) (options : Options) :
    (∀ data offset,
      (∀ record, format.unpack data offset .strict = .ok record →
        format.unpack data offset options = .ok record)
      ∧ (∀ err, format.unpack data offset .strict = .error err → err.isForgivable = false →
        format.unpack data offset options = .error err)
      ∧ (options.unterminatedStrings = .accept →
        ∀ p, format.unpack data offset options ≠ .error (.unterminatedString p))
      ∧ (options.invalidUtf8 = .lossy →
        ∀ p, format.unpack data offset options ≠ .error (.invalidUtf8 p))
      ∧ ∀ extra, format.unpack data offset { options with extraValues := extra }
        = format.unpack data offset options)
    ∧ ∀ values,
      (format.pack values { options with extraValues := .ignore }
          = format.pack (values.take format.valueCount) { options with extraValues := .reject }
        ∧ Size.measure format values { options with extraValues := .ignore }
          = Size.measure format (values.take format.valueCount)
            { options with extraValues := .reject })
      ∧ ∀ unterminated utf8,
        format.pack values ⟨options.extraValues, unterminated, utf8⟩ = format.pack values options
        ∧ Size.measure format values ⟨options.extraValues, unterminated, utf8⟩
          = Size.measure format values options := by
  refine ⟨fun data offset => ⟨?_, ?_, ?_, ?_, ?_⟩, fun values => ⟨?_, fun unterminated utf8 => ?_⟩⟩
  · intro record hstrict
    rcases unpack_relaxes format data offset options with hsame | ⟨err, herr, -⟩
    · rw [hsame, hstrict]
    · rw [hstrict] at herr
      cases herr
  · intro err hstrict hkept
    rcases unpack_relaxes format data offset options with hsame | ⟨err', herr, hforgiven⟩
    · rw [hsame, hstrict]
    · rw [hstrict] at herr
      cases herr
      rw [hkept] at hforgiven
      cases hforgiven
  · intro haccept p herr
    have hreject : options.unterminatedStrings = .reject := canReport_of_unpack herr
    rw [haccept] at hreject
    cases hreject
  · intro hlossy p herr
    have hstrict : options.invalidUtf8 = .strict := canReport_of_unpack herr
    rw [hlossy] at hstrict
    cases hstrict
  · exact unpack_extraValues format data offset options
  · simp only [pack_eq, measure_eq, fields_ignore format values options, and_self]
  · simp only [pack_eq, measure_eq, fields_texts format values options unterminated utf8, and_self]

/-- A varint that never ends is an error under all policies, a text that never
ends is not. -/
theorem lenient_only_forgives_sample :
    unpack ⟨[.terminatedString, .unsignedVarint]⟩ [0x68, 0, 0xFF] 0 .lenient
        = .error (.unexpectedEnd 3 1 0)
      ∧ ∀ p, unpack ⟨[.terminatedString]⟩ [0x68, 0xFF] 0 .lenient
        ≠ .error (.unterminatedString p) :=
  ⟨((lenient_only_forgives _ .lenient).1 _ _).2.1 _ (by decide +kernel) rfl,
    ((lenient_only_forgives _ .lenient).1 _ _).2.2.1 rfl⟩

end Format
end PackedRecord
