import PackedRecord.Proofs.Records

/-!
# What unpacking can report

Unpacking can end in an error of the data only, and of those the two about
texts belong to a policy: text that is no UTF-8 is reported by the strict
reading alone, and a text without an end by the policy that rejects it
(`Options.CanReport`). A reading that fails with no other errors
(`Read.ReportsUnder`) may be put in a sequence with others like it, so the
codecs inherit the property from the primitive readings, and the decoder from
the codecs (`Format.canReport_of_unpack`).
-/

namespace PackedRecord

/-- The errors that unpacking can end in under the policies. -/
def Options.CanReport (options : Options) : Error → Prop
  | .unexpectedEnd .. | .invalidTag .. | .varintOverflow _ | .offsetOutOfRange .. => True
  | .invalidUtf8 _ => options.invalidUtf8 = .strict
  | .unterminatedString _ => options.unterminatedStrings = .reject
  | _ => False

/-- Every error of the reading is one that the policies allow for. -/
def Read.ReportsUnder {α : Type} (options : Options) (x : Read α) : Prop :=
  ∀ ⦃r r' : Reader⦄ ⦃err : Error⦄, x r = .error err r' → options.CanReport err

variable {options : Options}

/-! ## Readings in sequence -/

namespace Read.ReportsUnder

variable {α β : Type}

theorem pure (a : α) : ReportsUnder options (Pure.pure a : Read α) := by
  intro r r' err h
  cases h

theorem fail {err : Error} (h : options.CanReport err) :
    ReportsUnder options (Read.fail err : Read α) := by
  intro r r' err' hfail
  cases hfail
  exact h

theorem ofExcept {result : Except Error α}
    (h : ∀ err, result = .error err → options.CanReport err) :
    ReportsUnder options (Read.ofExcept result) := by
  cases result with
  | ok a => exact pure a
  | error err => exact fail (h err rfl)

theorem bind {x : Read α} {f : α → Read β} (hx : ReportsUnder options x)
    (hf : ∀ a, ReportsUnder options (f a)) : ReportsUnder options (x >>= f) := by
  intro r r' err h
  rcases bind_eq_error.mp h with hxr | ⟨a, r₁, -, hfr⟩
  · exact hx hxr
  · exact hf a hfr

theorem map {x : Read α} (hx : ReportsUnder options x) (g : α → β) :
    ReportsUnder options (x >>= fun a => Pure.pure (g a)) :=
  hx.bind fun a => pure (g a)

theorem position : ReportsUnder options Read.position := by
  intro r r' err h
  cases h

theorem byte : ReportsUnder options Read.byte := by
  rintro ⟨p, rest⟩ r' err h
  cases rest with
  | nil =>
      cases h
      trivial
  | cons b rest => cases h

theorem bytes (n : Nat) : ReportsUnder options (Read.bytes n) := by
  intro r r' err h
  rw [bytes_eq] at h
  split at h
  · cases h
    trivial
  · cases h

theorem skip (n : Nat) : ReportsUnder options (Read.skip n) := by
  intro r r' err h
  rw [skip_eq] at h
  split at h
  · cases h
    trivial
  · cases h

theorem untilZero : ReportsUnder options Read.untilZero := by
  intro r r' err h
  unfold Read.untilZero at h
  split at h <;> cases h

end Read.ReportsUnder

open Read (ReportsUnder)

/-! ## Fields -/

namespace Varint

theorem reports_decode : ReportsUnder options decode := by
  rintro ⟨p, bytes⟩ r' err h
  rcases decode_eq_error_iff.mp h with ⟨rfl, -⟩ | ⟨rfl, -⟩ <;> trivial

end Varint

theorem LengthPrefix.reports_decode (p : LengthPrefix) (order : ByteOrder) :
    ReportsUnder options (p.decode order) := by
  cases p with
  | varint => exact Varint.reports_decode
  | fixed width => exact .map (.bytes width.bytes) _

theorem TaggedFloat.reports_decode : ReportsUnder options decode := by
  refine .bind .position fun start => .bind .byte fun t => ?_
  split
  · exact .fail trivial
  · exact .pure 0
  · exact .map (.bytes _) _

theorem Utf8.reports_read (start : Nat) (content : List UInt8) :
    ReportsUnder options (Read.ofExcept (Utf8.read options.invalidUtf8 start content)) := by
  refine .ofExcept fun err h => ?_
  cases hpolicy : options.invalidUtf8 with
  | lossy =>
      rw [hpolicy] at h
      cases h
  | strict =>
      rw [hpolicy] at h
      simp only [Utf8.read] at h
      split at h
      · cases h
      · cases h
        exact hpolicy

namespace StringField

theorem reports_decodeTerminated : ReportsUnder options (decodeTerminated options) := by
  refine .bind .position fun start => .bind .untilZero fun ⟨content, terminated⟩ => ?_
  simp only
  split
  · next h =>
      simp only [Bool.and_eq_true, decide_eq_true_eq] at h
      exact .fail h.2
  · exact Utf8.reports_read start content

theorem reports_decodeCounted (p : LengthPrefix) (order : ByteOrder) :
    ReportsUnder options (decodeCounted p order options.invalidUtf8) :=
  (p.reports_decode order).bind fun length => .bind .position fun start =>
    .bind (.bytes length) fun content => Utf8.reports_read start content

theorem reports_decodeFixed (size : Nat) :
    ReportsUnder options (decodeFixed size options.invalidUtf8) :=
  .bind .position fun start => .bind (.bytes size) fun content =>
    Utf8.reports_read start (stripZeros content)

end StringField

/-! ## Records -/

namespace Decoder

theorem reports_field (options : Options) (order : ByteOrder) (op : Operation) :
    ReportsUnder options (field options order op) := by
  cases op with
  | byteOrder next => exact .pure none
  | padding n => exact .map (.skip n) fun _ => none
  | bool => exact .map (.map .byte _) _
  | bitArray count => exact .map (.map (.bytes _) _) _
  | countedBits p =>
      exact .map (.bind (p.reports_decode order) fun count => .map (.bytes _) _) _
  | integer width signed => exact .map (.map (.map (.bytes _) _) _) _
  | float width => exact .map (.map (.bytes _) _) _
  | taggedFloat => exact .map TaggedFloat.reports_decode _
  | signedVarint => exact .map (.map Varint.reports_decode _) _
  | unsignedVarint => exact .map Varint.reports_decode _
  | terminatedString => exact .map StringField.reports_decodeTerminated _
  | countedString p => exact .map (StringField.reports_decodeCounted p order) _
  | fixedString size => exact .map (StringField.reports_decodeFixed size) _
  | fixedBytes size => exact .map (.bytes size) _
  | countedBytes p => exact .map (.bind (p.reports_decode order) fun length => .bytes length) _

theorem reports_record (options : Options) : ∀ (order : ByteOrder) (ops : List Operation),
    ReportsUnder options (record options order ops)
  | _, [] => .pure []
  | order, op :: ops =>
      (reports_field options order op).bind fun v? =>
        .map (reports_record options (op.orderAfter order) ops) fun values => v?.toList ++ values

end Decoder

theorem Format.canReport_of_unpack {format : Format} {data : List UInt8} {offset : Nat}
    {options : Options} {err : Error} (h : format.unpack data offset options = .error err) :
    options.CanReport err := by
  rcases Nat.lt_or_ge data.length offset with hlt | hle
  · rw [unpack_of_beyond hlt] at h
    cases h
    trivial
  · rw [unpack_eq_record hle] at h
    split at h
    · cases h
    · next hrecord =>
        cases h
        exact Decoder.reports_record options .little format.operations hrecord

end PackedRecord
