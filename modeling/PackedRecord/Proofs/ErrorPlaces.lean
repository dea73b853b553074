import PackedRecord.Proofs.Advancing
import PackedRecord.Proofs.ReadingErrors

/-!
# Where errors point

An error of unpacking names a place and says something about the data there.
Both can be checked against the data and the two positions of the reading
that failed, the one it began at and the one it left (`Error.TrueOf`): data
ends too early where the reading stopped, and a tag, a varint or a text
without an end is wrong from where its field began.

Which field that is matters for sequences. A reading whose errors point to its
own beginning (`Read.Truthful`) may stand first only; what follows it has to
be truthful about fields that began earlier too (`Read.TruthfulBehind`), as the
readings of a known length are, which say where they stopped.

Bytes that are no text are the one error that leaves no trace: reading them
leniently ends in the same place (`Read.Recovers`).
-/

namespace PackedRecord

/-! ## Readers in data -/

/-- The reader stands at its position in the data. -/
structure Reader.In (data : List UInt8) (r : Reader) : Prop where
  le : r.position ≤ data.length
  rest : r.rest = data.drop r.position

namespace Reader

theorem in_drop {data : List UInt8} {offset : Nat} (h : offset ≤ data.length) :
    In data ⟨offset, data.drop offset⟩ := ⟨h, rfl⟩

variable {data : List UInt8} {r r' : Reader}

theorem Follows.position_le (h : Follows r' r) : r.position ≤ r'.position := by
  obtain ⟨consumed, -, hposition⟩ := h
  omega

namespace In

theorem follows (hr : In data r) (h : Follows r' r) : In data r' := by
  obtain ⟨position, rest⟩ := r
  obtain ⟨hle, hrest⟩ := hr
  have hrest : rest = data.drop position := hrest
  subst hrest
  obtain ⟨-, hle', hrest'⟩ := h.eq_drop hle
  exact ⟨hle', hrest'⟩

theorem length_rest (hr : In data r) : r.rest.length = data.length - r.position := by
  rw [hr.rest, List.length_drop]

theorem head? (hr : In data r) {b : UInt8} {rest : List UInt8} (h : r.rest = b :: rest) :
    data[r.position]? = some b := by
  have hget : (data.drop r.position)[0]? = data[r.position + 0]? := List.getElem?_drop
  rw [← hr.rest, h] at hget
  exact hget.symm

end In
end Reader

/-! ## What errors say -/

/-- What the error says is so, of a field that begins at `first` and a reading
that stopped at `last`. -/
def Error.TrueOf (data : List UInt8) (first last : Nat) : Error → Prop
  | .unexpectedEnd offset needed available =>
    offset = last ∧ available = data.length - offset ∧ available < needed
  | .invalidTag tag offset =>
    offset = first ∧ last = first + 1 ∧ data[first]? = some tag ∧ 3 < tag.toNat
  | .varintOverflow offset =>
    offset = first ∧ last = first + 10
      ∧ (∀ i < 9, ∃ b, data[first + i]? = some b ∧ 0x80 ≤ b.toNat)
      ∧ ∃ b, data[first + 9]? = some b ∧ 1 < b.toNat
  | .unterminatedString offset =>
    offset = first ∧ last = data.length ∧ (0 : UInt8) ∉ data.drop first
  | .invalidUtf8 offset => first ≤ offset ∧ offset < last
  | _ => False

namespace Read

variable {α β : Type}

/-- Errors of the reading are true of a field that begins where it does. -/
def Truthful (x : Read α) : Prop :=
  ∀ ⦃data : List UInt8⦄ ⦃r r' : Reader⦄ ⦃err : Error⦄, r.In data → x r = .error err r' →
    err.TrueOf data r.position r'.position

/-- Errors of the reading are true of any field that it is the end of. -/
def TruthfulBehind (x : Read α) : Prop :=
  ∀ ⦃data : List UInt8⦄ ⦃r r' : Reader⦄ ⦃err : Error⦄ ⦃first : Nat⦄, r.In data →
    first ≤ r.position → x r = .error err r' → err.TrueOf data first r'.position

namespace TruthfulBehind

theorem truthful {x : Read α} (hx : TruthfulBehind x) : Truthful x :=
  fun _ _ _ _ hr h => hx hr (Nat.le_refl _) h

theorem pure (a : α) : TruthfulBehind (Pure.pure a : Read α) := by
  intro data r r' err first hr hfirst h
  cases h

theorem map {x : Read α} (hx : TruthfulBehind x) (g : α → β) :
    TruthfulBehind (x >>= fun a => Pure.pure (g a)) := by
  intro data r r' err first hr hfirst h
  rcases bind_eq_error.mp h with hxr | ⟨a, r₁, -, hpure⟩
  · exact hx hr hfirst hxr
  · cases hpure

theorem byte : TruthfulBehind Read.byte := by
  rintro data ⟨position, rest⟩ r' err first hr hfirst h
  cases rest with
  | nil =>
      cases h
      exact ⟨rfl, hr.length_rest, Nat.one_pos⟩
  | cons b rest => cases h

theorem bytes (n : Nat) : TruthfulBehind (Read.bytes n) := by
  intro data r r' err first hr hfirst h
  rw [bytes_eq] at h
  split at h
  · next hlt =>
      cases h
      exact ⟨rfl, hr.length_rest, hlt⟩
  · cases h

theorem skip (n : Nat) : TruthfulBehind (Read.skip n) := by
  intro data r r' err first hr hfirst h
  rw [skip_eq] at h
  split at h
  · next hlt =>
      cases h
      exact ⟨rfl, hr.length_rest, hlt⟩
  · cases h

end TruthfulBehind

namespace Truthful

/-- What stands first may point to its beginning, what follows may not. -/
theorem bind {x : Read α} {f : α → Read β} (hx : Truthful x) (hadv : Advances x)
    (hf : ∀ a, TruthfulBehind (f a)) : Truthful (x >>= f) := by
  intro data r r' err hr h
  rcases bind_eq_error.mp h with hxr | ⟨a, r₁, hxr, hfr⟩
  · exact hx hr hxr
  · have hfollows := hadv r
    rw [after_of_ok hxr] at hfollows
    exact hf a (hr.follows hfollows) hfollows.position_le hfr

theorem map {x : Read α} (hx : Truthful x) (g : α → β) :
    Truthful (x >>= fun a => Pure.pure (g a)) := by
  intro data r r' err hr h
  rcases bind_eq_error.mp h with hxr | ⟨a, r₁, -, hpure⟩
  · exact hx hr hxr
  · cases hpure

end Truthful
end Read

open Read (Truthful TruthfulBehind)

/-! ## Numbers -/

namespace Varint

theorem truthful_decode : Truthful decode := by
  rintro data ⟨p, bytes⟩ r' err hr h
  have hrest : bytes = data.drop p := hr.rest
  rcases decode_eq_error_iff.mp h with
    ⟨rfl, opened, last, hsplit, hposition, hlength, hopened, hlast⟩ | ⟨rfl, rfl, -, -⟩
  · have hbyte : ∀ i, data[p + i]? = (opened ++ last :: r'.rest)[i]? := by
      intro i
      rw [← hsplit, hrest, List.getElem?_drop]
    refine ⟨rfl, hposition, fun i hi => ?_, last, ?_, hlast⟩
    · have hi : i < opened.length := hlength.symm ▸ hi
      refine ⟨opened[i], ?_, hopened _ (List.getElem_mem hi)⟩
      rw [hbyte, List.getElem?_append_left hi, List.getElem?_eq_getElem hi]
    · rw [hbyte, ← hlength, List.getElem?_append_right (Nat.le_refl _), Nat.sub_self]
      rfl
  · have hend : bytes.length = data.length - p := hr.length_rest
    have hle : p ≤ data.length := hr.le
    exact ⟨rfl, show 0 = data.length - (p + bytes.length) by omega, Nat.one_pos⟩

end Varint

theorem LengthPrefix.truthful_decode (p : LengthPrefix) (order : ByteOrder) :
    Truthful (p.decode order) := by
  cases p with
  | varint => exact Varint.truthful_decode
  | fixed width => exact ((TruthfulBehind.bytes width.bytes).map _).truthful

theorem TaggedFloat.truthful_decode : Truthful decode := by
  rintro data ⟨position, rest⟩ r' err hr h
  rw [decode_eq, Read.position_bind] at h
  rcases bind_eq_error.mp h with hbyte | ⟨t, r₁, hbyte, h⟩
  · exact TruthfulBehind.byte.truthful hr hbyte
  cases rest with
  | nil => cases hbyte
  | cons c rest =>
      cases hbyte
      have hr₁ : Reader.In data ⟨position + 1, rest⟩ :=
        hr.follows (Read.Advances.byte ⟨position, t :: rest⟩)
      cases htag : ofTag? t with
      | none =>
          rw [decodeBehind, htag] at h
          cases h
          refine ⟨rfl, rfl, hr.head? rfl, ?_⟩
          by_contra hsmall
          have hcases : t = 0 ∨ t = 1 ∨ t = 2 ∨ t = 3 := by
            simp only [← UInt8.toNat_inj]
            show t.toNat = 0 ∨ t.toNat = 1 ∨ t.toNat = 2 ∨ t.toNat = 3
            omega
          rcases hcases with rfl | rfl | rfl | rfl <;> cases htag
      | some width? =>
          rw [decodeBehind, htag] at h
          cases width? with
          | none => cases h
          | some width => exact (TruthfulBehind.bytes _).map _ hr₁ (Nat.le_succ position) h

/-! ## Texts -/

namespace Utf8

/-- Strict reading points into the bytes it was given. -/
theorem read_eq_error {policy : Utf8Policy} {start : Nat} {content : List UInt8} {err : Error}
    (h : read policy start content = .error err) :
    ∃ k < content.length, err = .invalidUtf8 (start + k) := by
  cases policy with
  | lossy => cases h
  | strict =>
      rcases exists_fault content with
        ⟨text, rfl⟩ | ⟨text, b, rest, length, atEnd, rest', rfl, hpiece⟩
      · rw [← bytes_ofList, read_bytes] at h
        cases h
      · rw [read_strict_of_fault hpiece] at h
        cases h
        refine ⟨(encode text).length, ?_, rfl⟩
        rw [List.length_append]
        exact Nat.lt_add_of_pos_right (Nat.succ_pos _)

end Utf8

namespace StringField

theorem ofExcept_eq_error {result : Except Error String} {r r' : Reader} {err : Error}
    (h : Read.ofExcept result r = .error err r') : result = .error err ∧ r' = r := by
  cases result with
  | ok text => cases h
  | error err' =>
      cases h
      exact ⟨rfl, rfl⟩

theorem truthful_decodeTerminated (options : Options) : Truthful (decodeTerminated options) := by
  rintro data ⟨position, rest⟩ r' err hr h
  have hlength : rest.length = data.length - position := hr.length_rest
  have hle : position ≤ data.length := hr.le
  by_cases hmem : (0 : UInt8) ∈ rest
  · obtain ⟨content, after, rfl, hcontent⟩ := List.eq_append_cons_of_mem hmem
    rw [decodeTerminated_closed options hcontent] at h
    obtain ⟨hread, rfl⟩ := ofExcept_eq_error h
    obtain ⟨k, hk, rfl⟩ := Utf8.read_eq_error hread
    exact ⟨Nat.le_add_right _ _, show position + k < position + content.length + 1 by omega⟩
  · rw [decodeTerminated_open options hmem] at h
    split at h
    · cases h
      have hrest : rest = data.drop position := hr.rest
      exact ⟨rfl, show position + rest.length = data.length by omega, hrest ▸ hmem⟩
    · obtain ⟨hread, rfl⟩ := ofExcept_eq_error h
      obtain ⟨k, hk, rfl⟩ := Utf8.read_eq_error hread
      exact ⟨Nat.le_add_right _ _, Nat.add_lt_add_left hk position⟩

/-- A text from some of the bytes of a known number. -/
theorem truthfulBehind_text {policy : Utf8Policy} {n : Nat} (view : List UInt8 → List UInt8)
    (hview : ∀ content, (view content).length ≤ content.length) :
    TruthfulBehind (Read.position >>= fun start =>
      Read.bytes n >>= fun content => Read.ofExcept (Utf8.read policy start (view content))) := by
  intro data r r' err first hr hfirst h
  rw [Read.position_bind] at h
  rcases bind_eq_error.mp h with hbytes | ⟨content, r₁, hbytes, h⟩
  · exact TruthfulBehind.bytes n hr hfirst hbytes
  · obtain ⟨hread, rfl⟩ := ofExcept_eq_error h
    obtain ⟨k, hk, rfl⟩ := Utf8.read_eq_error hread
    have hlength := Read.length_of_bytes hbytes
    have hshort := hview content
    rw [Read.bytes_eq] at hbytes
    split at hbytes
    · cases hbytes
    · cases hbytes
      exact ⟨hfirst.trans (Nat.le_add_right _ _), show r.position + k < r.position + n by omega⟩

theorem length_stripZeros_le (content : List UInt8) :
    (stripZeros content).length ≤ content.length :=
  (List.rdropWhile_prefix _ content).length_le

theorem truthful_decodeCounted (p : LengthPrefix) (order : ByteOrder) (policy : Utf8Policy) :
    Truthful (decodeCounted p order policy) :=
  (p.truthful_decode order).bind (p.advances_decode order) fun _ =>
    truthfulBehind_text id fun _ => Nat.le_refl _

theorem truthful_decodeFixed (size : Nat) (policy : Utf8Policy) :
    Truthful (decodeFixed size policy) :=
  (truthfulBehind_text stripZeros length_stripZeros_le).truthful

end StringField

/-! ## Fields -/

namespace Decoder

theorem truthful_field (options : Options) (order : ByteOrder) (op : Operation) :
    Truthful (field options order op) := by
  cases op with
  | byteOrder next => exact (TruthfulBehind.pure none).truthful
  | padding n => exact ((TruthfulBehind.skip n).map fun _ => none).truthful
  | bool => exact ((TruthfulBehind.byte.map _).map _).truthful
  | bitArray count => exact (((TruthfulBehind.bytes _).map _).map _).truthful
  | countedBits p =>
      exact ((p.truthful_decode order).bind (p.advances_decode order) fun count =>
        (TruthfulBehind.bytes _).map _).map _
  | integer width signed => exact ((((TruthfulBehind.bytes _).map _).map _).map _).truthful
  | float width => exact (((TruthfulBehind.bytes _).map _).map _).truthful
  | taggedFloat => exact TaggedFloat.truthful_decode.map _
  | signedVarint => exact (Varint.truthful_decode.map _).map _
  | unsignedVarint => exact Varint.truthful_decode.map _
  | terminatedString => exact (StringField.truthful_decodeTerminated options).map _
  | countedString p => exact (StringField.truthful_decodeCounted p order _).map _
  | fixedString size => exact (StringField.truthful_decodeFixed size _).map _
  | fixedBytes size => exact ((TruthfulBehind.bytes size).map _).truthful
  | countedBytes p =>
      exact ((p.truthful_decode order).bind (p.advances_decode order) fun length =>
        TruthfulBehind.bytes length).map _

end Decoder

/-! ## Reading on where bytes are no text -/

/-- Where the second reading finds bytes that are no text, the first succeeds
and stops in the same place. -/
def Read.Recovers {α : Type} (x y : Read α) : Prop :=
  ∀ ⦃r r' : Reader⦄ ⦃p : Nat⦄, y r = .error (.invalidUtf8 p) r' → ∃ a, x r = .ok a r'

namespace Read.Recovers

variable {α β : Type}

/-- A reading that never reports such bytes has nothing to recover from. -/
theorem of_reports {x y : Read α} (hy : ReportsUnder .lenient y) : Recovers x y :=
  fun _ _ _ h => nomatch (hy h : Utf8Policy.lossy = .strict)

theorem bind {x : Read α} {f g : α → Read β} (hx : ReportsUnder .lenient x)
    (hf : ∀ a, Recovers (f a) (g a)) : Recovers (x >>= f) (x >>= g) := by
  intro r r' p h
  rcases bind_eq_error.mp h with hxr | ⟨a, r₁, hxr, hgr⟩
  · exact nomatch (hx hxr : Utf8Policy.lossy = .strict)
  · obtain ⟨b, hb⟩ := hf a hgr
    exact ⟨b, (bind_of_ok hxr).trans hb⟩

theorem map {x y : Read α} (hx : Recovers x y) (g : α → β) :
    Recovers (x >>= fun a => Pure.pure (g a)) (y >>= fun a => Pure.pure (g a)) := by
  intro r r' p h
  rcases bind_eq_error.mp h with hyr | ⟨a, r₁, -, hpure⟩
  · obtain ⟨a, hxr⟩ := hx hyr
    exact ⟨g a, bind_of_ok hxr⟩
  · cases hpure

end Read.Recovers

open Read (Recovers ReportsUnder)

theorem Utf8.recovers_read (policy : Utf8Policy) (start : Nat) (content : List UInt8) :
    Recovers (Read.ofExcept (read .lossy start content))
      (Read.ofExcept (read policy start content)) := by
  intro r r' p h
  obtain ⟨-, rfl⟩ := StringField.ofExcept_eq_error h
  exact ⟨lossy content, rfl⟩

namespace StringField

theorem recovers_decodeTerminated (options : Options) :
    Recovers (decodeTerminated { options with invalidUtf8 := .lossy })
      (decodeTerminated options) := by
  refine .bind .position fun start => .bind .untilZero fun ⟨content, terminated⟩ => ?_
  simp only
  split
  · intro r r' p h
    cases h
  · exact Utf8.recovers_read options.invalidUtf8 start content

theorem recovers_decodeCounted (p : LengthPrefix) (order : ByteOrder) (policy : Utf8Policy) :
    Recovers (decodeCounted p order .lossy) (decodeCounted p order policy) :=
  .bind (p.reports_decode order) fun length => .bind .position fun start =>
    .bind (.bytes length) fun content => Utf8.recovers_read policy start content

theorem recovers_decodeFixed (size : Nat) (policy : Utf8Policy) :
    Recovers (decodeFixed size .lossy) (decodeFixed size policy) :=
  .bind .position fun start => .bind (.bytes size) fun content =>
    Utf8.recovers_read policy start (stripZeros content)

end StringField

theorem Decoder.recovers_field (options : Options) (order : ByteOrder) (op : Operation) :
    Recovers (field { options with invalidUtf8 := .lossy } order op) (field options order op) := by
  have hlenient := reports_field .lenient order op
  cases op with
  | terminatedString => exact (StringField.recovers_decodeTerminated options).map _
  | countedString p => exact (StringField.recovers_decodeCounted p order _).map _
  | fixedString size => exact (StringField.recovers_decodeFixed size _).map _
  | _ => exact .of_reports hlenient

end PackedRecord
