import PackedRecord.Decoder
import PackedRecord.Encoder
import PackedRecord.Proofs.Parsing

/-!
# Canonical texts

Every operation whose numbers a text can give has a canonical spelling, and
that spelling is one token of the grammar (`Operation.token_spelling`). The
spellings of a format with spaces between them are therefore a text of the
grammar, which parses to the format it came from (`Format.parse_text`).

The condition, `Format.Spellable`, is on sizes alone, because widths are
bounded by their types. It is exactly what parsing guarantees
(`Format.spellable_of_parse`), so every text has a canonical one that means
the same, and formats differ exactly if their canonical texts do.
-/

namespace PackedRecord

namespace Operation

/-- The number in the operation is a size that a text can give. -/
def Spellable (op : Operation) : Prop := op.sizeParameter < Format.sizeLimit

instance (op : Operation) : Decidable op.Spellable :=
  inferInstanceAs (Decidable (op.sizeParameter < Format.sizeLimit))

end Operation

namespace Format

def Spellable (format : Format) : Prop := ∀ op ∈ format.operations, op.Spellable

instance (format : Format) : Decidable format.Spellable :=
  inferInstanceAs (Decidable (∀ op ∈ format.operations, op.Spellable))

/-- The formats pack, unpack and size alike. -/
structure Alike (f g : Format) : Prop where
  pack : ∀ values options, f.pack values options = g.pack values options
  unpack : ∀ data offset options, f.unpack data offset options = g.unpack data offset options
  measure : ∀ values options, Size.measure f values options = Size.measure g values options
  predict : Size.predict f = Size.predict g

theorem Alike.refl (format : Format) : format.Alike format :=
  ⟨fun _ _ => rfl, fun _ _ _ => rfl, fun _ _ => rfl, rfl⟩

/-! ## Spelling one operation -/

theorem sized_toDigits {n : Nat} (h : n < sizeLimit) : Sized (Nat.toDigits 10 n) n := by
  refine ⟨numeral_iff.mpr ⟨Nat.toDigits_ne_nil, ?_, ?_⟩, h⟩
  · exact fun c hc => Nat.isDigit_of_mem_toDigits (by decide) (by decide) hc
  · exact (Nat.ofDigitChars_toDigits (by decide) (by decide)).symm

theorem lt_sizeLimit {n : Nat} (h : n ≤ 64) : n < sizeLimit :=
  Nat.lt_of_le_of_lt h (by decide)

end Format

namespace Operation

open Format

/-- The canonical spelling is a token of the operation. -/
theorem token_spelling {op : Operation} (h : op.Spellable) : Token op.spelling op := by
  cases op with
  | byteOrder order =>
      cases order with
      | little => exact .little
      | big => exact .big
      | native => exact .native
  | padding n => exact .padding (sized_toDigits h)
  | bool => exact .bool
  | bitArray n => exact .bitArray (sized_toDigits h)
  | countedBits p =>
      cases p with
      | varint => exact .varintBits
      | fixed w => exact .fixedBits w (sized_toDigits h)
  | integer w signed =>
      have hbits : w.bytes * 8 < sizeLimit := lt_sizeLimit (by have hle := w.le; omega)
      cases signed with
      | true => exact .signed w (sized_toDigits hbits)
      | false => exact .unsigned w (sized_toDigits hbits)
  | float w =>
      have hbits : w.bytes * 8 < sizeLimit := by cases w <;> decide
      exact .float w (sized_toDigits hbits)
  | taggedFloat => exact .taggedFloat
  | signedVarint => exact .signedVarint
  | unsignedVarint => exact .unsignedVarint
  | terminatedString => exact .terminatedString
  | countedString p =>
      cases p with
      | varint => exact .varintString
      | fixed w => exact .string w (sized_toDigits h)
  | fixedString n => exact .fixedString (sized_toDigits h)
  | fixedBytes n => exact .fixedBytes (sized_toDigits h)
  | countedBytes p =>
      cases p with
      | varint => exact .varintBytes
      | fixed w => exact .countedBytes w (sized_toDigits h)

end Operation

namespace Format

/-- No token stands for an operation with a number beyond the sizes. -/
theorem Token.spellable {text : List Char} {op : Operation} (h : Token text op) :
    op.Spellable := by
  cases h with
  | singlePadding => exact lt_sizeLimit (n := 1) (by decide)
  | padding h | bitArray h | fixedString h | fixedBytes h => exact h.2
  | fixedBits w h | countedBytes w h | string w h => exact h.2
  | defaultSigned w | defaultUnsigned w | defaultString w | signed w | unsigned w =>
      exact lt_sizeLimit (Nat.le_trans w.le (by decide))
  | float w => cases w <;> exact lt_sizeLimit (by decide)
  | _ => exact lt_sizeLimit (by decide)

theorem Spells.spellable {text : List Char} {ops : List Operation} (h : Spells text ops) :
    ∀ op ∈ ops, op.Spellable := by
  induction h with
  | empty => exact fun op hop => absurd hop List.not_mem_nil
  | blank _ _ ih => exact ih
  | token htoken _ ih =>
      intro op hop
      rcases List.mem_cons.mp hop with rfl | hop
      · exact htoken.spellable
      · exact ih op hop

theorem spellable_of_parse {text : String} {format : Format} (h : parse text = .ok format) :
    format.Spellable :=
  (parse_eq_ok_iff.mp h).spellable

/-! ## Spelling a format -/

theorem spells_spelling : ∀ {ops : List Operation}, (∀ op ∈ ops, op.Spellable) →
    Spells (spelling ⟨ops⟩) ops
  | [], _ => .empty
  | [op], h => by
      have htoken := Operation.token_spelling (h op (List.mem_singleton.mpr rfl))
      have hspells := Spells.token htoken .empty
      rw [List.append_nil] at hspells
      rw [spelling, List.map_singleton, List.intercalate_singleton]
      exact hspells
  | op :: next :: ops, h => by
      have htoken := Operation.token_spelling (h op List.mem_cons_self)
      have hrest : Spells (spelling ⟨next :: ops⟩) (next :: ops) :=
        spells_spelling fun op hop => h op (List.mem_cons_of_mem _ hop)
      have hspelling : spelling ⟨op :: next :: ops⟩
          = op.spelling ++ ' ' :: spelling ⟨next :: ops⟩ := by
        simp [spelling, List.intercalate_cons_cons]
      rw [hspelling]
      exact .token htoken (.blank rfl hrest)

theorem parse_text {format : Format} (h : format.Spellable) : parse format.text = .ok format := by
  rw [parse_eq_ok_iff, text, String.toList_ofList]
  exact spells_spelling h

theorem valueCount_eq_countP (format : Format) :
    format.valueCount = format.operations.countP fun op => op.kind?.isSome :=
  List.length_filterMap_eq_countP

/-- A format that a text can spell parses back from its canonical text, which
no other format shares, and what a text spells is such a format. -/
theorem parse_canonical :
    (∀ text format, parse text = .ok format → format.Spellable)
      ∧ ∀ format : Format, format.Spellable →
        parse format.text = .ok format
          ∧ format.valueCount = format.operations.countP (fun op => op.kind?.isSome)
          ∧ (∀ again, parse format.text = .ok again →
            again.text = format.text ∧ again.Alike format)
          ∧ ∀ other : Format, other.Spellable → other.text = format.text → other = format := by
  refine ⟨fun text format h => spellable_of_parse h, fun format h =>
    ⟨parse_text h, format.valueCount_eq_countP, ?_, ?_⟩⟩
  · intro again hagain
    rw [parse_text h] at hagain
    cases hagain
    exact ⟨rfl, .refl format⟩
  · intro other hother htext
    have hparse := parse_text hother
    rw [htext, parse_text h] at hparse
    exact (Except.ok.inj hparse).symm

/-- No elements are not one boolean, and the largest size is written out. -/
theorem parse_canonical_sample :
    parse (text ⟨[.bool, .bitArray 0, .integer ⟨3, by decide, by decide⟩ true,
        .countedBytes .varint, .padding 18446744073709551615]⟩)
      = .ok ⟨[.bool, .bitArray 0, .integer ⟨3, by decide, by decide⟩ true,
        .countedBytes .varint, .padding 18446744073709551615]⟩ :=
  (parse_canonical.2 _ (by decide)).1

end Format
end PackedRecord
