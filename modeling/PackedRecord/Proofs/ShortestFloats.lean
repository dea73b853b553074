import PackedRecord.Proofs.Floats
import PackedRecord.Proofs.Writing

/-!
# The shortest tagged float

A pattern that is read from a field of some width is one that this width keeps
(`FloatField.kept_of_decode`): narrowing it and widening it again gives it
back. So a value that any field of half or single width has is found by
rounding, and `TaggedFloat.width?`, which tries the widths in order, chooses
none that is wider than one that keeps the value (`TaggedFloat.length_le`).
Equality of values is equality of patterns but for the zeros, which take the
shortest field there is, and for NaNs, which equal nothing and for which
nothing shorter is ever tried.
-/

namespace PackedRecord

theorem Double.equal_self {pattern : Nat} (h : Interchange.double.isNaN pattern = false) :
    equal pattern pattern = true := by
  simp [equal, h]

theorem Double.equal_of_isNaN {a b : Nat} (h : Interchange.double.isNaN b = true) :
    equal a b = false := by
  simp [equal, h]

theorem FloatField.widen_narrow_of_kept {width : FloatWidth} {pattern : UInt64}
    (h : kept width pattern = pattern) :
    width.widen (width.narrow pattern.toNat) = pattern.toNat := by
  rw [← toNat_kept, h]

namespace TaggedFloat
open Interchange

variable {pattern w : UInt64} {width : FloatWidth} {r r' : Reader}

/-! ## Lengths -/

/-- The length of a tagged float of a width. -/
def lengthOf : Option FloatWidth → Nat
  | none => 1
  | some width => 1 + width.bytes

theorem length_eq (pattern : UInt64) : length pattern = lengthOf (width? pattern.toNat) := by
  rw [length]
  cases width? pattern.toNat <;> rfl

theorem one_le_lengthOf (width? : Option FloatWidth) : 1 ≤ lengthOf width? := by
  cases width? with
  | none => exact Nat.le_refl 1
  | some width => exact Nat.le_add_right 1 _

theorem lengthOf_le_double : ∀ width?, lengthOf width? ≤ lengthOf (some .double)
  | none | some .half | some .single | some .double => by decide

theorem width?_of_isNaN {pattern : Nat} (h : double.isNaN pattern = true) :
    width? pattern = some .double := by
  have hzero : ¬Double.equal pattern 0 = true := by simp [Double.equal, h]
  rw [width?, if_neg hzero, Double.equal_of_isNaN h, Double.equal_of_isNaN h]
  rfl

/-- No width that keeps the value is narrower than the one that is chosen. -/
theorem length_le (hnan : double.isNaN pattern.toNat = false)
    (hkept : FloatField.kept width pattern = pattern) : length pattern ≤ lengthOf (some width) := by
  have hequal := Double.equal_self hnan
  have hsame := FloatField.widen_narrow_of_kept hkept
  rw [length_eq, width?]
  split
  · exact one_le_lengthOf _
  · cases width with
    | half =>
        rw [hsame, if_pos hequal]
    | single =>
        rw [hsame, if_pos hequal]
        split <;> decide
    | double => exact lengthOf_le_double _

/-! ## Readings -/

/-- What was read is behind a tag, and what stands there is of the tag's width. -/
theorem decode_eq_ok (h : decode r = .ok w r') :
    ∃ width?, r.rest.length = lengthOf width? + r'.rest.length
      ∧ ((width? = none ∧ w = 0)
        ∨ ∃ width, width? = some width ∧ FloatField.kept width w = w) := by
  obtain ⟨t, r₁, htag, hbehind⟩ := bind_eq_ok.mp (show (_ >>= decodeBehind r.position) r = _ from h)
  obtain ⟨p, rest⟩ := r
  cases rest with
  | nil => cases htag
  | cons b rest =>
      cases htag
      rw [decodeBehind] at hbehind
      cases htag : ofTag? t with
      | none =>
          rw [htag] at hbehind
          cases hbehind
      | some width? =>
          rw [htag] at hbehind
          cases width? with
          | none =>
              cases hbehind
              exact ⟨none, Nat.add_comm .., Or.inl ⟨rfl, rfl⟩⟩
          | some width =>
              refine ⟨some width, ?_, Or.inr ⟨width, rfl, FloatField.kept_of_decode hbehind⟩⟩
              obtain ⟨content, r₂, hbytes, hpure⟩ := bind_eq_ok.mp hbehind
              cases hpure
              rw [Read.bytes_eq] at hbytes
              split at hbytes
              · cases hbytes
              · next hle =>
                  cases hbytes
                  have hle : ¬rest.length < width.bytes := hle
                  simp only [lengthOf, List.length_cons, List.length_drop]
                  omega

/-- Whatever reads as an equal value is as long as the field that is written. -/
theorem length_le_of_decode (h : decode r = .ok w r')
    (hequal : Double.equal w.toNat pattern.toNat = true) :
    length pattern + r'.rest.length ≤ r.rest.length := by
  obtain ⟨width?, hlength, hread⟩ := decode_eq_ok h
  rw [hlength]
  refine Nat.add_le_add_right ?_ _
  cases hzero : double.isZero pattern.toNat with
  | true =>
      rw [length_eq, width?_eq_none.mpr hzero]
      exact one_le_lengthOf width?
  | false =>
      obtain rfl : w = pattern := UInt64.toNat_inj.mp (eq_of_equal hequal hzero)
      rcases hread with ⟨-, rfl⟩ | ⟨width, rfl, hkept⟩
      · exact absurd hzero (by decide)
      · have hnan : double.isNaN w.toNat = false := by
          rw [← Bool.not_eq_true]
          intro hnan
          rw [Double.equal_of_isNaN hnan] at hequal
          cases hequal
        exact length_le hnan hkept

/-! ## Lossless and shortest -/

/-- A tagged float is written behind what was written before, and reads as the
pattern it was written for, from anywhere in any data, but for the negative zero;
nothing shorter reads as an equal value; and a NaN takes all its bytes. -/
theorem encode_is_shortest (pattern : UInt64) :
    (∀ output, write pattern output = .ok () (output ++ encode pattern))
      ∧ (encode pattern).length = length pattern
      ∧ (∀ before behind, ∃ r,
        Reader.start (before ++ (encode pattern ++ behind)) before.length = .ok r
          ∧ decode r = .ok (if pattern = 0x8000000000000000 then 0 else pattern)
            ⟨before.length + length pattern, behind⟩)
      ∧ (∀ r w r' consumed, decode r = .ok w r' → r.rest = consumed ++ r'.rest →
        consumed.length < length pattern → Double.equal w.toNat pattern.toNat = false)
      ∧ (double.isNaN pattern.toNat = true → length pattern = 9) := by
  refine ⟨write_eq pattern, length_encode pattern, fun before behind => ?_,
    fun r w r' consumed h hrest hshort => ?_, fun hnan => ?_⟩
  · refine ⟨⟨before.length, encode pattern ++ behind⟩, ?_, ?_⟩
    · rw [Reader.start, if_neg (by simp), List.drop_left]
    · rw [reads_decode, kept_eq, length_encode]
  · rw [← Bool.not_eq_true]
    intro hequal
    have hle := length_le_of_decode h hequal
    rw [hrest, List.length_append] at hle
    omega
  · rw [length_eq, width?_of_isNaN hnan]
    rfl

/-- One and a half between other bytes, a byte that reads as something else, and
a NaN that is not quiet. -/
theorem encode_is_shortest_sample :
    (∃ r, Reader.start [9, 1, 0x00, 0x3E, 7] 1 = .ok r
      ∧ decode r = .ok 0x3FF8000000000000 ⟨4, [7]⟩)
      ∧ (decode ⟨0, [0]⟩ = .ok 0 ⟨1, []⟩
        ∧ Double.equal (0 : UInt64).toNat (0x3FF8000000000000 : UInt64).toNat = false)
      ∧ length 0xFFF0000000000001 = 9 := by
  have hencode : encode 0x3FF8000000000000 = [1, 0x00, 0x3E] := by decide +kernel
  obtain ⟨-, hlength, hreads, hshort, -⟩ := encode_is_shortest 0x3FF8000000000000
  obtain ⟨-, -, -, -, hnan⟩ := encode_is_shortest 0xFFF0000000000001
  have hread := hreads [9] [7]
  rw [← hlength, hencode] at hread
  refine ⟨hread, ⟨rfl, hshort ⟨0, [0]⟩ 0 ⟨1, []⟩ [0] rfl rfl ?_⟩, hnan (by decide +kernel)⟩
  rw [← hlength, hencode]
  decide

end TaggedFloat
end PackedRecord
