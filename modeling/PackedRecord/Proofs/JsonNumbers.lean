import PackedRecord.Json.Parser
import PackedRecord.Proofs.JsonValues

/-!
# Numbers that are read

Every number in a document that was read from a text is finite
(`Json.finite_of_parse?`), so a NaN gets among the values only by its name.

A significand of at most 64 bits is far below the largest float, a product is
checked, and a quotient is at most the dividend, powers of ten being at least
one and rounding keeping order (`Decimal.quotient_le`). The rest of the
grammar hands numbers on, and the theorems about the three functions that call
each other recurse as these do.
-/

namespace PackedRecord

namespace Decimal
open Interchange

/-! ## Scaling -/

theorem absorbFrom_lt (digits : List Char) : ∀ {significand : Nat} (count : Nat),
    significand < UInt64.size → (absorbFrom significand count digits).1 < UInt64.size := by
  induction digits with
  | nil =>
      intro significand count h
      exact h
  | cons c digits ih =>
      intro significand count h
      simp only [absorbFrom]
      split
      · next hnext => exact ih (count + 1) hnext
      · exact h

theorem significand_scale_lt (whole fraction : List Char) (exponent : Int) :
    (scale whole fraction exponent).significand < UInt64.size :=
  absorbFrom_lt fraction 0 (absorbFrom_lt whole 0 (by decide))

theorem ofNat_lt {n : Nat} (h : n < UInt64.size) : ofNat n < double.infinity := by
  have hunits : double.units 0x43F0000000000000 = UInt64.size * double.one := by decide +kernel
  have hle : ofNat n ≤ 0x43F0000000000000 := by
    refine nearest_le_of_le (by decide +kernel) Nat.one_pos ?_
    rw [hunits, Nat.mul_one]
    exact Nat.mul_le_mul_right _ (Nat.le_of_lt h)
  exact hle.trans_lt (by decide +kernel)

theorem one_le_powerOfTen (n : Nat) : double.one ≤ double.units (powerOfTen n) := by
  have hone : double.units (ofNat 1) = double.one := by decide +kernel
  have hpower : 1 * double.one ≤ Nat.pow 10 n * double.one :=
    Nat.mul_le_mul_right double.one (Nat.pow_pos (by decide))
  have hle : ofNat 1 ≤ powerOfTen n := nearest_mono hpower 1
  have hbound : powerOfTen n ≤ double.infinity := by
    rw [powerOfTen, ofNat]
    exact double.nearest_le _ _
  rw [← hone]
  exact units_mono hle (hbound.trans_lt double.infinity_lt_signBit)

theorem product_le (a b : Nat) : product a b ≤ double.infinity := double.nearest_le _ _

/-- Division by one or more takes no float up. -/
theorem quotient_le {a b : Nat} (ha : a ≤ double.infinity) (hb : double.one ≤ double.units b) :
    quotient a b ≤ a :=
  nearest_le_of_le ha (double.one_pos.trans_le hb) (Nat.mul_le_mul_left _ hb)

theorem applyExponent_lt {pattern result : Nat} {exponent : Int}
    (hpattern : pattern < double.infinity) (h : applyExponent pattern exponent = some result) :
    result < double.infinity := by
  have hquotient : ∀ {p} n, p < double.infinity → quotient p (powerOfTen n) < double.infinity :=
    fun n hp => (quotient_le (Nat.le_of_lt hp) (one_le_powerOfTen n)).trans_lt hp
  fun_induction applyExponent pattern exponent with
  | case1 => cases h
  | case2 pattern exponent _ _ _ hne =>
      rw [← Option.some.inj h]
      exact Nat.lt_of_le_of_ne (product_le _ _) hne
  | case3 pattern exponent _ _ =>
      cases h
      exact hquotient _ hpattern
  | case4 exponent _ =>
      cases h
      exact hpattern
  | case5 => cases h
  | case6 pattern exponent _ _ _ ih => exact ih (hquotient _ hpattern) h

end Decimal

namespace Json
open Interchange

/-! ## Numbers -/

theorem finite_of_asFloat? {negative : Bool} {whole fraction : List Char} {exponent : Int}
    {pattern : UInt64} (h : asFloat? negative whole fraction exponent = some pattern) :
    (Json.number (.float pattern)).Finite := by
  obtain ⟨result, hread, hpattern⟩ := Option.bind_eq_some_iff.mp h
  have hlt : result < double.infinity :=
    Decimal.applyExponent_lt (Decimal.ofNat_lt (Decimal.significand_scale_lt ..)) hread
  cases hpattern
  refine .float ?_
  rw [Value.magnitude_ofNat_signed (Nat.le_of_lt hlt)]
  exact hlt

theorem finite_of_number? {negative : Bool} {text rest : List Char} {n : Number}
    (h : number? negative text = some (n, rest)) : (Json.number n).Finite := by
  simp only [number?, Option.bind_eq_bind, Option.bind_eq_some_iff] at h
  obtain ⟨⟨whole, text₁⟩, -, ⟨fraction, text₂⟩, -, ⟨exponent, text₃⟩, -, h⟩ := h
  split at h
  · cases h
    exact .integer _
  · obtain ⟨pattern, hpattern, hresult⟩ := Option.bind_eq_some_iff.mp h
    cases hresult
    exact finite_of_asFloat? hpattern

/-! ## Documents -/

theorem mem_insertField {name : String} {item : Json} {fields : List (String × Json)}
    {field : String × Json} (h : field ∈ insertField name item fields) :
    field = (name, item) ∨ field ∈ fields := by
  induction fields with
  | nil => exact Or.inl (List.mem_singleton.mp h)
  | cons other fields ih =>
      rw [insertField] at h
      split at h
      · rcases List.mem_cons.mp h with rfl | h
        · exact Or.inl rfl
        · exact Or.inr (List.mem_cons_of_mem _ h)
      · split at h
        · exact List.mem_cons.mp h
        · rcases List.mem_cons.mp h with rfl | h
          · exact Or.inr List.mem_cons_self
          · exact (ih h).imp_right (List.mem_cons_of_mem _)

mutual

theorem finite_of_document? : ∀ {fuel depth : Nat} {text rest : List Char} {j : Json},
    document? fuel depth text = some (j, rest) → j.Finite
  | 0, _, _, _, _, h => by
      rw [document?] at h
      cases h
  | fuel + 1, depth, text, rest, j, h => by
      unfold document? at h
      split at h
      · cases h
        exact .null
      · cases h
        exact .bool true
      · cases h
        exact .bool false
      · obtain ⟨⟨s, rest⟩, -, hs⟩ := Option.map_eq_some_iff.mp h
        cases hs
        exact .string s
      · obtain ⟨⟨n, rest⟩, hnumber, hn⟩ := Option.map_eq_some_iff.mp h
        cases hn
        exact finite_of_number? hnumber
      · split at h
        · cases h
        · split at h
          · cases h
            exact .array fun item hitem => (by cases hitem)
          · exact finite_of_items? (fun item hitem => (by cases hitem)) h
      · split at h
        · cases h
        · split at h
          · cases h
            exact .object fun field hfield => (by cases hfield)
          · exact finite_of_fields? (fun field hfield => (by cases hfield)) h
      · obtain ⟨⟨n, rest⟩, hnumber, hn⟩ := Option.map_eq_some_iff.mp h
        cases hn
        exact finite_of_number? hnumber

theorem finite_of_items? : ∀ {fuel depth : Nat} {before : List Json} {text rest : List Char}
    {j : Json}, (∀ item ∈ before, item.Finite) →
    items? fuel depth before text = some (j, rest) → j.Finite
  | 0, _, _, _, _, _, _, h => by
      rw [items?] at h
      cases h
  | fuel + 1, depth, before, text, rest, j, hbefore, h => by
      rw [items?] at h
      split at h
      · cases h
      · next item text hitem =>
          have hitems : ∀ other ∈ item :: before, other.Finite :=
            List.forall_mem_cons.mpr ⟨finite_of_document? hitem, hbefore⟩
          split at h
          · cases h
            exact .array fun other hother => hitems other (List.mem_reverse.mp hother)
          · exact finite_of_items? hitems h
          · cases h

theorem finite_of_fields? : ∀ {fuel depth : Nat} {before : List (String × Json)}
    {text rest : List Char} {j : Json}, (∀ field ∈ before, field.2.Finite) →
    fields? fuel depth before text = some (j, rest) → j.Finite
  | 0, _, _, _, _, _, _, h => by
      rw [fields?] at h
      cases h
  | fuel + 1, depth, before, text, rest, j, hbefore, h => by
      unfold fields? at h
      split at h
      · split at h
        · cases h
        · next name text hname =>
            split at h
            · split at h
              · cases h
              · next item text hitem =>
                  have hfields : ∀ field ∈ insertField name item before, field.2.Finite := by
                    intro field hfield
                    rcases mem_insertField hfield with rfl | hfield
                    · exact finite_of_document? hitem
                    · exact hbefore field hfield
                  simp only at h
                  split at h
                  · cases h
                    exact .object hfields
                  · exact finite_of_fields? hfields h
                  · cases h
            · cases h
      · cases h

end

/-- A document that a text spells has finite numbers only. -/
theorem finite_of_parse? {text : String} {j : Json} (h : parse? text = some j) : j.Finite := by
  rw [parse?] at h
  split at h
  · next j' rest hdocument =>
      split at h
      · cases h
        exact finite_of_document? hdocument
      · cases h
  · cases h

end Json
end PackedRecord
