import Mathlib.Algebra.Order.Field.Rat
import Mathlib.Tactic.FieldSimp
import Mathlib.Tactic.Linarith
import PackedRecord.Proofs.Rounding

/-!
# The nearest value

Rounding finds the two neighbouring patterns that a quotient lies between and
compares twice the quotient with the sum of their values, which is twice the
middle between them (`Interchange.twiceMiddle`). `nearest_cases` says which of
the two it takes. From there it is a matter of the order of values that no
other pattern is nearer (`convert_nearest`), and that the quotients which are
rounded to infinity are those from the middle between the greatest finite
value and the one that would come next (`convert_eq_infinity_iff`).

Values are rational numbers here: the units of the model over the units in
one.
-/

namespace PackedRecord.Interchange

variable {f g : Interchange} {num den m n p q : Nat}

/-! ## Neighbours -/

theorem units_zero (f : Interchange) : f.units 0 = 0 := by
  have hform : f.Form 0 0 0 := ⟨by simp, by have := f.binade_pos; omega, Or.inl rfl⟩
  rw [hform.units f.signBit_pos, Nat.zero_mul]

/-- The next pattern is one step of its exponent further. -/
theorem Form.units_succ {s a : Nat} (h : f.Form s a m) (hm : m + 1 < f.signBit) :
    f.units (m + 1) = (a + 1) * 2 ^ s := by
  obtain ⟨t, b, hnext, hvalue⟩ := h.succ
  rw [hnext.units hm, hvalue]

theorem units_lt_units (h : p < q) (hq : q < f.signBit) : f.units p < f.units q := by
  obtain ⟨s, a, hform⟩ := f.exists_form p
  calc f.units p = a * 2 ^ s := hform.units (by omega)
    _ < (a + 1) * 2 ^ s := Nat.mul_lt_mul_of_pos_right (Nat.lt_add_one a) (Nat.two_pow_pos s)
    _ = f.units (p + 1) := (hform.units_succ (by omega)).symm
    _ ≤ f.units q := units_mono h hq

/-- The sum of the values of a pattern and the next one. -/
def twiceMiddle (f : Interchange) (m : Nat) : Nat := f.units m + f.units (m + 1)

theorem twiceMiddle_between (f : Interchange) (hm : m < f.infinity) (hden : 0 < den) :
    2 * (f.units m * den) < f.twiceMiddle m * den
      ∧ f.twiceMiddle m * den < 2 * (f.units (m + 1) * den) := by
  have hinf := f.infinity_lt_signBit
  have hlt : f.units m < f.units (m + 1) := units_lt_units (Nat.lt_add_one m) (by omega)
  have hscaled := Nat.mul_lt_mul_of_pos_right hlt hden
  rw [Interchange.twiceMiddle, Nat.add_mul]
  omega

/-! ## Rounding -/

/-- A quotient is rounded up from the middle between two integers on, and from
there itself if the lower one is odd. -/
theorem roundDiv_cases (num : Nat) (hden : 0 < den) :
    (roundDiv num den = num / den
        ∧ (2 * num < (2 * (num / den) + 1) * den
          ∨ 2 * num = (2 * (num / den) + 1) * den ∧ num / den % 2 = 0))
      ∨ (roundDiv num den = num / den + 1
        ∧ ((2 * (num / den) + 1) * den < 2 * num
          ∨ 2 * num = (2 * (num / den) + 1) * den ∧ num / den % 2 = 1)) := by
  have hsplit := Nat.div_add_mod num den
  have hlt := Nat.mod_lt num hden
  have hmiddle : (2 * (num / den) + 1) * den = 2 * (den * (num / den)) + den := by ring
  rw [hmiddle]
  simp only [roundDiv]
  split
  · exact Or.inl ⟨rfl, Or.inl (by omega)⟩
  · split
    · exact Or.inr ⟨rfl, Or.inl (by omega)⟩
    · rcases Nat.mod_two_eq_zero_or_one (num / den) with heven | hodd
      · exact Or.inl ⟨by omega, Or.inr ⟨by omega, heven⟩⟩
      · exact Or.inr ⟨by omega, Or.inr ⟨by omega, hodd⟩⟩

/-- A quotient below infinity lies between two neighbours, and their middle
decides. -/
theorem nearest_cases (heven : f.binade % 2 = 0) (num : Nat) (hden : 0 < den) :
    (∃ m < f.infinity, f.units m * den ≤ num ∧ num < f.units (m + 1) * den
      ∧ ((f.nearest num den = m
          ∧ (2 * num < f.twiceMiddle m * den ∨ 2 * num = f.twiceMiddle m * den ∧ m % 2 = 0))
        ∨ (f.nearest num den = m + 1
          ∧ (f.twiceMiddle m * den < 2 * num ∨ 2 * num = f.twiceMiddle m * den ∧ m % 2 = 1))))
      ∨ (f.units f.infinity * den ≤ num ∧ f.nearest num den = f.infinity) := by
  have hinf := f.infinity_lt_signBit
  generalize hs : (num / den).log2 - f.fractionBits = s
  have hweight : 0 < den * 2 ^ s := Nat.mul_pos hden (Nat.two_pow_pos s)
  have hlower := Nat.div_mul_le_self num (den * 2 ^ s)
  have hupper := (Nat.div_lt_iff_lt_mul hweight).mp (Nat.lt_succ_self (num / (den * 2 ^ s)))
  have hround := roundDiv_cases num hweight
  have hform := f.form_truncated num den hs
  rw [nearest_of_shift hs]
  generalize num / (den * 2 ^ s) = a at hform hlower hupper hround
  generalize hm : s * f.binade + a = m at hform
  rcases Nat.lt_or_ge m f.infinity with hfinite | hbeyond
  · have hvalue : f.units m * den = a * (den * 2 ^ s) := by
      rw [hform.units (by omega)]
      ring
    have hnext : f.units (m + 1) * den = (a + 1) * (den * 2 ^ s) := by
      rw [hform.units_succ (by omega)]
      ring
    have hmiddle : f.twiceMiddle m * den = (2 * a + 1) * (den * 2 ^ s) := by
      rw [twiceMiddle, Nat.add_mul, hvalue, hnext]
      ring
    have hparity : m % 2 = a % 2 := by
      rw [← hm, Nat.add_mod, Nat.mul_mod, heven]
      simp
    rw [← hmiddle, ← hparity] at hround
    refine Or.inl ⟨m, hfinite, hvalue ▸ hlower, hnext ▸ hupper, hround.imp ?_ ?_⟩
    · rintro ⟨hdown, hside⟩
      exact ⟨by omega, hside⟩
    · rintro ⟨hup, hside⟩
      exact ⟨by omega, hside⟩
  · obtain ⟨t, b, hlast⟩ := f.exists_form f.infinity
    right
    constructor
    · calc f.units f.infinity * den = b * 2 ^ t * den := by rw [hlast.units hinf]
        _ ≤ a * 2 ^ s * den := Nat.mul_le_mul_right _ (hlast.value_le hform hbeyond)
        _ = a * (den * 2 ^ s) := by ring
        _ ≤ num := hlower
    · omega

/-- What is rounded up to a pattern is not below the middle before it. -/
theorem twiceMiddle_le_of_nearest (heven : f.binade % 2 = 0) (hden : 0 < den)
    (h : f.nearest num den = m + 1) :
    f.twiceMiddle m * den ≤ 2 * num ∧ (2 * num = f.twiceMiddle m * den → (m + 1) % 2 = 0) := by
  have hle := f.nearest_le num den
  obtain ⟨-, hbefore⟩ := f.twiceMiddle_between (show m < f.infinity by omega) hden
  rcases nearest_cases heven num hden with
    ⟨k, hk, hlower, hupper, ⟨hdown, hside⟩ | ⟨hup, hside⟩⟩ | ⟨hlower, hlast⟩
  · obtain rfl : k = m + 1 := by omega
    exact ⟨by omega, by omega⟩
  · obtain rfl : k = m := by omega
    exact ⟨by omega, by omega⟩
  · rw [show f.infinity = m + 1 by omega] at hlower
    exact ⟨by omega, by omega⟩

/-- What is rounded to a pattern is not beyond the middle behind it. -/
theorem le_twiceMiddle_of_nearest (heven : f.binade % 2 = 0) (hden : 0 < den)
    (h : f.nearest num den = m) (hm : m < f.infinity) :
    2 * num ≤ f.twiceMiddle m * den ∧ (2 * num = f.twiceMiddle m * den → m % 2 = 0) := by
  obtain ⟨hbehind, -⟩ := f.twiceMiddle_between hm hden
  rcases nearest_cases heven num hden with
    ⟨k, hk, hlower, hupper, ⟨hdown, hside⟩ | ⟨hup, hside⟩⟩ | ⟨hlower, hlast⟩
  · obtain rfl : k = m := by omega
    exact ⟨by omega, by omega⟩
  · obtain rfl : m = k + 1 := by omega
    exact ⟨by omega, by omega⟩
  · omega

/-! ## Values -/

/-- The exact value of a finite pattern without its sign. -/
def absolute (f : Interchange) (p : Nat) : ℚ := f.units p / f.one

theorem cast_one_pos (f : Interchange) : (0 : ℚ) < f.one := Nat.cast_pos.mpr f.one_pos

theorem absolute_nonneg (f : Interchange) (p : Nat) : 0 ≤ f.absolute p :=
  div_nonneg (Nat.cast_nonneg _) (Nat.cast_nonneg _)

theorem absolute_zero (f : Interchange) : f.absolute 0 = 0 := by
  rw [absolute, units_zero, Nat.cast_zero, zero_div]

theorem absolute_lt_absolute (h : p < q) (hq : q < f.signBit) : f.absolute p < f.absolute q :=
  (div_lt_div_iff_of_pos_right f.cast_one_pos).mpr (Nat.cast_lt.mpr (units_lt_units h hq))

theorem absolute_mono (h : p ≤ q) (hq : q < f.signBit) : f.absolute p ≤ f.absolute q :=
  (div_le_div_iff_of_pos_right f.cast_one_pos).mpr (Nat.cast_le.mpr (units_mono h hq))

/-- Twice a value in common units of two formats. -/
theorem two_mul_absolute (g f : Interchange) (p : Nat) :
    2 * g.absolute p = ((2 * (g.units p * f.one) : Nat) : ℚ) / (g.one * f.one) := by
  have hf := f.cast_one_pos
  have hg := g.cast_one_pos
  rw [absolute]
  push_cast
  field_simp

/-- Twice a middle in common units of two formats. -/
theorem absolute_add_absolute (g f : Interchange) (m : Nat) :
    f.absolute m + f.absolute (m + 1)
      = ((f.twiceMiddle m * g.one : Nat) : ℚ) / (g.one * f.one) := by
  have hf := f.cast_one_pos
  have hg := g.cast_one_pos
  rw [absolute, absolute, twiceMiddle]
  push_cast
  field_simp

theorem le_of_convert (heven : f.binade % 2 = 0) (h : g.convert f p = m + 1) :
    f.absolute m + f.absolute (m + 1) ≤ 2 * g.absolute p
      ∧ (2 * g.absolute p = f.absolute m + f.absolute (m + 1) → (m + 1) % 2 = 0) := by
  have hunit := mul_pos g.cast_one_pos f.cast_one_pos
  obtain ⟨hle, htie⟩ := twiceMiddle_le_of_nearest heven g.one_pos h
  rw [two_mul_absolute g f, absolute_add_absolute g f, div_le_div_iff_of_pos_right hunit,
    div_left_inj' hunit.ne']
  exact ⟨Nat.cast_le.mpr hle, fun heq => htie (Nat.cast_inj.mp heq)⟩

theorem convert_le (heven : f.binade % 2 = 0) (h : g.convert f p = m) (hm : m < f.infinity) :
    2 * g.absolute p ≤ f.absolute m + f.absolute (m + 1)
      ∧ (2 * g.absolute p = f.absolute m + f.absolute (m + 1) → m % 2 = 0) := by
  have hunit := mul_pos g.cast_one_pos f.cast_one_pos
  obtain ⟨hle, htie⟩ := le_twiceMiddle_of_nearest heven g.one_pos h hm
  rw [two_mul_absolute g f, absolute_add_absolute g f, div_le_div_iff_of_pos_right hunit,
    div_left_inj' hunit.ne']
  exact ⟨Nat.cast_le.mpr hle, fun heq => htie (Nat.cast_inj.mp heq)⟩

/-! ## Distances -/

section Distance
variable {x a b : ℚ}

/-- From the middle on, the greater of two numbers is the nearer one. -/
theorem nearer_of_middle_le (hab : a ≤ b) (h : a + b ≤ 2 * x) :
    |x - b| ≤ |x - a| ∧ (|x - b| = |x - a| → a = b ∨ 2 * x = a + b) := by
  rw [abs_of_nonneg (show 0 ≤ x - a by linarith)]
  refine ⟨abs_le.mpr ⟨by linarith, by linarith⟩, fun heq => ?_⟩
  rcases abs_choice (x - b) with hsign | hsign
  · left
    linarith
  · right
    linarith

/-- Up to the middle, the lesser of two numbers is the nearer one. -/
theorem nearer_of_le_middle (hab : a ≤ b) (h : 2 * x ≤ a + b) :
    |x - a| ≤ |x - b| ∧ (|x - a| = |x - b| → a = b ∨ 2 * x = a + b) := by
  rw [abs_of_nonpos (show x - b ≤ 0 by linarith)]
  refine ⟨abs_le.mpr ⟨by linarith, by linarith⟩, fun heq => ?_⟩
  rcases abs_choice (x - a) with hsign | hsign
  · right
    linarith
  · left
    linarith

end Distance

/-- No finite value is nearer than the one that is rounded to, and one that is
as near leaves the even one. -/
theorem convert_nearest (heven : f.binade % 2 = 0) (h : g.convert f p = n) (hn : n < f.infinity)
    (hm : m < f.infinity) :
    |g.absolute p - f.absolute n| ≤ |g.absolute p - f.absolute m|
      ∧ (|g.absolute p - f.absolute n| = |g.absolute p - f.absolute m| → m ≠ n → n % 2 = 0) := by
  have hinf := f.infinity_lt_signBit
  rcases Nat.lt_trichotomy m n with hlt | rfl | hlt
  · obtain ⟨k, rfl⟩ := Nat.exists_eq_add_one_of_ne_zero (Nat.ne_of_gt (Nat.zero_lt_of_lt hlt))
    obtain ⟨hmiddle, htie⟩ := le_of_convert heven h
    have hmk : f.absolute m ≤ f.absolute k := absolute_mono (by omega) (by omega)
    have hmn : f.absolute m < f.absolute (k + 1) := absolute_lt_absolute hlt (by omega)
    obtain ⟨hle, heq⟩ := nearer_of_middle_le hmn.le (x := g.absolute p) (by linarith)
    refine ⟨hle, fun hsame _ => htie ?_⟩
    have htwice := (heq hsame).resolve_left hmn.ne
    linarith
  · exact ⟨le_refl _, fun _ hne => absurd rfl hne⟩
  · obtain ⟨hmiddle, htie⟩ := convert_le heven h hn
    have hnm : f.absolute (n + 1) ≤ f.absolute m := absolute_mono hlt (by omega)
    have hlt : f.absolute n < f.absolute m := absolute_lt_absolute hlt (by omega)
    obtain ⟨hle, heq⟩ := nearer_of_le_middle hlt.le (x := g.absolute p) (by linarith)
    refine ⟨hle, fun hsame _ => htie ?_⟩
    have htwice := (heq hsame).resolve_left hlt.ne
    linarith

/-- Infinity is for what is not below the middle behind the last finite value;
that value is odd. -/
theorem convert_eq_infinity_iff (heven : f.binade % 2 = 0) (hlast : f.infinity = m + 1) :
    g.convert f p = f.infinity ↔ f.absolute m + f.absolute (m + 1) ≤ 2 * g.absolute p := by
  constructor
  · intro h
    exact (le_of_convert heven (h.trans hlast)).1
  · intro hle
    by_contra hne
    have hinf := f.infinity_lt_signBit
    have hodd : m % 2 = 1 := by
      have hinfinity : f.infinity % 2 = 0 := by
        rw [infinity, Nat.mul_mod, heven, Nat.mul_zero, Nat.zero_mod]
      omega
    have hbound : g.convert f p ≤ f.infinity := f.nearest_le _ _
    generalize hn : g.convert f p = n at hne hbound
    obtain ⟨hmiddle, htie⟩ := convert_le heven hn (by omega)
    have hnext : f.absolute (n + 1) ≤ f.absolute (m + 1) := absolute_mono (by omega) (by omega)
    rcases Nat.lt_or_eq_of_le (show n ≤ m by omega) with hlt | rfl
    · have hbelow : f.absolute n < f.absolute m := absolute_lt_absolute hlt (by omega)
      linarith
    · have heven := htie (le_antisymm hmiddle hle)
      omega

end PackedRecord.Interchange
