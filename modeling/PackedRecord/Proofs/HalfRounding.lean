import Mathlib.Order.WithBot
import PackedRecord.Proofs.HalfByExponent

/-!
# Correct rounding to 16 bits

The sign of a conversion moves along and its magnitude is rounded, so what is
nearest among magnitudes is nearest among all values: one of the other sign is
no nearer than zero (`Interchange.recode_nearest`).

That conversions keep the order of values is shown on ranks: a pattern that is
no NaN has its magnitude for a rank, negated with the sign, and the values,
from one infinity to the other, are in the order of the ranks
(`Interchange.extended_mono`, `Interchange.extended_lt`).
-/

namespace PackedRecord

namespace Interchange

variable {f g : Interchange} {nan : Nat → Nat} {p q : Nat}

/-! ## Signed values -/

def isNegative (f : Interchange) (pattern : Nat) : Bool := pattern / f.signBit % 2 = 1

def isFinite (f : Interchange) (pattern : Nat) : Bool := f.magnitude pattern < f.infinity

/-- The exact value of a finite pattern. -/
def value (f : Interchange) (pattern : Nat) : ℚ :=
  if f.isNegative pattern then -f.absolute pattern else f.absolute pattern

/-- The value of a pattern that is no NaN, with a bottom and a top for the infinities. -/
def extended (f : Interchange) (pattern : Nat) : WithBot (WithTop ℚ) :=
  if f.isInfinite pattern then if f.isNegative pattern then ⊥ else ⊤
  else ((f.value pattern : WithTop ℚ) : WithBot (WithTop ℚ))

theorem isFinite_iff : f.isFinite p = true ↔ f.isNaN p = false ∧ f.isInfinite p = false := by
  rw [isFinite, isNaN, isInfinite, decide_eq_true_eq, decide_eq_false_iff_not,
    decide_eq_false_iff_not]
  omega

theorem absolute_magnitude (f : Interchange) (p : Nat) :
    f.absolute (f.magnitude p) = f.absolute p := by
  rw [absolute, absolute, units_congr (magnitude_of_lt (f.magnitude_lt p))]

theorem abs_value (f : Interchange) (p : Nat) : |f.value p| = f.absolute p := by
  rw [value]
  split
  · rw [abs_neg, abs_of_nonneg (f.absolute_nonneg p)]
  · rw [abs_of_nonneg (f.absolute_nonneg p)]

/-- The magnitude of a pattern that is no NaN, after a conversion. -/
theorem magnitude_recode (hnan : KeepsNaN g f nan) (hp : g.isNaN p = false) :
    f.magnitude (recode g f nan p)
      = if g.magnitude p = g.infinity then f.infinity else g.convert f p := by
  obtain ⟨body, hlt, hr, hcases⟩ := recode_cases hnan p
  rw [hr, magnitude_signed hlt]
  rcases hcases with ⟨hn, -⟩ | ⟨-, hmag, hbody⟩ | ⟨-, hmag, hbody⟩
  · rw [hp] at hn
    cases hn
  · rw [if_pos hmag, hbody]
  · rw [if_neg hmag.ne, hbody]

theorem isNegative_recode (hnan : KeepsNaN g f nan) (p : Nat) :
    f.isNegative (recode g f nan p) = g.isNegative p := by
  obtain ⟨body, hlt, hr, -⟩ := recode_cases hnan p
  rw [isNegative, hr, div_signed hlt, Nat.mod_mod, isNegative]

/-! ## Nearness with signs -/

/-- Values of the same sign are as far apart as without it. -/
theorem abs_value_sub_of_same (h : g.isNegative p = f.isNegative q) :
    |g.value p - f.value q| = |g.absolute p - f.absolute q| := by
  rw [value, value, h]
  split
  · rw [← abs_neg, neg_sub, neg_sub_neg]
  · rfl

/-- Values of opposite signs have zero between them. -/
theorem abs_value_sub_of_opposite (h : g.isNegative p ≠ f.isNegative q) :
    |g.value p - f.value q| = g.absolute p + f.absolute q := by
  have hsum : 0 ≤ g.absolute p + f.absolute q :=
    add_nonneg (g.absolute_nonneg p) (f.absolute_nonneg q)
  rw [value, value]
  cases hs : g.isNegative p <;> cases ht : f.isNegative q
  · exact absurd (hs.trans ht.symm) h
  · rw [if_neg (by decide), if_pos rfl, sub_neg_eq_add, abs_of_nonneg hsum]
  · rw [if_pos rfl, if_neg (by decide), ← neg_add', abs_neg, abs_of_nonneg hsum]
  · exact absurd (hs.trans ht.symm) h

theorem convert_of_isFinite (hnan : KeepsNaN g f nan) (hp : g.isNaN p = false)
    (hfinite : f.isFinite (recode g f nan p) = true) :
    f.magnitude (recode g f nan p) = g.convert f p ∧ g.convert f p < f.infinity := by
  have hlt : f.magnitude (recode g f nan p) < f.infinity := of_decide_eq_true hfinite
  have hmag := magnitude_recode hnan hp
  split at hmag
  · omega
  · exact ⟨hmag, hmag ▸ hlt⟩

/-- Of all finite values the nearest is that of the conversion, and one that is
as near leaves the even one. -/
theorem recode_nearest (hnan : KeepsNaN g f nan) (heven : f.binade % 2 = 0)
    (hp : g.isNaN p = false) (hfinite : f.isFinite (recode g f nan p) = true)
    (hq : f.isFinite q = true) :
    |g.value p - f.value (recode g f nan p)| ≤ |g.value p - f.value q|
      ∧ (|g.value p - f.value (recode g f nan p)| = |g.value p - f.value q| →
        f.value q ≠ f.value (recode g f nan p) → f.fraction (recode g f nan p) % 2 = 0) := by
  obtain ⟨hmag, hlt⟩ := convert_of_isFinite hnan hp hfinite
  have hqlt : f.magnitude q < f.infinity := of_decide_eq_true hq
  have hsign := isNegative_recode hnan p
  have hparity : f.fraction (recode g f nan p) % 2 = g.convert f p % 2 := by
    rw [fraction_eq, hmag, Nat.mod_mod_of_dvd _ (Nat.dvd_of_mod_eq_zero heven)]
  have habsolute : f.absolute (recode g f nan p) = f.absolute (g.convert f p) := by
    rw [← hmag, absolute_magnitude]
  rw [abs_value_sub_of_same hsign.symm, hparity, habsolute]
  by_cases hsame : g.isNegative p = f.isNegative q
  · obtain ⟨hle, htie⟩ := convert_nearest (g := g) (p := p) heven rfl hlt hqlt
    rw [absolute_magnitude] at hle htie
    rw [abs_value_sub_of_same hsame]
    refine ⟨hle, fun heq hne => htie heq fun hmagnitude => hne ?_⟩
    rw [value, value, hsign, hsame, habsolute, ← hmagnitude, absolute_magnitude]
  · -- Zero is no farther than what is on its other side.
    obtain ⟨hle, htie⟩ := convert_nearest (g := g) (p := p) heven rfl hlt (Nat.zero_lt_of_lt hlt)
    have hzero : |g.absolute p - f.absolute 0| = g.absolute p := by
      rw [absolute_zero, sub_zero, abs_of_nonneg (g.absolute_nonneg p)]
    have hnonneg := f.absolute_nonneg q
    rw [hzero] at hle htie
    rw [abs_value_sub_of_opposite hsame]
    refine ⟨by linarith, fun heq _ => ?_⟩
    by_cases hnone : g.convert f p = 0
    · rw [hnone]
    · exact htie (by linarith) (Ne.symm hnone)

/-! ## Order -/

/-- The place of a pattern that is no NaN in the order of values. -/
def rank (f : Interchange) (pattern : Nat) : Int :=
  if f.isNegative pattern then -(f.magnitude pattern : Int) else f.magnitude pattern

/-- Conversions keep the order of magnitudes. -/
theorem magnitude_recode_mono (hnan : KeepsNaN g f nan) (hp : g.isNaN p = false)
    (hq : g.isNaN q = false) (h : g.magnitude p ≤ g.magnitude q) :
    f.magnitude (recode g f nan p) ≤ f.magnitude (recode g f nan q) := by
  have hple : ¬g.infinity < g.magnitude p := of_decide_eq_false hp
  have hqle : ¬g.infinity < g.magnitude q := of_decide_eq_false hq
  rw [magnitude_recode hnan hp, magnitude_recode hnan hq]
  by_cases hqinf : g.magnitude q = g.infinity
  · rw [if_pos hqinf]
    split
    · exact Nat.le_refl _
    · exact f.nearest_le _ _
  · rw [if_neg hqinf, if_neg (by omega)]
    have hunits : g.units (g.magnitude p) ≤ g.units (g.magnitude q) :=
      units_mono h (g.magnitude_lt q)
    rw [units_congr (magnitude_of_lt (g.magnitude_lt p)),
      units_congr (magnitude_of_lt (g.magnitude_lt q))] at hunits
    exact nearest_mono (Nat.mul_le_mul_right _ hunits) _

theorem magnitude_recode_zero (hnan : KeepsNaN g f nan) (hinf : 0 < g.infinity)
    (hp : g.isNaN p = false) (h : g.magnitude p = 0) : f.magnitude (recode g f nan p) = 0 := by
  have hunits : g.units p = f.units 0 := by
    rw [← units_congr (magnitude_of_lt (g.magnitude_lt p)), h, units_zero, units_zero]
  have hzero : f.units 0 * f.one = f.units 0 * g.one := by
    rw [units_zero, Nat.zero_mul, Nat.zero_mul]
  rw [magnitude_recode hnan hp, if_neg (by omega), convert, hunits, hzero]
  exact nearest_units (Nat.zero_le _) g.one_pos

/-- Conversions keep the order of ranks. -/
theorem rank_recode_mono (hnan : KeepsNaN g f nan) (hinf : 0 < g.infinity)
    (hp : g.isNaN p = false) (hq : g.isNaN q = false) (h : g.rank p ≤ g.rank q) :
    f.rank (recode g f nan p) ≤ f.rank (recode g f nan q) := by
  have hpzero := magnitude_recode_zero hnan hinf hp
  have hqzero := magnitude_recode_zero hnan hinf hq
  have hup := magnitude_recode_mono hnan hp hq
  have hdown := magnitude_recode_mono hnan hq hp
  rw [rank, rank] at h ⊢
  rw [isNegative_recode hnan, isNegative_recode hnan]
  generalize g.isNegative p = s at h ⊢
  generalize g.isNegative q = t at h ⊢
  cases s <;> cases t <;> simp only [if_true, if_false, Bool.false_eq_true] at h ⊢ <;> omega

/-- Values are in the order of ranks. -/
theorem value_lt_value (h : f.rank p < f.rank q) : f.value p < f.value q := by
  have hp := f.magnitude_lt p
  have hq := f.magnitude_lt q
  rw [value, value, ← absolute_magnitude, ← f.absolute_magnitude q]
  rw [rank, rank] at h
  generalize f.magnitude p = a at h hp ⊢
  generalize f.magnitude q = b at h hq ⊢
  have ha := f.absolute_nonneg a
  have hb := f.absolute_nonneg b
  generalize f.isNegative p = s at h ⊢
  generalize f.isNegative q = t at h ⊢
  cases s <;> cases t <;> simp only [if_true, if_false, Bool.false_eq_true] at h ⊢
  · exact absolute_lt_absolute (by omega) hq
  · omega
  · rcases Nat.eq_zero_or_pos a with rfl | hpos
    · have hlt : f.absolute 0 < f.absolute b := absolute_lt_absolute (by omega) hq
      rw [absolute_zero] at hlt ⊢
      linarith
    · have hlt : f.absolute 0 < f.absolute a := absolute_lt_absolute hpos hp
      rw [absolute_zero] at hlt
      linarith
  · exact neg_lt_neg (absolute_lt_absolute (by omega) hp)

theorem value_congr (h : f.rank p = f.rank q) : f.value p = f.value q := by
  rw [value, value, ← absolute_magnitude, ← f.absolute_magnitude q]
  rw [rank, rank] at h
  generalize f.magnitude p = a at h ⊢
  generalize f.magnitude q = b at h ⊢
  generalize f.isNegative p = s at h ⊢
  generalize f.isNegative q = t at h ⊢
  cases s <;> cases t <;> simp only [if_true, if_false, Bool.false_eq_true] at h ⊢
  · rw [show a = b by omega]
  · rw [show a = 0 by omega, show b = 0 by omega, absolute_zero, neg_zero]
  · rw [show a = 0 by omega, show b = 0 by omega, absolute_zero, neg_zero]
  · rw [show a = b by omega]

/-- The infinities have the outermost ranks. -/
theorem extended_cases (hp : f.isNaN p = false) :
    (f.rank p = -(f.infinity : Int) ∧ f.extended p = ⊥)
      ∨ (f.rank p = f.infinity ∧ f.extended p = ⊤)
      ∨ (-(f.infinity : Int) < f.rank p ∧ f.rank p < f.infinity
        ∧ f.extended p = ((f.value p : WithTop ℚ) : WithBot (WithTop ℚ))) := by
  have hle : ¬f.infinity < f.magnitude p := of_decide_eq_false hp
  rw [extended, rank]
  by_cases hinf : f.magnitude p = f.infinity
  · have hinfinite : f.isInfinite p = true := decide_eq_true hinf
    rw [if_pos hinfinite, hinf]
    cases f.isNegative p with
    | true => exact Or.inl ⟨rfl, rfl⟩
    | false => exact Or.inr (Or.inl ⟨rfl, rfl⟩)
  · have hfinite : ¬f.isInfinite p = true := fun h => hinf (of_decide_eq_true h)
    rw [if_neg hfinite]
    exact Or.inr (Or.inr ⟨by split <;> omega, by split <;> omega, rfl⟩)

/-- Values, the infinities among them, are in the order of ranks. -/
theorem extended_lt (hp : f.isNaN p = false) (hq : f.isNaN q = false) (h : f.rank p < f.rank q) :
    f.extended p < f.extended q := by
  rcases extended_cases hp with ⟨hrp, hep⟩ | ⟨hrp, hep⟩ | ⟨hlp, hup, hep⟩
    <;> rcases extended_cases hq with ⟨hrq, heq⟩ | ⟨hrq, heq⟩ | ⟨hlq, huq, heq⟩
    <;> rw [hep, heq]
  · omega
  · exact bot_lt_top
  · exact WithBot.bot_lt_coe _
  · omega
  · omega
  · omega
  · omega
  · exact WithBot.coe_lt_coe.mpr (WithTop.coe_lt_top _)
  · exact WithBot.coe_lt_coe.mpr (WithTop.coe_lt_coe.mpr (value_lt_value h))

theorem extended_mono (hinf : 0 < f.infinity) (hp : f.isNaN p = false) (hq : f.isNaN q = false)
    (h : f.rank p ≤ f.rank q) : f.extended p ≤ f.extended q := by
  rcases lt_or_eq_of_le h with hlt | hsame
  · exact (extended_lt hp hq hlt).le
  · rcases extended_cases hp with ⟨hrp, hep⟩ | ⟨hrp, hep⟩ | ⟨hlp, hup, hep⟩
      <;> rcases extended_cases hq with ⟨hrq, heq⟩ | ⟨hrq, heq⟩ | ⟨hlq, huq, heq⟩
      <;> rw [hep, heq]
    · omega
    · omega
    · omega
    · omega
    · omega
    · omega
    · rw [value_congr hsame]

/-- Conversions keep the order of values. -/
theorem recode_mono (hnan : KeepsNaN g f nan) (hg : 0 < g.infinity) (hf : 0 < f.infinity)
    (hp : g.isNaN p = false) (hq : g.isNaN q = false) (h : g.extended p ≤ g.extended q) :
    f.extended (recode g f nan p) ≤ f.extended (recode g f nan q) := by
  have hrank : g.rank p ≤ g.rank q := by
    by_contra hlt
    exact absurd h (not_le.mpr (extended_lt hq hp (not_le.mp hlt)))
  exact extended_mono hf ((isNaN_recode hnan p).trans hp) ((isNaN_recode hnan q).trans hq)
    (rank_recode_mono hnan hg hp hq hrank)

end Interchange

namespace Double
open Interchange

/-! ## The 16-bit format -/

theorem absolute_last_half : half.absolute 0x7BFF = 65504 := by
  have hunits : half.units 0x7BFF = 65504 * half.one := by decide +kernel
  rw [absolute, hunits, Nat.cast_mul, mul_div_cancel_right₀ _ half.cast_one_pos.ne']
  rfl

theorem absolute_infinity_half : half.absolute 0x7C00 = 65536 := by
  have hunits : half.units 0x7C00 = 65536 * half.one := by decide +kernel
  rw [absolute, hunits, Nat.cast_mul, mul_div_cancel_right₀ _ half.cast_one_pos.ne']
  rfl

/-- What becomes infinite is from 65520 on, the middle between the greatest
finite value and the one that would come next. -/
theorem isInfinite_toHalf {p : Nat} (hp : double.isNaN p = false) :
    half.isInfinite (toHalf p) = true
      ↔ double.isInfinite p = true ∨ double.isFinite p = true ∧ 65520 ≤ |double.value p| := by
  have hle : ¬double.infinity < double.magnitude p := of_decide_eq_false hp
  have hmag := magnitude_recode keepsNaN_toHalf hp
  have hthreshold : double.convert half p = half.infinity ↔ _ :=
    convert_eq_infinity_iff (m := 0x7BFF) (by decide) (by decide)
  rw [show (0x7BFF + 1 : Nat) = 0x7C00 from rfl, absolute_last_half, absolute_infinity_half]
    at hthreshold
  rw [isInfinite, isInfinite, isFinite, decide_eq_true_eq, decide_eq_true_eq, decide_eq_true_eq,
    abs_value, toHalf_eq, hmag]
  by_cases hinf : double.magnitude p = double.infinity
  · simp only [hinf, if_true, true_or]
  · rw [if_neg hinf, hthreshold]
    constructor
    · intro h
      exact Or.inr ⟨by omega, by linarith⟩
    · rintro (h | ⟨-, h⟩)
      · exact absurd h hinf
      · linarith

/-- The fraction of a NaN keeps its ten highest bits, or only the quiet one if
these are all zero. -/
theorem fraction_toHalf {p : Nat} (hp : double.isNaN p = true) :
    half.fraction (toHalf p)
      = if double.fraction p / 2 ^ 42 = 0 then 0x200 else double.fraction p / 2 ^ 42 := by
  have hkeep := keepsNaN_toHalf _ (magnitude_of_isNaN hp).2 (double.fraction_lt p)
  obtain ⟨body, hlt, hr, hcases⟩ := recode_cases keepsNaN_toHalf p
  rcases hcases with ⟨-, hbody⟩ | ⟨hn, -⟩ | ⟨hn, -⟩
  · rw [toHalf_eq, fraction_eq, hr, magnitude_signed hlt, hbody, infinity_add_mod hkeep.2]
    rfl
  · rw [hp] at hn
    cases hn
  · rw [hp] at hn
    cases hn

/-- Widening is exact. -/
theorem value_ofHalf {h : Nat} (hfinite : half.isFinite h = true) :
    double.isFinite (ofHalf h) = true ∧ double.value (ofHalf h) = half.value h := by
  have hlt : half.magnitude h < half.infinity := of_decide_eq_true hfinite
  have hmag := magnitude_recode keepsNaN_ofHalf (decide_eq_false hlt.not_gt)
  rw [if_neg hlt.ne] at hmag
  obtain ⟨hconvert, hvalue⟩ := Widens.half_double.units_convert hlt
  have habsolute : double.absolute (recode half double nanOfHalf h) = half.absolute h := by
    rw [← absolute_magnitude, hmag, absolute, absolute,
      div_eq_div_iff double.cast_one_pos.ne' half.cast_one_pos.ne']
    exact_mod_cast hvalue
  rw [ofHalf_eq, isFinite, hmag, value, value, isNegative_recode keepsNaN_ofHalf, habsolute]
  exact ⟨decide_eq_true hconvert, rfl⟩

/-- What correct rounding makes of a 64-bit pattern. -/
structure RoundsTo (x : UInt64) (r : UInt16) : Prop where
  sign : half.isNegative r.toNat = double.isNegative x.toNat
  finite : double.isFinite x.toNat = true → |double.value x.toNat| < 65520 →
    half.isFinite r.toNat = true
  nearest : double.isFinite x.toNat = true → |double.value x.toNat| < 65520 →
    ∀ h : UInt16, half.isFinite h.toNat = true →
      |double.value x.toNat - half.value r.toNat| ≤ |double.value x.toNat - half.value h.toNat|
  tie : double.isFinite x.toNat = true → |double.value x.toNat| < 65520 →
    ∀ h : UInt16, half.isFinite h.toNat = true →
      |double.value x.toNat - half.value r.toNat| = |double.value x.toNat - half.value h.toNat| →
      half.value h.toNat ≠ half.value r.toNat → half.fraction r.toNat % 2 = 0
  infinite : double.isInfinite x.toNat = true
      ∨ double.isFinite x.toNat = true ∧ 65520 ≤ |double.value x.toNat| →
    half.isInfinite r.toNat = true
  nan : double.isNaN x.toNat = true → half.isNaN r.toNat = true
    ∧ half.fraction r.toNat = if double.fraction x.toNat / 2 ^ 42 = 0 then 0x200
      else double.fraction x.toNat / 2 ^ 42

/-- The result in 16 bits. -/
def half16 (x : UInt64) : UInt16 := .ofNat (toHalf x.toNat)

theorem toNat_half16 (x : UInt64) : (half16 x).toNat = toHalf x.toNat := by
  have hlt : toHalf x.toNat < 65536 := recode_lt keepsNaN_toHalf x.toNat
  rw [half16, UInt16.toNat_ofNat', Nat.mod_eq_of_lt hlt]

theorem roundsTo_half16 (x : UInt64) : RoundsTo x (half16 x) := by
  have hsign := isNegative_recode keepsNaN_toHalf x.toNat
  have hnan := isNaN_recode keepsNaN_toHalf x.toNat
  rw [← toHalf_eq, ← toNat_half16] at hsign hnan
  have hfinite (hx : double.isFinite x.toNat = true) (hlt : |double.value x.toNat| < 65520) :
      half.isFinite (half16 x).toNat = true := by
    obtain ⟨hxnan, hxinf⟩ := isFinite_iff.mp hx
    refine isFinite_iff.mpr ⟨hnan.trans hxnan, Bool.eq_false_iff.mpr fun hinf => ?_⟩
    rw [toNat_half16, isInfinite_toHalf hxnan, hxinf] at hinf
    rcases hinf with hinf | ⟨-, hle⟩
    · cases hinf
    · exact absurd hlt (not_lt.mpr hle)
  have hnearest (hx : double.isFinite x.toNat = true) (hlt : |double.value x.toNat| < 65520)
      {h : Nat} (hh : half.isFinite h = true) := by
    have hr := hfinite hx hlt
    rw [toNat_half16, toHalf_eq] at hr
    exact recode_nearest keepsNaN_toHalf (by decide) (isFinite_iff.mp hx).1 hr hh
  rw [← toHalf_eq, ← toNat_half16] at hnearest
  exact {
    sign := hsign
    finite := hfinite
    nearest := fun hx hlt h hh => (hnearest hx hlt hh).1
    tie := fun hx hlt h hh => (hnearest hx hlt hh).2
    infinite := fun hinf => by
      have hxnan : double.isNaN x.toNat = false := by
        rcases hinf with hinf | ⟨hx, -⟩
        · have hmag : double.magnitude x.toNat = double.infinity := of_decide_eq_true hinf
          exact decide_eq_false hmag.le.not_gt
        · exact (isFinite_iff.mp hx).1
      rw [toNat_half16]
      exact (isInfinite_toHalf hxnan).mpr hinf
    nan := fun hx => ⟨hnan.trans hx, by rw [toNat_half16, fraction_toHalf hx]⟩ }

/-- Conversion to 16 bits is correctly rounded, whether it divides or goes by the
exponent field, and conversion from them exact, so the one undoes the other; and values
stay in order. -/
theorem toHalf_correctly_rounded :
    (∀ x : UInt64, ∃ r : UInt16, toHalf x.toNat = r.toNat ∧ RoundsTo x r)
    ∧ (∀ x : UInt64, toHalf x.toNat = double.moveSign half x.toNat
      + if double.isNaN x.toNat then half.infinity + nanToHalf (double.fraction x.toNat)
        else halfByExponent x.toNat)
    ∧ (∀ h : UInt16, double.isNegative (ofHalf h.toNat) = half.isNegative h.toNat
      ∧ (half.isFinite h.toNat = true → double.isFinite (ofHalf h.toNat) = true
        ∧ double.value (ofHalf h.toNat) = half.value h.toNat))
    ∧ (∀ h : UInt16, toHalf (ofHalf h.toNat) = h.toNat)
    ∧ ∀ x y : UInt64, double.isNaN x.toNat = false → double.isNaN y.toNat = false →
      double.extended x.toNat ≤ double.extended y.toNat →
      half.extended (toHalf x.toNat) ≤ half.extended (toHalf y.toNat) :=
  ⟨fun x => ⟨half16 x, (toNat_half16 x).symm, roundsTo_half16 x⟩,
    fun x => toHalf_eq_halfByExponent x.toNat,
    fun h => ⟨isNegative_recode keepsNaN_ofHalf h.toNat, value_ofHalf⟩,
    fun h => toHalf_ofHalf h.toNat_lt,
    fun _ _ hx hy => recode_mono keepsNaN_toHalf (by decide) (by decide) hx hy⟩

/-- The middle between one and the next value goes to the even one, 65520 to
infinity and a NaN with a small payload to the quiet one; the least positive
value is widened exactly, and one and infinity stay in order. -/
theorem toHalf_correctly_rounded_sample :
    (∃ r : UInt16, toHalf (0x3FF0020000000000 : UInt64).toNat = r.toNat
      ∧ half.isFinite r.toNat = true
      ∧ |double.value (0x3FF0020000000000 : UInt64).toNat - half.value r.toNat|
        ≤ |double.value (0x3FF0020000000000 : UInt64).toNat - half.value (0x3C01 : UInt16).toNat|
      ∧ half.fraction r.toNat % 2 = 0)
    ∧ (∃ r : UInt16, toHalf (0x40EFFE0000000000 : UInt64).toNat = r.toNat
      ∧ half.isInfinite r.toNat = true)
    ∧ (∃ r : UInt16, toHalf (0xFFF0000000000001 : UInt64).toNat = r.toNat
      ∧ half.isNaN r.toNat = true ∧ half.fraction r.toNat = 0x200)
    ∧ double.value (ofHalf (0x0001 : UInt16).toNat) = half.value (0x0001 : UInt16).toNat
    ∧ half.extended (toHalf (0x3FF0000000000000 : UInt64).toNat)
      ≤ half.extended (toHalf (0x7FF0000000000000 : UInt64).toNat) := by
  obtain ⟨hround, -, hwiden, -, hmono⟩ := toHalf_correctly_rounded
  refine ⟨?_, ?_, ?_, ((hwiden 0x0001).2 (by decide +kernel)).2,
    hmono _ _ (by decide +kernel) (by decide +kernel) (by decide +kernel)⟩
  · obtain ⟨r, hr, hrounds⟩ := hround 0x3FF0020000000000
    have hfinite : double.isFinite (0x3FF0020000000000 : UInt64).toNat = true := by decide +kernel
    have hlt : |double.value (0x3FF0020000000000 : UInt64).toNat| < 65520 := by decide +kernel
    have hone : half.isFinite (0x3C01 : UInt16).toNat = true := by decide +kernel
    have heven : r = 0x3C00 := UInt16.toNat_inj.mp (hr.symm.trans (by decide +kernel))
    refine ⟨r, hr, hrounds.finite hfinite hlt, hrounds.nearest hfinite hlt _ hone,
      hrounds.tie hfinite hlt 0x3C01 hone ?_ ?_⟩ <;> rw [heven] <;> decide +kernel
  · obtain ⟨r, hr, hrounds⟩ := hround 0x40EFFE0000000000
    exact ⟨r, hr, hrounds.infinite (Or.inr ⟨by decide +kernel, by decide +kernel⟩)⟩
  · obtain ⟨r, hr, hrounds⟩ := hround 0xFFF0000000000001
    obtain ⟨hnan, hfraction⟩ := hrounds.nan (by decide +kernel)
    exact ⟨r, hr, hnan, hfraction.trans (by decide +kernel)⟩

end Double
end PackedRecord
