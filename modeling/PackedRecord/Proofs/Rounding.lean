import Mathlib.Tactic.Ring
import PackedRecord.Floating.Conversion

/-!
# Values that survive rounding

A finite magnitude is a significand below two binades times a power of two,
in one way that the pattern spells out (`Interchange.Form`): the pattern is
the exponent times the binade plus the significand, whether or not the
leading bit is implicit. Both directions between pattern and value go
through that form (`Form.units`, `Form.nearest`), and so rounding a value
that the format has gives back its pattern. Rounding keeps order too
(`nearest_mono`), so a value between two of the format stays between them.

A format with a longer fraction and a wider exponent has all the values of
a narrower one (`Interchange.Widens`): shifting a significand left until it
fills the binade never leaves the range. Converting up is therefore exact,
and converting back undoes it (`convert_convert`).
-/

namespace PackedRecord.Interchange

variable {f g : Interchange}

theorem binade_pos (f : Interchange) : 0 < f.binade := Nat.two_pow_pos _

theorem one_pos (f : Interchange) : 0 < f.one := Nat.two_pow_pos _

theorem signBit_eq (f : Interchange) : f.signBit = 2 ^ f.exponentBits * f.binade := Nat.pow_add ..

theorem signBit_pos (f : Interchange) : 0 < f.signBit := Nat.two_pow_pos _

theorem infinity_add_binade (f : Interchange) : f.infinity + f.binade = f.signBit := by
  have hpos : 0 < 2 ^ f.exponentBits := Nat.two_pow_pos _
  rw [signBit_eq, infinity, ← Nat.succ_mul]
  congr 1
  show 2 ^ f.exponentBits - 1 + 1 = 2 ^ f.exponentBits
  omega

theorem infinity_lt_signBit (f : Interchange) : f.infinity < f.signBit := by
  rw [← infinity_add_binade]
  exact Nat.lt_add_of_pos_right f.binade_pos

theorem magnitude_lt (f : Interchange) (pattern : Nat) : f.magnitude pattern < f.signBit :=
  Nat.mod_lt _ f.signBit_pos

theorem magnitude_of_lt {m : Nat} (h : m < f.signBit) : f.magnitude m = m := Nat.mod_eq_of_lt h

theorem fraction_lt (f : Interchange) (pattern : Nat) : f.fraction pattern < f.binade :=
  Nat.mod_lt _ f.binade_pos

/-- The fraction is part of the magnitude. -/
theorem fraction_eq (f : Interchange) (pattern : Nat) :
    f.fraction pattern = f.magnitude pattern % f.binade := by
  rw [fraction, magnitude, Nat.mod_mod_of_dvd]
  exact ⟨2 ^ f.exponentBits, by rw [signBit_eq, Nat.mul_comm]⟩

/-- The sign makes no difference to the value. -/
theorem units_congr {p q : Nat} (h : f.magnitude p = f.magnitude q) : f.units p = f.units q := by
  rw [units, units, fraction_eq, fraction_eq, h]

/-! ## Exponent and significand -/

/-- The magnitude `m` is `q` times two to the power of `shift`. -/
structure Form (f : Interchange) (shift q m : Nat) : Prop where
  eq : m = shift * f.binade + q
  lt : q < 2 * f.binade
  normal : shift = 0 ∨ f.binade ≤ q

theorem exists_form (f : Interchange) (m : Nat) : ∃ shift q, f.Form shift q m := by
  have hsplit := Nat.div_add_mod m f.binade
  have hlt := Nat.mod_lt m f.binade_pos
  cases hexp : m / f.binade with
  | zero =>
      rw [hexp, Nat.mul_zero, Nat.zero_add] at hsplit
      exact ⟨0, m, by omega, by omega, Or.inl rfl⟩
  | succ shift =>
      rw [hexp, Nat.mul_comm, Nat.succ_mul] at hsplit
      exact ⟨shift, f.binade + m % f.binade, by omega, by omega, Or.inr (by omega)⟩

namespace Form

theorem units {shift q m : Nat} (h : f.Form shift q m) (hm : m < f.signBit) :
    f.units m = q * 2 ^ shift := by
  have hpos := f.binade_pos
  have hlt := h.lt
  rw [Interchange.units, fraction_eq, magnitude_of_lt hm, h.eq]
  by_cases hq : q < f.binade
  · have hshift : shift = 0 := h.normal.resolve_right (by omega)
    subst hshift
    rw [Nat.zero_mul, Nat.zero_add, Nat.div_eq_of_lt hq, Nat.mod_eq_of_lt hq]
    simp
  · have hexp : (shift * f.binade + q) / f.binade = shift + 1 := by
      rw [Nat.mul_comm, Nat.mul_add_div hpos]
      congr 1
      exact Nat.div_eq_of_lt_le (by omega) (by omega)
    have hfraction : (shift * f.binade + q) % f.binade = q - f.binade := by
      rw [Nat.mul_comm, Nat.mul_add_mod, Nat.mod_eq_sub_mod (by omega), Nat.mod_eq_of_lt (by omega)]
    simp only [hexp, hfraction]
    rw [if_neg (by omega), Nat.add_sub_cancel' (by omega)]
    rfl

/-- How far the value exceeds the significands is its exponent. -/
theorem log2_sub {shift q m : Nat} (h : f.Form shift q m) :
    (q * 2 ^ shift).log2 - f.fractionBits = shift := by
  have hlt : q < 2 ^ (f.fractionBits + 1) := by
    rw [Nat.pow_succ, Nat.mul_comm]
    exact h.lt
  by_cases hq : q = 0
  · have hshift : shift = 0 := h.normal.resolve_right (by have := f.binade_pos; omega)
    rw [hq, hshift]
    simp
  · have hne : q * 2 ^ shift ≠ 0 := Nat.mul_ne_zero hq (Nat.ne_of_gt (Nat.two_pow_pos shift))
    rcases h.normal with hshift | hnormal
    · subst hshift
      have hlog := (Nat.log2_lt hq).mpr hlt
      rw [Nat.pow_zero, Nat.mul_one]
      omega
    · have hlog : (q * 2 ^ shift).log2 = f.fractionBits + shift := by
        rw [Nat.log2_eq_iff hne]
        constructor
        · rw [Nat.pow_add]
          exact Nat.mul_le_mul_right _ hnormal
        · rw [show f.fractionBits + shift + 1 = f.fractionBits + 1 + shift by omega, Nat.pow_add]
          exact Nat.mul_lt_mul_of_pos_right hlt (Nat.two_pow_pos shift)
      omega

/-- A greater pattern has a greater exponent or, with the same one, a greater
significand. -/
theorem value_le {s a p t b q : Nat} (hp : f.Form s a p) (hq : f.Form t b q) (h : p ≤ q) :
    a * 2 ^ s ≤ b * 2 ^ t := by
  have hpeq := hp.eq
  have hplt := hp.lt
  have hqeq := hq.eq
  have hqlt := hq.lt
  rcases Nat.lt_trichotomy s t with hst | rfl | hst
  · have hnormal : f.binade ≤ b := hq.normal.resolve_left (by omega)
    calc a * 2 ^ s ≤ 2 * f.binade * 2 ^ s := Nat.mul_le_mul_right _ (Nat.le_of_lt hplt)
      _ = f.binade * 2 ^ (s + 1) := by ring
      _ ≤ b * 2 ^ t := Nat.mul_le_mul hnormal (Nat.pow_le_pow_right (by decide) hst)
  · exact Nat.mul_le_mul_right _ (by omega)
  · have hnormal : f.binade ≤ a := hp.normal.resolve_left (by omega)
    have hspan : (t + 1) * f.binade ≤ s * f.binade := Nat.mul_le_mul_right _ hst
    rw [Nat.add_mul] at hspan
    omega

/-- The next pattern has the next significand; what is carried out of it goes
into the exponent. -/
theorem succ {s a p : Nat} (h : f.Form s a p) :
    ∃ t b, f.Form t b (p + 1) ∧ b * 2 ^ t = (a + 1) * 2 ^ s := by
  have heq := h.eq
  have hlt := h.lt
  by_cases hfull : a + 1 = 2 * f.binade
  · have hpos := f.binade_pos
    refine ⟨s + 1, f.binade, ⟨?_, by omega, Or.inr (Nat.le_refl _)⟩, ?_⟩
    · rw [Nat.add_mul]
      omega
    · rw [hfull]
      ring
  · exact ⟨s, a + 1, ⟨by omega, by omega, h.normal.imp_right fun hle => by omega⟩, rfl⟩

theorem nearest {shift q m den : Nat} (h : f.Form shift q m) (hm : m ≤ f.infinity)
    (hden : 0 < den) :
    f.nearest (q * 2 ^ shift * den) den = m := by
  have hweight : 0 < den * 2 ^ shift := Nat.mul_pos hden (Nat.two_pow_pos shift)
  have hround : roundDiv (q * 2 ^ shift * den) (den * 2 ^ shift) = q := by
    rw [show q * 2 ^ shift * den = q * (den * 2 ^ shift) by ring]
    simp only [roundDiv, Nat.mul_div_cancel _ hweight, Nat.mul_mod_left]
    rw [if_pos (by omega)]
  rw [Interchange.nearest, Nat.mul_div_cancel _ hden]
  simp only [h.log2_sub]
  show min (shift * f.binade + roundDiv (q * 2 ^ shift * den) (den * 2 ^ shift)) f.infinity = m
  rw [hround, ← h.eq, Nat.min_eq_left hm]

end Form

/-- Rounding a value of the format gives back its pattern. -/
theorem nearest_units {m den : Nat} (hm : m ≤ f.infinity) (hden : 0 < den) :
    f.nearest (f.units m * den) den = m := by
  obtain ⟨shift, q, h⟩ := f.exists_form m
  rw [h.units (hm.trans_lt f.infinity_lt_signBit), h.nearest hm hden]

theorem nearest_le (f : Interchange) (num den : Nat) : f.nearest num den ≤ f.infinity :=
  Nat.min_le_right _ _

/-! ## Order -/

theorem le_roundDiv (num den : Nat) : num / den ≤ roundDiv num den := by
  simp only [roundDiv]
  split
  · exact Nat.le_refl _
  · split
    · exact Nat.le_succ _
    · exact Nat.le_add_right _ _

theorem roundDiv_le (num den : Nat) : roundDiv num den ≤ num / den + 1 := by
  simp only [roundDiv]
  split
  · exact Nat.le_succ _
  · split
    · exact Nat.le_refl _
    · omega

theorem roundDiv_mono {a b : Nat} (h : a ≤ b) (den : Nat) : roundDiv a den ≤ roundDiv b den := by
  rcases Nat.lt_or_eq_of_le (Nat.div_le_div_right (c := den) h) with hlt | heq
  · exact (roundDiv_le a den).trans (Nat.le_trans hlt (le_roundDiv b den))
  · -- The quotients being equal, the remainders decide.
    have ha := Nat.div_add_mod a den
    have hb := Nat.div_add_mod b den
    rw [← heq] at hb
    simp only [roundDiv, ← heq]
    repeat' split
    all_goals omega

/-- The order of patterns is the order of magnitudes. -/
theorem units_mono {p q : Nat} (h : p ≤ q) (hq : q < f.signBit) : f.units p ≤ f.units q := by
  obtain ⟨s, a, hp⟩ := f.exists_form p
  obtain ⟨t, b, hform⟩ := f.exists_form q
  rw [hp.units (by omega), hform.units hq]
  exact hp.value_le hform h

/-- The exponent of a quotient, and the significand when the rest is cut off. -/
theorem form_truncated (f : Interchange) (num den : Nat) {shift : Nat}
    (hshift : (num / den).log2 - f.fractionBits = shift) :
    f.Form shift (num / (den * 2 ^ shift)) (shift * f.binade + num / (den * 2 ^ shift)) := by
  have hbinade : f.binade = 2 ^ f.fractionBits := rfl
  rw [← Nat.div_div_eq_div_mul]
  refine ⟨rfl, ?_, ?_⟩
  · refine Nat.div_lt_of_lt_mul (Nat.lt_log2_self.trans_le ?_)
    rw [hbinade, ← Nat.pow_succ', ← Nat.pow_add]
    exact Nat.pow_le_pow_right (by decide) (by omega)
  · by_cases hzero : shift = 0
    · exact Or.inl hzero
    · have hexp : f.fractionBits + shift = (num / den).log2 := by omega
      have hpos : num / den ≠ 0 := by
        intro hnone
        rw [hnone] at hexp
        simp at hexp
        omega
      right
      rw [Nat.le_div_iff_mul_le (Nat.two_pow_pos shift), hbinade, ← Nat.pow_add, hexp]
      exact Nat.log2_self_le hpos

theorem nearest_of_shift {num den shift : Nat}
    (hshift : (num / den).log2 - f.fractionBits = shift) :
    f.nearest num den
      = min (shift * f.binade + roundDiv num (den * 2 ^ shift)) f.infinity := by
  subst hshift
  rfl

/-- Rounding keeps order. -/
theorem nearest_mono {a b : Nat} (h : a ≤ b) (den : Nat) :
    f.nearest a den ≤ f.nearest b den := by
  have hdiv : a / den ≤ b / den := Nat.div_le_div_right h
  have hlog : (a / den).log2 ≤ (b / den).log2 := by
    by_cases hzero : a / den = 0
    · rw [hzero]
      exact Nat.zero_le _
    · have hpos : 0 < b / den := (Nat.pos_of_ne_zero hzero).trans_le hdiv
      exact (Nat.le_log2 (Nat.ne_of_gt hpos)).mpr ((Nat.log2_self_le hzero).trans hdiv)
  generalize hs : (a / den).log2 - f.fractionBits = s
  generalize ht : (b / den).log2 - f.fractionBits = t
  rw [nearest_of_shift hs, nearest_of_shift ht]
  refine Nat.le_min.mpr ⟨(Nat.min_le_left _ _).trans ?_, Nat.min_le_right _ _⟩
  rcases Nat.lt_or_eq_of_le (show s ≤ t by omega) with hlt | rfl
  · -- The greater one starts where the binade of the smaller one ends.
    have ha := (f.form_truncated a den hs).lt
    have hb := (f.form_truncated b den ht).normal.resolve_left (by omega)
    have hupper := roundDiv_le a (den * 2 ^ s)
    have hlower := le_roundDiv b (den * 2 ^ t)
    have hspan : (s + 1) * f.binade ≤ t * f.binade := Nat.mul_le_mul_right _ hlt
    rw [Nat.add_mul] at hspan
    omega
  · exact Nat.add_le_add_left (roundDiv_mono h _) _

/-- What is at most a value of the format does not round beyond it. -/
theorem nearest_le_of_le {m num den : Nat} (hm : m ≤ f.infinity) (hden : 0 < den)
    (h : num ≤ f.units m * den) : f.nearest num den ≤ m :=
  (nearest_mono h den).trans_eq (nearest_units hm hden)

/-! ## Wider formats -/

/-- A significand shifted left until it fills its binade, or until nothing
of the exponent is left. -/
theorem exists_form_of_lt (f : Interchange) : ∀ (t q : Nat), q < 2 * f.binade →
    ∃ shift q' m, f.Form shift q' m ∧ q' * 2 ^ shift = q * 2 ^ t ∧ shift ≤ t
  | 0, q, hq => ⟨0, q, q, ⟨by omega, hq, Or.inl rfl⟩, rfl, Nat.le_refl 0⟩
  | t + 1, q, hq => by
      by_cases hfull : f.binade ≤ q
      · exact ⟨t + 1, q, _, ⟨rfl, hq, Or.inr hfull⟩, rfl, Nat.le_refl _⟩
      · obtain ⟨shift, q', m, hform, hvalue, hle⟩ := exists_form_of_lt f t (2 * q) (by omega)
        refine ⟨shift, q', m, hform, ?_, by omega⟩
        rw [hvalue, Nat.pow_succ]
        ring

/-- The format `f` has every finite value of `g`. -/
structure Widens (g f : Interchange) : Prop where
  fraction : g.fractionBits ≤ f.fractionBits
  scale : g.scale ≤ f.scale
  range : 2 ^ g.exponentBits + (f.scale - g.scale) + 2 ≤ 2 ^ f.exponentBits

namespace Widens

theorem half_double : Widens half double := by
  constructor <;> decide

theorem single_double : Widens single double := by
  constructor <;> decide

theorem exists_units (h : Widens g f) {m : Nat} (hm : m < g.infinity) :
    ∃ m', m' < f.infinity ∧ f.units m' * g.one = g.units m * f.one := by
  obtain ⟨shift, q, hform⟩ := g.exists_form m
  have hinf := g.infinity_add_binade
  have hq : q < 2 * f.binade := by
    have hle : g.binade ≤ f.binade := Nat.pow_le_pow_right (by decide) h.fraction
    have hlt := hform.lt
    omega
  obtain ⟨shift', q', m', hform', hvalue, hle⟩ :=
    f.exists_form_of_lt (shift + (f.scale - g.scale)) q hq
  have hshift : shift < 2 ^ g.exponentBits := by
    rcases hform.normal with hzero | hnormal
    · rw [hzero]
      exact Nat.two_pow_pos _
    · have hlt : shift * g.binade < 2 ^ g.exponentBits * g.binade := by
        have heq := hform.eq
        rw [← signBit_eq]
        omega
      exact Nat.lt_of_mul_lt_mul_right hlt
  have hbound : m' < f.infinity := by
    have hrange := h.range
    have hspan : (shift' + 2) * f.binade ≤ f.infinity :=
      Nat.mul_le_mul_right _ (show shift' + 2 ≤ 2 ^ f.exponentBits - 1 by omega)
    have heq := hform'.eq
    have hlt := hform'.lt
    rw [Nat.add_mul] at hspan
    omega
  refine ⟨m', hbound, ?_⟩
  have hone : g.one * 2 ^ (f.scale - g.scale) = f.one := by
    have hscale := h.scale
    show 2 ^ g.scale * 2 ^ (f.scale - g.scale) = 2 ^ f.scale
    rw [← Nat.pow_add, Nat.add_sub_cancel' hscale]
  have hfinf := f.infinity_add_binade
  rw [hform.units (by omega), hform'.units (by omega), hvalue, Nat.pow_add, ← hone]
  ring

theorem units_convert (h : Widens g f) {p : Nat} (hp : g.magnitude p < g.infinity) :
    g.convert f p < f.infinity ∧ f.units (g.convert f p) * g.one = g.units p * f.one := by
  obtain ⟨m', hlt, hvalue⟩ := h.exists_units hp
  have hsame : g.units (g.magnitude p) = g.units p :=
    units_congr (magnitude_of_lt (g.magnitude_lt p))
  rw [hsame] at hvalue
  have hconvert : g.convert f p = m' := by
    rw [convert, ← hvalue]
    exact nearest_units (Nat.le_of_lt hlt) g.one_pos
  rw [hconvert]
  exact ⟨hlt, hvalue⟩

/-- Narrowing undoes widening; `r` is the widened magnitude with any sign. -/
theorem convert_convert (h : Widens g f) {p r : Nat} (hp : g.magnitude p < g.infinity)
    (hr : f.magnitude r = g.convert f p) : f.convert g r = g.magnitude p := by
  obtain ⟨hlt, hvalue⟩ := h.units_convert hp
  have hfinf := f.infinity_add_binade
  have hunits : f.units r = f.units (g.convert f p) := by
    apply units_congr
    rw [hr, magnitude_of_lt (by omega)]
  have hsame : g.units p = g.units (g.magnitude p) :=
    units_congr (magnitude_of_lt (g.magnitude_lt p)).symm
  rw [convert, hunits, hvalue, hsame]
  exact nearest_units (Nat.le_of_lt hp) f.one_pos

end Widens

end PackedRecord.Interchange
