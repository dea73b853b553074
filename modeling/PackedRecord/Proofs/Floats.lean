import PackedRecord.Floating.Tagged
import PackedRecord.Proofs.FixedIntegers
import PackedRecord.Proofs.Rounding

/-!
# Floats through their fields

The four conversions share one shape (`Interchange.recode`): the sign moves
along, infinities stay, finite magnitudes are rounded, and a NaN gets a
fraction of its own that a function on fractions says. Converting up and
back is then the identity on everything but NaNs, where it is what the two
functions make of the fraction (`recode_recode`).

For fields that means that storing and loading settle after one round
(`FloatWidth.narrow_widen_narrow`, `FloatWidth.widen_narrow_widen`): only
the 32-bit format changes anything on the way back, by making a NaN quiet,
and it does so once.
-/

namespace PackedRecord

namespace Interchange

variable {f g : Interchange}

/-! ## Sign and body -/

/-- A pattern converted, its magnitude being `body`. -/
theorem magnitude_signed {s body : Nat} (h : body < f.signBit) :
    f.magnitude (s * f.signBit + body) = body := by
  rw [magnitude, Nat.mul_comm, Nat.mul_add_mod, Nat.mod_eq_of_lt h]

theorem div_signed {s body : Nat} (h : body < f.signBit) :
    (s * f.signBit + body) / f.signBit = s := by
  rw [Nat.mul_comm, Nat.mul_add_div f.signBit_pos, Nat.div_eq_of_lt h, Nat.add_zero]

theorem eq_signed {p : Nat} (h : p < 2 * f.signBit) :
    p / f.signBit % 2 * f.signBit + f.magnitude p = p := by
  have hsign : p / f.signBit < 2 := Nat.div_lt_of_lt_mul (Nat.mul_comm 2 f.signBit ▸ h)
  rw [Nat.mod_eq_of_lt hsign, magnitude, Nat.mul_comm, Nat.div_add_mod]

theorem infinity_add_mod {payload : Nat} (h : payload < f.binade) :
    (f.infinity + payload) % f.binade = payload := by
  show ((Nat.pow 2 f.exponentBits - 1) * f.binade + payload) % f.binade = payload
  rw [Nat.mul_comm, Nat.mul_add_mod, Nat.mod_eq_of_lt h]

/-- A NaN is infinity with a fraction. -/
theorem magnitude_of_isNaN {p : Nat} (h : f.isNaN p = true) :
    f.magnitude p = f.infinity + f.fraction p ∧ 0 < f.fraction p := by
  have hlt := f.magnitude_lt p
  have hinf := f.infinity_add_binade
  have hnan : f.infinity < f.magnitude p := of_decide_eq_true h
  obtain ⟨payload, hpayload⟩ := Nat.exists_eq_add_of_lt hnan
  have hfraction : f.fraction p = payload + 1 := by
    rw [fraction_eq, hpayload, Nat.add_assoc, infinity_add_mod (by omega)]
  omega

/-! ## Conversions -/

/-- A conversion; `nan` makes the fraction of a NaN from its old one. -/
def recode (source target : Interchange) (nan : Nat → Nat) (p : Nat) : Nat :=
  source.moveSign target p +
    if source.isNaN p then target.infinity + nan (source.fraction p)
    else if source.isInfinite p then target.infinity
    else source.convert target p

/-- The function makes fractions of NaNs from fractions of NaNs. -/
def KeepsNaN (source target : Interchange) (nan : Nat → Nat) : Prop :=
  ∀ fraction, 0 < fraction → fraction < source.binade →
    0 < nan fraction ∧ nan fraction < target.binade

/-- Which of the three cases applies can be read off the result. -/
theorem recode_cases {nan : Nat → Nat} (hnan : KeepsNaN g f nan) (p : Nat) :
    ∃ body, body < f.signBit ∧ recode g f nan p = p / g.signBit % 2 * f.signBit + body
      ∧ ((g.isNaN p = true ∧ body = f.infinity + nan (g.fraction p))
        ∨ (g.isNaN p = false ∧ g.magnitude p = g.infinity ∧ body = f.infinity)
        ∨ (g.isNaN p = false ∧ g.magnitude p < g.infinity ∧ body = g.convert f p)) := by
  have hinf := f.infinity_add_binade
  have hpos := f.binade_pos
  refine ⟨_, ?_, rfl, ?_⟩
  · split
    · next h =>
        have hkeep := hnan _ (magnitude_of_isNaN h).2 (g.fraction_lt p)
        omega
    · split
      · omega
      · have hle := f.nearest_le (g.units p * f.one) g.one
        rw [convert]
        omega
  · cases hn : g.isNaN p with
    | true => exact Or.inl ⟨rfl, rfl⟩
    | false =>
        have hle : ¬g.infinity < g.magnitude p := of_decide_eq_false hn
        cases hi : g.isInfinite p with
        | true => exact Or.inr (Or.inl ⟨rfl, of_decide_eq_true hi, rfl⟩)
        | false =>
            have hne : ¬g.magnitude p = g.infinity := of_decide_eq_false hi
            exact Or.inr (Or.inr ⟨rfl, by omega, rfl⟩)

theorem recode_lt {nan : Nat → Nat} (hnan : KeepsNaN g f nan) (p : Nat) :
    recode g f nan p < 2 * f.signBit := by
  obtain ⟨body, hlt, hr, -⟩ := recode_cases hnan p
  have hsign : p / g.signBit % 2 * f.signBit ≤ 1 * f.signBit := Nat.mul_le_mul_right _ (by omega)
  omega

theorem isNaN_signed {s body : Nat} (h : body < f.signBit) :
    f.isNaN (s * f.signBit + body) = decide (f.infinity < body) := by
  rw [isNaN, magnitude_signed h]

/-- No conversion makes a NaN or loses one. -/
theorem isNaN_recode {nan : Nat → Nat} (hnan : KeepsNaN g f nan) (p : Nat) :
    f.isNaN (recode g f nan p) = g.isNaN p := by
  obtain ⟨body, hlt, hr, hcases⟩ := recode_cases hnan p
  rw [hr, isNaN_signed hlt]
  rcases hcases with ⟨hn, hbody⟩ | ⟨hn, -, hbody⟩ | ⟨hn, -, hbody⟩
  · have hkeep := hnan _ (magnitude_of_isNaN hn).2 (g.fraction_lt p)
    rw [hn]
    exact decide_eq_true (by omega)
  · rw [hn]
    exact decide_eq_false (by omega)
  · have hle := f.nearest_le (g.units p * f.one) g.one
    rw [convert] at hbody
    rw [hn]
    exact decide_eq_false (by omega)

/-- Up and back: only the fraction of a NaN may differ. -/
theorem recode_recode (h : Widens g f) {up down : Nat → Nat} (hup : KeepsNaN g f up) {p : Nat}
    (hp : p < 2 * g.signBit) :
    recode f g down (recode g f up p)
      = if g.isNaN p then p / g.signBit % 2 * g.signBit + (g.infinity + down (up (g.fraction p)))
        else p := by
  obtain ⟨body, hlt, hr, hcases⟩ := recode_cases hup p
  have hmagnitude : f.magnitude (recode g f up p) = body := by rw [hr, magnitude_signed hlt]
  have hsign : f.moveSign g (recode g f up p) = p / g.signBit % 2 * g.signBit := by
    rw [moveSign, hr, div_signed hlt, Nat.mod_mod]
  have hwhole := eq_signed hp
  rw [recode, hsign]
  simp only [isNaN, isInfinite, hmagnitude, decide_eq_true_eq]
  rcases hcases with ⟨hnan, hbody⟩ | ⟨hnan, hmag, hbody⟩ | ⟨hnan, hmag, hbody⟩
  · have hkeep := hup _ (magnitude_of_isNaN hnan).2 (g.fraction_lt p)
    have hfraction : f.fraction (recode g f up p) = up (g.fraction p) := by
      rw [fraction_eq, hmagnitude, hbody, infinity_add_mod hkeep.2]
    have hmag : g.infinity < g.magnitude p := of_decide_eq_true hnan
    rw [if_pos (by omega), if_pos hmag, hfraction]
  · rw [if_neg (by omega), if_pos hbody, if_neg (by omega), ← hmag, hwhole]
  · obtain ⟨hfinite, -⟩ := h.units_convert hmag
    rw [if_neg (by omega), if_neg (by omega), if_neg (by omega),
      h.convert_convert hmag (hmagnitude.trans hbody), hwhole]

/-! ## Quiet NaNs -/

/-- The pattern with a NaN marked quiet. -/
def quieted (f : Interchange) (p : Nat) : Nat :=
  if f.isNaN p then p / f.signBit % 2 * f.signBit + (f.infinity + f.quieten (f.fraction p)) else p

/-- A conversion that marks NaNs quiet leaves none to be marked. -/
theorem quieted_recode {nan : Nat → Nat} (hnan : KeepsNaN g f nan)
    (hquiet : ∀ fraction, f.quieten (nan fraction) = nan fraction) (p : Nat) :
    f.quieted (recode g f nan p) = recode g f nan p := by
  obtain ⟨body, hlt, hr, hcases⟩ := recode_cases hnan p
  have hmagnitude : f.magnitude (recode g f nan p) = body := by rw [hr, magnitude_signed hlt]
  have hbound : recode g f nan p < 2 * f.signBit := recode_lt hnan p
  unfold quieted
  split
  · next h =>
      have hbody := (magnitude_of_isNaN h).1
      rcases hcases with ⟨hn, hnanBody⟩ | ⟨-, -, hinf⟩ | ⟨-, -, hconvert⟩
      · have hkeep := hnan _ (magnitude_of_isNaN hn).2 (g.fraction_lt p)
        have hfraction : f.fraction (recode g f nan p) = nan (g.fraction p) := by
          rw [fraction_eq, hmagnitude, hnanBody, infinity_add_mod hkeep.2]
        rw [hfraction, hquiet, ← hfraction, ← hbody, eq_signed hbound]
      · have hpos := (magnitude_of_isNaN h).2
        omega
      · have hpos := (magnitude_of_isNaN h).2
        have hle := f.nearest_le (g.units p * f.one) g.one
        rw [convert] at hconvert
        omega
  · rfl

/-- A conversion that takes no notice of the mark. -/
theorem recode_quieted {nan : Nat → Nat} (hnan : KeepsNaN g g g.quieten)
    (hsame : ∀ fraction, fraction < g.binade → nan (g.quieten fraction) = nan fraction) (p : Nat) :
    recode g f nan (g.quieted p) = recode g f nan p := by
  by_cases h : g.isNaN p = true
  · obtain ⟨hmag, hpos⟩ := magnitude_of_isNaN h
    have hinf := g.infinity_add_binade
    have hkeep := hnan _ hpos (g.fraction_lt p)
    have hlt : g.infinity + g.quieten (g.fraction p) < g.signBit := by omega
    have hquieted : g.quieted p
        = p / g.signBit % 2 * g.signBit + (g.infinity + g.quieten (g.fraction p)) := if_pos h
    have hmagnitude : g.magnitude (g.quieted p) = g.infinity + g.quieten (g.fraction p) := by
      rw [hquieted, magnitude_signed hlt]
    have hfraction : g.fraction (g.quieted p) = g.quieten (g.fraction p) := by
      rw [fraction_eq, hmagnitude, infinity_add_mod hkeep.2]
    have hsign : g.moveSign f (g.quieted p) = g.moveSign f p := by
      rw [moveSign, hquieted, div_signed hlt, Nat.mod_mod, moveSign]
    have hmarked : g.isNaN (g.quieted p) = true := by
      rw [isNaN, hmagnitude]
      exact decide_eq_true (by omega)
    rw [recode, recode, hsign, if_pos hmarked, if_pos h, hfraction, hsame _ (g.fraction_lt p)]
  · rw [quieted, if_neg h]

end Interchange

namespace Double
open Interchange

/-! ## The four conversions -/

def nanToHalf (fraction : Nat) : Nat :=
  if fraction / halfStep = 0 then half.quietBit else fraction / halfStep

def nanOfHalf (fraction : Nat) : Nat := fraction * halfStep

def nanToSingle (fraction : Nat) : Nat := single.quieten (fraction / singleStep)

def nanOfSingle (fraction : Nat) : Nat := double.quieten (fraction * singleStep)

theorem toHalf_eq : toHalf = recode double half nanToHalf := rfl

theorem ofHalf_eq : ofHalf = recode half double nanOfHalf := rfl

theorem toSingle_eq : toSingle = recode double single nanToSingle := rfl

theorem ofSingle_eq : ofSingle = recode single double nanOfSingle := rfl

theorem binade_half : half.binade = 0x400 := rfl

theorem binade_single : single.binade = 0x800000 := rfl

theorem binade_double : double.binade = 0x10000000000000 := rfl

theorem halfStep_eq : halfStep = 0x40000000000 := rfl

theorem singleStep_eq : singleStep = 0x20000000 := rfl

theorem quietBit_half : half.quietBit = 0x200 := rfl

theorem quieten_single (fraction : Nat) :
    single.quieten fraction = if fraction < 0x400000 then fraction + 0x400000 else fraction := rfl

theorem quieten_double (fraction : Nat) :
    double.quieten fraction
      = if fraction < 0x8000000000000 then fraction + 0x8000000000000 else fraction := rfl

theorem keepsNaN_toHalf : KeepsNaN double half nanToHalf := by
  intro fraction hpos hlt
  rw [binade_double] at hlt
  rw [binade_half, nanToHalf, halfStep_eq, quietBit_half]
  split <;> omega

theorem keepsNaN_ofHalf : KeepsNaN half double nanOfHalf := by
  intro fraction hpos hlt
  rw [binade_half] at hlt
  rw [binade_double, nanOfHalf, halfStep_eq]
  omega

theorem keepsNaN_toSingle : KeepsNaN double single nanToSingle := by
  intro fraction hpos hlt
  rw [binade_double] at hlt
  rw [binade_single, nanToSingle, singleStep_eq, quieten_single]
  split <;> omega

theorem keepsNaN_ofSingle : KeepsNaN single double nanOfSingle := by
  intro fraction hpos hlt
  rw [binade_single] at hlt
  rw [binade_double, nanOfSingle, singleStep_eq, quieten_double]
  split <;> omega

theorem keepsNaN_quieten_single : KeepsNaN single single single.quieten := by
  intro fraction hpos hlt
  rw [binade_single] at hlt ⊢
  rw [quieten_single]
  split <;> omega

theorem nanToHalf_nanOfHalf {fraction : Nat} (hpos : 0 < fraction) :
    nanToHalf (nanOfHalf fraction) = fraction := by
  rw [nanToHalf, nanOfHalf, halfStep_eq]
  split <;> omega

theorem nanToSingle_nanOfSingle {fraction : Nat} (hlt : fraction < single.binade) :
    nanToSingle (nanOfSingle fraction) = single.quieten fraction := by
  rw [binade_single] at hlt
  rw [nanToSingle, nanOfSingle, singleStep_eq, quieten_double, quieten_single, quieten_single]
  split <;> split <;> split <;> omega

theorem quieten_nanToSingle (fraction : Nat) :
    single.quieten (nanToSingle fraction) = nanToSingle fraction := by
  rw [nanToSingle, quieten_single, quieten_single, singleStep_eq]
  by_cases h : fraction / 0x20000000 < 0x400000
  · rw [if_pos h, if_neg (by omega)]
  · rw [if_neg h, if_neg h]

theorem nanOfSingle_quieten {fraction : Nat} (hlt : fraction < single.binade) :
    nanOfSingle (single.quieten fraction) = nanOfSingle fraction := by
  rw [binade_single] at hlt
  rw [nanOfSingle, nanOfSingle, singleStep_eq, quieten_single, quieten_double, quieten_double]
  by_cases h : fraction < 0x400000
  · rw [if_pos h, if_neg (by omega), if_pos (by omega)]
    omega
  · rw [if_neg h]

theorem toHalf_ofHalf {p : Nat} (hp : p < 2 * half.signBit) : toHalf (ofHalf p) = p := by
  rw [toHalf_eq, ofHalf_eq, recode_recode .half_double keepsNaN_ofHalf hp]
  split
  · next h =>
      obtain ⟨hmag, hpos⟩ := magnitude_of_isNaN h
      rw [nanToHalf_nanOfHalf hpos, ← hmag, eq_signed hp]
  · rfl

/-- Coming back from 64 bits, a 32-bit NaN is quiet. -/
theorem toSingle_ofSingle {p : Nat} (hp : p < 2 * single.signBit) :
    toSingle (ofSingle p) = single.quieted p := by
  rw [toSingle_eq, ofSingle_eq, recode_recode .single_double keepsNaN_ofSingle hp,
    nanToSingle_nanOfSingle (single.fraction_lt p), quieted]

end Double

namespace FloatWidth
open Interchange

/-! ## Storing and loading -/

/-- What is left of a stored pattern that is loaded and stored again. -/
def settled : FloatWidth → Nat → Nat
  | .single, stored => Interchange.single.quieted stored
  | _, stored => stored

theorem narrow_widen (width : FloatWidth) {stored : Nat} (h : stored < 0x100 ^ width.bytes) :
    width.narrow (width.widen stored) = width.settled stored := by
  cases width with
  | half => exact Double.toHalf_ofHalf h
  | single => exact Double.toSingle_ofSingle h
  | double => rfl

theorem settled_narrow (width : FloatWidth) (pattern : Nat) :
    width.settled (width.narrow pattern) = width.narrow pattern := by
  cases width with
  | half => rfl
  | single => exact quieted_recode Double.keepsNaN_toSingle Double.quieten_nanToSingle pattern
  | double => rfl

theorem widen_settled (width : FloatWidth) (stored : Nat) :
    width.widen (width.settled stored) = width.widen stored := by
  cases width with
  | half => rfl
  | single =>
      exact recode_quieted Double.keepsNaN_quieten_single
        (fun _ => Double.nanOfSingle_quieten) stored
  | double => rfl

theorem narrow_lt (width : FloatWidth) {pattern : Nat} (h : pattern < UInt64.size) :
    width.narrow pattern < 0x100 ^ width.bytes := by
  cases width with
  | half => exact recode_lt Double.keepsNaN_toHalf pattern
  | single => exact recode_lt Double.keepsNaN_toSingle pattern
  | double => exact h

theorem widen_lt (width : FloatWidth) {stored : Nat} (h : stored < 0x100 ^ width.bytes) :
    width.widen stored < UInt64.size := by
  cases width with
  | half => exact recode_lt Double.keepsNaN_ofHalf stored
  | single => exact recode_lt Double.keepsNaN_ofSingle stored
  | double => exact h

theorem narrow_widen_narrow (width : FloatWidth) {pattern : Nat} (h : pattern < UInt64.size) :
    width.narrow (width.widen (width.narrow pattern)) = width.narrow pattern := by
  rw [width.narrow_widen (width.narrow_lt h), width.settled_narrow]

theorem widen_narrow_widen (width : FloatWidth) {stored : Nat} (h : stored < 0x100 ^ width.bytes) :
    width.widen (width.narrow (width.widen stored)) = width.widen stored := by
  rw [width.narrow_widen h, width.widen_settled]

theorem isNaN_widen_narrow (width : FloatWidth) (pattern : Nat) :
    Interchange.double.isNaN (width.widen (width.narrow pattern))
      = Interchange.double.isNaN pattern := by
  cases width with
  | half =>
      exact (isNaN_recode Double.keepsNaN_ofHalf _).trans
        (isNaN_recode Double.keepsNaN_toHalf pattern)
  | single =>
      exact (isNaN_recode Double.keepsNaN_ofSingle _).trans
        (isNaN_recode Double.keepsNaN_toSingle pattern)
  | double => rfl

end FloatWidth

/-! ## Fields -/

theorem toNat_ofNat_of_lt {n : Nat} (h : n < UInt64.size) : (UInt64.ofNat n).toNat = n := by
  rw [UInt64.toNat_ofNat', Nat.mod_eq_of_lt h]

namespace FloatField

/-- The pattern a field keeps. -/
def kept (width : FloatWidth) (pattern : UInt64) : UInt64 :=
  .ofNat (width.widen (width.narrow pattern.toNat))

theorem toNat_kept (width : FloatWidth) (pattern : UInt64) :
    (kept width pattern).toNat = width.widen (width.narrow pattern.toNat) :=
  toNat_ofNat_of_lt (width.widen_lt (width.narrow_lt pattern.toNat_lt))

theorem isNaN_kept (width : FloatWidth) (pattern : UInt64) :
    Interchange.double.isNaN (kept width pattern).toNat
      = Interchange.double.isNaN pattern.toNat := by
  rw [toNat_kept, width.isNaN_widen_narrow]

theorem length_encode (order : ByteOrder) (width : FloatWidth) (pattern : UInt64) :
    (encode order width pattern).length = width.bytes := by
  rw [encode, ByteOrder.length_arrange, length_lowBytes]

theorem reads_decode (order : ByteOrder) (width : FloatWidth) (pattern : UInt64) :
    Read.Reads (decode order width) (encode order width pattern) (kept width pattern) := by
  have hlt := width.narrow_lt pattern.toNat_lt
  have hfield : numberOf (order.arrange (encode order width pattern))
      = width.narrow pattern.toNat := by
    rw [encode, ByteOrder.arrange_arrange, numberOf_lowBytes, Nat.mod_eq_of_lt hlt]
  have h := (Read.Reads.bytes (length_encode order width pattern)).map fun field =>
    UInt64.ofNat (width.widen (numberOf (order.arrange field)))
  rwa [hfield] at h

theorem delimited_decode (order : ByteOrder) (width : FloatWidth) :
    Read.Delimited (decode order width) :=
  (Read.Delimited.bytes width.bytes).map _

theorem encode_kept (order : ByteOrder) (width : FloatWidth) (pattern : UInt64) :
    encode order width (kept width pattern) = encode order width pattern := by
  rw [encode, toNat_kept, width.narrow_widen_narrow pattern.toNat_lt, encode]

/-- A field keeps what was read from it. -/
theorem kept_of_decode {order : ByteOrder} {width : FloatWidth} {r r' : Reader} {pattern : UInt64}
    (h : decode order width r = .ok pattern r') : kept width pattern = pattern := by
  obtain ⟨field, r₁, hfield, hpure⟩ := bind_eq_ok.mp h
  injection hpure with hpattern _
  have hlt := order.numberOf_arrange_lt (Read.length_of_bytes hfield)
  rw [← hpattern, kept, toNat_ofNat_of_lt (width.widen_lt hlt), width.widen_narrow_widen hlt]

end FloatField

/-! ## Tagged floats -/

namespace TaggedFloat
open Interchange

theorem isZero_iff {pattern : UInt64} :
    double.isZero pattern.toNat = true ↔ pattern = 0 ∨ pattern = 0x8000000000000000 := by
  have hlt := pattern.toNat_lt
  have hsign : double.signBit = 0x8000000000000000 := rfl
  rw [isZero, magnitude, hsign, decide_eq_true_eq, ← UInt64.toNat_inj, ← UInt64.toNat_inj]
  show _ ↔ pattern.toNat = 0 ∨ pattern.toNat = 0x8000000000000000
  omega

/-- Equality with something but zero is equality of patterns. -/
theorem eq_of_equal {a b : Nat} (h : Double.equal a b = true) (hb : double.isZero b = false) :
    a = b := by
  simpa [Double.equal, hb] using (Bool.and_eq_true_iff.mp h).2

theorem equal_zero_iff {pattern : Nat} :
    Double.equal pattern 0 = true ↔ double.isZero pattern = true := by
  have hinf : 0 < double.infinity := by decide
  simp only [Double.equal, isNaN, isZero, Bool.and_eq_true, Bool.or_eq_true, Bool.not_eq_true',
    decide_eq_true_eq, decide_eq_false_iff_not]
  have hzero : double.magnitude 0 = 0 := Nat.zero_mod _
  constructor
  · rintro ⟨-, rfl | ⟨h, -⟩⟩
    · exact hzero
    · exact h
  · intro h
    exact ⟨⟨by omega, by omega⟩, Or.inr ⟨h, hzero⟩⟩

theorem width?_eq_none {pattern : Nat} : width? pattern = none ↔ double.isZero pattern = true := by
  rw [← equal_zero_iff, width?]
  split
  · next h => exact ⟨fun _ => h, fun _ => rfl⟩
  · next h =>
      refine ⟨fun hnone => ?_, fun hzero => absurd hzero h⟩
      split at hnone
      · cases hnone
      · split at hnone <;> cases hnone

/-- The width that is chosen loses nothing. -/
theorem kept_of_width? {pattern : UInt64} {width : FloatWidth}
    (h : width? pattern.toNat = some width) : FloatField.kept width pattern = pattern := by
  have hzero : double.isZero pattern.toNat = false := by
    rw [← Bool.not_eq_true, ← width?_eq_none, h]
    exact Option.some_ne_none width
  have hsame : width.widen (width.narrow pattern.toNat) = pattern.toNat := by
    rw [width?] at h
    split at h
    · cases h
    · split at h
      · next hequal =>
          cases h
          exact eq_of_equal hequal hzero
      · split at h
        · next hequal =>
            cases h
            exact eq_of_equal hequal hzero
        · cases h
          rfl
  rw [FloatField.kept, hsame, UInt64.ofNat_toNat]

theorem ofTag?_tag (width : Option FloatWidth) : ofTag? (tag width) = some width := by
  cases width with
  | none => rfl
  | some width => cases width <;> rfl

/-- What comes back of a pattern: both zeros are the positive one. -/
def kept (pattern : UInt64) : UInt64 := if double.isZero pattern.toNat then 0 else pattern

theorem kept_eq (pattern : UInt64) :
    kept pattern = if pattern = 0x8000000000000000 then 0 else pattern := by
  rw [kept]
  by_cases hzero : pattern = 0
  · rw [hzero]
    rfl
  · by_cases hneg : pattern = 0x8000000000000000
    · rw [if_pos (isZero_iff.mpr (Or.inr hneg)), if_pos hneg]
    · have hnot : ¬double.isZero pattern.toNat = true := fun h => by
        rcases isZero_iff.mp h with h | h
        · exact hzero h
        · exact hneg h
      rw [if_neg hnot, if_neg hneg]

theorem encode_of_isZero {pattern : UInt64} (h : double.isZero pattern.toNat = true) :
    encode pattern = [0] := by
  rw [encode, width?_eq_none.mpr h]
  rfl

theorem encode_of_width? {pattern : UInt64} {width : FloatWidth}
    (h : width? pattern.toNat = some width) :
    encode pattern = tag (some width) :: FloatField.encode .little width pattern := by
  rw [encode, h]

theorem length_encode (pattern : UInt64) : (encode pattern).length = length pattern := by
  rw [length]
  cases h : width? pattern.toNat with
  | none => rw [encode_of_isZero (width?_eq_none.mp h), List.length_singleton]
  | some width =>
      rw [encode_of_width? h, List.length_cons, FloatField.length_encode, Nat.add_comm]

theorem encode_kept (pattern : UInt64) : encode (kept pattern) = encode pattern := by
  rw [kept]
  split
  · next h =>
      have hzero : double.isZero (0 : UInt64).toNat = true := isZero_iff.mpr (Or.inl rfl)
      rw [encode_of_isZero hzero, encode_of_isZero h]
  · rfl

/-- The reading behind a tag; `start` is told in case the tag is none. -/
def decodeBehind (start : Nat) (t : UInt8) : Read UInt64 :=
  match ofTag? t with
  | none => Read.fail (.invalidTag t start)
  | some none => return 0
  | some (some width) => FloatField.decode .little width

theorem decode_eq :
    decode = Read.position >>= fun start => Read.byte >>= fun t => decodeBehind start t := rfl

theorem reads_decode (pattern : UInt64) :
    Read.Reads decode (encode pattern) (kept pattern) := by
  rw [decode_eq]
  refine .position fun start => ?_
  cases h : width? pattern.toNat with
  | none =>
      have hzero := width?_eq_none.mp h
      rw [encode_of_isZero hzero, kept, if_pos hzero]
      exact (Read.Reads.byte 0).map fun _ => (0 : UInt64)
  | some width =>
      have hzero : ¬double.isZero pattern.toNat = true := by
        rw [← width?_eq_none, h]
        exact Option.some_ne_none width
      have hbehind : decodeBehind start (tag (some width)) = FloatField.decode .little width := by
        rw [decodeBehind, ofTag?_tag]
      have hfield := FloatField.reads_decode .little width pattern
      rw [kept_of_width? h, ← hbehind] at hfield
      rw [encode_of_width? h, kept, if_neg hzero]
      exact (Read.Reads.byte _).bind hfield

theorem delimited_decodeBehind (start : Nat) (t : UInt8) :
    Read.Delimited (decodeBehind start t) := by
  rw [decodeBehind]
  split
  · exact .fail _
  · exact .pure 0
  · exact FloatField.delimited_decode .little _

theorem delimited_decode : Read.Delimited decode := by
  rw [decode_eq]
  refine .position (fun start => .bind .byte (delimited_decodeBehind start)) ?_
  intro p q r r' pattern h
  obtain ⟨t, r₁, ht, hbehind⟩ := bind_eq_ok.mp h
  refine bind_eq_ok.mpr ⟨t, r₁, ht, ?_⟩
  rw [decodeBehind] at hbehind ⊢
  cases htag : ofTag? t with
  | none =>
      rw [htag] at hbehind
      cases hbehind
  | some width? =>
      rw [htag] at hbehind
      cases width? <;> exact hbehind

end TaggedFloat
end PackedRecord
