import Mathlib.Algebra.Order.Ring.Int
import PackedRecord.Proofs.FixedIntegers

/-!
# Ranges of integer fields

A field of a width tells apart as many integers as it has patterns, and these
are the ones in its range: from zero up if it is unsigned, half of them below
zero if it is signed. A range has one integer of every remainder
(`ByteWidth.eq_reduce_iff`), so what a field gives back of a word is the one
integer in its range that is congruent to the word, and a word comes back
exactly if it lies there itself.

A machine extends a sign by moving the field to the top of a word and down
again (`FixedInt.extendByShifts`). On the way up the field loses nothing but
what does not matter to its remainder; on the way down the sign fills in,
which is dividing by what the way up multiplied by.
-/

namespace PackedRecord

namespace ByteWidth

variable {width : ByteWidth} {signed : Bool} {i v : Int}

/-- How many integers of a signed field are below zero. -/
def half (width : ByteWidth) : Nat := Nat.pow 2 (8 * width.bytes - 1)

/-- The smallest integer of a field. -/
def lowest (width : ByteWidth) (signed : Bool) : Int := if signed then -width.half else 0

theorem limit_eq (width : ByteWidth) : width.limit = 2 ^ (8 * width.bytes) :=
  (Nat.pow_mul 2 8 width.bytes).symm

theorem two_mul_half (width : ByteWidth) : 2 * width.half = width.limit := by
  have hpos := width.pos
  have hexponent : 8 * width.bytes = (8 * width.bytes - 1).succ := by omega
  rw [width.limit_eq, hexponent, Nat.pow_succ']
  rfl

theorem reduce_range (width : ByteWidth) (signed : Bool) (v : Int) :
    width.lowest signed ≤ width.reduce signed v
      ∧ width.reduce signed v < width.lowest signed + width.limit := by
  have hpos := width.limit_pos
  have hhalf := width.two_mul_half
  cases signed with
  | false =>
      simp only [lowest, reduce, Bool.false_eq_true, if_false, Int.zero_add]
      exact ⟨Int.emod_nonneg _ (by omega), Int.emod_lt_of_pos _ (by omega)⟩
  | true =>
      simp only [lowest, reduce, if_true]
      have hlow : -((width.limit : Int) / 2) ≤ v.bmod width.limit := Int.le_bmod hpos
      have hhigh : v.bmod width.limit < ((width.limit : Int) + 1) / 2 := Int.bmod_lt hpos
      omega

theorem reduce_of_range (hlow : width.lowest signed ≤ i)
    (hhigh : i < width.lowest signed + width.limit) : width.reduce signed i = i := by
  have hhalf := width.two_mul_half
  cases signed with
  | false =>
      simp only [lowest, reduce, Bool.false_eq_true, if_false] at *
      exact Int.emod_eq_of_lt hlow (by omega)
  | true =>
      simp only [lowest, reduce, if_true] at *
      exact Int.bmod_eq_of_le (by omega) (by omega)

/-- There is one integer of every remainder in a range. -/
theorem eq_reduce_iff :
    i = width.reduce signed v ↔ width.lowest signed ≤ i
      ∧ i < width.lowest signed + width.limit ∧ i % width.limit = v % width.limit := by
  constructor
  · rintro rfl
    obtain ⟨hlow, hhigh⟩ := width.reduce_range signed v
    exact ⟨hlow, hhigh, width.reduce_emod signed v⟩
  · rintro ⟨hlow, hhigh, hcongr⟩
    rw [← width.reduce_congr signed hcongr, reduce_of_range hlow hhigh]

theorem cast_limit (width : ByteWidth) : (width.limit : Int) = 2 ^ (8 * width.bytes) := by
  rw [width.limit_eq, Int.natCast_pow]
  rfl

theorem cast_half (width : ByteWidth) : (width.half : Int) = 2 ^ (8 * width.bytes - 1) :=
  Int.natCast_pow 2 _

theorem eq_reduce_signed_iff :
    i = width.reduce true v ↔ -(2 ^ (8 * width.bytes - 1)) ≤ i ∧ i < 2 ^ (8 * width.bytes - 1)
      ∧ i % 2 ^ (8 * width.bytes) = v % 2 ^ (8 * width.bytes) := by
  have hhigh : width.lowest true + width.limit = width.half := by
    have hhalf := width.two_mul_half
    simp only [lowest, if_true]
    omega
  rw [eq_reduce_iff, hhigh, cast_limit, cast_half, show width.lowest true = -width.half from rfl,
    cast_half]

theorem eq_reduce_unsigned_iff :
    i = width.reduce false v ↔ 0 ≤ i ∧ i < 2 ^ (8 * width.bytes)
      ∧ i % 2 ^ (8 * width.bytes) = v % 2 ^ (8 * width.bytes) := by
  rw [eq_reduce_iff, show width.lowest false = 0 from rfl, Int.zero_add, cast_limit]

end ByteWidth

namespace FixedInt

/-! ## Extension by shifts -/

/-- The field in `raw` moved to the top of a word and down again with its
sign, where a signed field leaves room in a word. -/
def extendByShifts (width : ByteWidth) (signed : Bool) (raw : UInt64) : Int64 :=
  if !signed || 8 ≤ width.bytes then raw.toInt64
  else
    let shift := 64 - 8 * width.bytes
    (raw <<< .ofNat shift).toInt64 >>> .ofNat shift

/-- An amount below the width of a word is the amount that is moved. -/
theorem toBitVec_shifted (raw : UInt64) {shift : Nat} (h : shift < 64) :
    ((raw <<< .ofNat shift).toInt64 >>> .ofNat shift).toBitVec
      = (raw.toBitVec <<< shift).sshiftRight shift := by
  have hup : (raw <<< .ofNat shift).toBitVec = raw.toBitVec <<< shift := by
    have hamount : ((UInt64.ofNat shift).toBitVec % 64).toNat = shift := by
      show (BitVec.ofNat 64 shift % 64).toNat = shift
      rw [BitVec.toNat_umod, BitVec.toNat_ofNat]
      show shift % 2 ^ 64 % 64 = shift
      omega
    rw [UInt64.toBitVec_shiftLeft, BitVec.shiftLeft_eq', hamount]
  have hdown : ((Int64.ofNat shift).toBitVec.smod 64).toNat = shift := by
    show ((BitVec.ofNat 64 shift).smod 64).toNat = shift
    have hsign : (BitVec.ofNat 64 shift).msb = false := by
      rw [BitVec.msb_eq_decide, BitVec.toNat_ofNat, decide_eq_false_iff_not]
      omega
    rw [BitVec.smod_eq, hsign]
    show (BitVec.ofNat 64 shift % 64).toNat = shift
    rw [BitVec.toNat_umod, BitVec.toNat_ofNat]
    show shift % 2 ^ 64 % 64 = shift
    omega
  rw [Int64.toBitVec_shiftRight, UInt64.toBitVec_toInt64, hup, BitVec.sshiftRight', hdown]

/-- Balanced remainders scale. -/
theorem bmod_mul_mul (n : Int) (m : Nat) {scale : Nat} (hscale : 0 < scale) :
    Int.bmod (n * scale) (m * scale) = Int.bmod n m * scale := by
  have hpos : 0 < (scale : Int) := Int.natCast_pos.mpr hscale
  have hrest : n * scale % ((m * scale : Nat) : Int) = n % m * scale := by
    rw [Int.natCast_mul, Int.mul_comm n, Int.mul_comm m, Int.mul_emod_mul_of_pos _ _ hpos,
      Int.mul_comm]
  have hsame : n % m * scale < (((m * scale : Nat) : Int) + 1) / 2
      ↔ n % m < ((m : Int) + 1) / 2 := by
    have hlt : 2 * (n % m) * scale < m * scale ↔ 2 * (n % m) < m :=
      Int.mul_lt_mul_right hpos
    rw [Int.mul_assoc] at hlt
    rw [Int.natCast_mul]
    omega
  rw [Int.bmod_def, Int.bmod_def, hrest]
  by_cases hlow : n % m < ((m : Int) + 1) / 2
  · rw [if_pos hlow, if_pos (hsame.mpr hlow)]
  · rw [if_neg hlow, if_neg (mt hsame.mp hlow), Int.natCast_mul, Int.sub_mul]

/-- Up and down again is the reduction to the range of what was moved. -/
theorem toInt_shifted (x : BitVec 64) {shift : Nat} (h : shift ≤ 64) :
    ((x <<< shift).sshiftRight shift).toInt = Int.bmod x.toNat (2 ^ (64 - shift)) := by
  have hscale : 0 < 2 ^ shift := Nat.two_pow_pos _
  have hword : 2 ^ 64 = 2 ^ (64 - shift) * 2 ^ shift := by
    rw [← Nat.pow_add, Nat.sub_add_cancel h]
  rw [BitVec.toInt_sshiftRight, BitVec.toInt_shiftLeft, Nat.shiftLeft_eq,
    Int.shiftRight_eq_div_pow, hword, Int.natCast_mul, bmod_mul_mul _ _ hscale]
  exact Int.mul_ediv_cancel _ (Int.natCast_ne_zero.mpr (Nat.ne_of_gt hscale))

/-- What a signed field keeps fits a word. -/
theorem toInt_ofInt_reduce (width : ByteWidth) (v : Int) :
    (Int64.ofInt (width.reduce true v)).toInt = width.reduce true v := by
  obtain ⟨hlow, hhigh⟩ := width.reduce_range true v
  have hhalf := width.two_mul_half
  have hle : width.limit ≤ 2 ^ 64 := width.limit_le
  simp only [ByteWidth.lowest, if_true] at hlow hhigh
  exact Int64.toInt_ofInt_of_le (by omega) (by omega)

/-- What an unsigned field keeps is read off the word without its sign. -/
theorem toNat_toUInt64_ofInt_reduce (width : ByteWidth) (v : Int) :
    ((Int64.ofInt (width.reduce false v)).toUInt64.toNat : Int) = width.reduce false v := by
  obtain ⟨hlow, hhigh⟩ := width.reduce_range false v
  have hle : width.limit ≤ 2 ^ 64 := width.limit_le
  simp only [ByteWidth.lowest, Bool.false_eq_true, if_false, Int.zero_add] at hlow hhigh
  show ((BitVec.ofInt 64 (width.reduce false v)).toNat : Int) = _
  rw [BitVec.toNat_ofInt, Int.emod_eq_of_lt hlow (by omega), Int.toNat_of_nonneg hlow]

/-- In less than a whole word there is room for what an unsigned field keeps. -/
theorem toInt_ofInt_reduce_unsigned {width : ByteWidth} (h : width.bytes < 8) (v : Int) :
    (Int64.ofInt (width.reduce false v)).toInt = width.reduce false v := by
  obtain ⟨hlow, hhigh⟩ := width.reduce_range false v
  have hle : width.limit ≤ 2 ^ 56 := by
    rw [width.limit_eq]
    exact Nat.pow_le_pow_right (by decide) (by omega)
  simp only [ByteWidth.lowest, Bool.false_eq_true, if_false, Int.zero_add] at hlow hhigh
  exact Int64.toInt_ofInt_of_le (by omega) (by omega)

/-- The shifts extend a field as it should be. -/
theorem extendByShifts_eq {width : ByteWidth} {raw : Nat} (signed : Bool) (h : raw < width.limit) :
    extendByShifts width signed (.ofNat raw) = extend width signed raw := by
  have hraw : (UInt64.ofNat raw).toBitVec.toNat = raw := by
    show raw % 2 ^ 64 = raw
    exact Nat.mod_eq_of_lt (Nat.lt_of_lt_of_le h width.limit_le)
  have hwhole : (UInt64.ofNat raw).toInt64 = Int64.ofInt raw := by
    apply Int64.toBitVec_inj.mp
    exact (BitVec.ofInt_natCast 64 raw).symm
  cases signed with
  | false => exact hwhole
  | true =>
      apply Int64.toInt_inj.mp
      rw [extend_eq true h, toInt_ofInt_reduce]
      by_cases hwidth : 8 ≤ width.bytes
      · have hbytes : width.bytes = 8 := Nat.le_antisymm width.le hwidth
        have hlimit : width.limit = Int64.size := by
          rw [width.limit_eq, hbytes]
          rfl
        rw [extendByShifts, if_pos (by simp [hwidth]), hwhole, Int64.toInt_ofInt, ← hlimit]
        rfl
      · have hpos := width.pos
        have hshift : 64 - 8 * width.bytes < 64 := by omega
        have hexponent : 64 - (64 - 8 * width.bytes) = 8 * width.bytes := by omega
        rw [extendByShifts, if_neg (by simp [hwidth]), ← Int64.toInt_toBitVec,
          toBitVec_shifted _ hshift, toInt_shifted _ (Nat.le_of_lt hshift), hraw, hexponent,
          ← width.limit_eq]
        rfl

/-! ## What comes back -/

/-- A word survives a signed field exactly if it lies in its range. -/
theorem ofInt_reduce_signed_eq_iff {width : ByteWidth} {word : Int64} :
    Int64.ofInt (width.reduce true word.toInt) = word
      ↔ -(2 ^ (8 * width.bytes - 1)) ≤ word.toInt ∧ word.toInt < 2 ^ (8 * width.bytes - 1) := by
  rw [← Int64.toInt_inj, toInt_ofInt_reduce, eq_comm, ByteWidth.eq_reduce_signed_iff]
  exact ⟨fun ⟨hlow, hhigh, _⟩ => ⟨hlow, hhigh⟩, fun ⟨hlow, hhigh⟩ => ⟨hlow, hhigh, rfl⟩⟩

/-- It survives an unsigned field exactly if it does so without its sign. -/
theorem ofInt_reduce_unsigned_eq_iff {width : ByteWidth} {word : Int64} :
    Int64.ofInt (width.reduce false word.toInt) = word
      ↔ word.toUInt64.toNat < 2 ^ (8 * width.bytes) := by
  have hcongr := toNat_toUInt64_emod width word
  have hsame : Int64.ofInt (width.reduce false word.toInt) = word
      ↔ (word.toUInt64.toNat : Int) = width.reduce false word.toInt := by
    have hkept := toNat_toUInt64_ofInt_reduce width word.toInt
    generalize Int64.ofInt (width.reduce false word.toInt) = kept at hkept
    rw [← hkept, Int.ofNat_inj, eq_comm, ← Int64.toBitVec_inj, ← BitVec.toNat_inj]
    rfl
  rw [hsame, ByteWidth.eq_reduce_iff, ← width.limit_eq]
  simp only [ByteWidth.lowest, Bool.false_eq_true, if_false]
  omega

/-- Any field of the width is read, and written again the same. -/
theorem exists_decodeUnsigned (order : ByteOrder) {width : ByteWidth} {field : List UInt8}
    (h : field.length = width.bytes) :
    ∃ n, Read.Reads (decodeUnsigned order width) field n ∧ n < width.limit
      ∧ encode order width n = field :=
  ⟨_, (Read.Reads.bytes h).map fun field => numberOf (order.arrange field),
    order.numberOf_arrange_lt h, order.arrange_lowBytes h⟩

theorem exists_decode (order : ByteOrder) {width : ByteWidth} {field : List UInt8} (signed : Bool)
    (h : field.length = width.bytes) :
    ∃ word, Read.Reads (decode order width signed) field word
      ∧ encode order width word.toUInt64.toNat = field := by
  obtain ⟨n, hreads, hlt, hfield⟩ := exists_decodeUnsigned order h
  exact ⟨_, hreads.map (extend width signed), (encode_extend order signed hlt).trans hfield⟩

/-- A field gives back the one integer in its range that is congruent to the
word it was written for, so exactly the words in its range survive. Any field
is the field of what is read from it, and the most significant byte first is
the reverse of the least significant byte first. -/
theorem decode_congruent (order : ByteOrder) (width : ByteWidth) (word : Int64) :
    (encode order width word.toUInt64.toNat).length = width.bytes
      ∧ (∀ before behind, ∃ r signed unsigned,
        Reader.start (before ++ (encode order width word.toUInt64.toNat ++ behind)) before.length
            = .ok r
          ∧ decodeUnsigned order width r
            = .ok (word.toUInt64.toNat % 2 ^ (8 * width.bytes))
              ⟨before.length + width.bytes, behind⟩
          ∧ decode order width true r = .ok signed ⟨before.length + width.bytes, behind⟩
          ∧ decode order width false r = .ok unsigned ⟨before.length + width.bytes, behind⟩
          ∧ (∀ i, i = signed.toInt ↔ -(2 ^ (8 * width.bytes - 1)) ≤ i
            ∧ i < 2 ^ (8 * width.bytes - 1)
            ∧ i % 2 ^ (8 * width.bytes) = word.toInt % 2 ^ (8 * width.bytes))
          ∧ (∀ i, i = (unsigned.toUInt64.toNat : Int) ↔ 0 ≤ i ∧ i < 2 ^ (8 * width.bytes)
            ∧ i % 2 ^ (8 * width.bytes) = word.toInt % 2 ^ (8 * width.bytes))
          ∧ (width.bytes < 8 → unsigned.toInt = unsigned.toUInt64.toNat)
          ∧ (signed = word ↔ -(2 ^ (8 * width.bytes - 1)) ≤ word.toInt
            ∧ word.toInt < 2 ^ (8 * width.bytes - 1))
          ∧ (unsigned = word ↔ word.toUInt64.toNat < 2 ^ (8 * width.bytes)))
      ∧ (∀ field, field.length = width.bytes → ∀ p behind,
        (∃ n, decodeUnsigned order width ⟨p, field ++ behind⟩ = .ok n ⟨p + width.bytes, behind⟩
          ∧ encode order width n = field)
        ∧ ∀ signed, ∃ n,
          decode order width signed ⟨p, field ++ behind⟩ = .ok n ⟨p + width.bytes, behind⟩
            ∧ encode order width n.toUInt64.toNat = field)
      ∧ encode .big width word.toUInt64.toNat = (encode .little width word.toUInt64.toNat).reverse
      ∧ ∀ signed raw, raw < 2 ^ (8 * width.bytes) →
        extendByShifts width signed (.ofNat raw) = extend width signed raw := by
  refine ⟨length_encode order width _, fun before behind => ?_, fun field hlength p behind => ?_,
    rfl, fun signed raw h => extendByShifts_eq signed (width.limit_eq ▸ h)⟩
  · have hnumber := reads_decodeUnsigned order width word.toUInt64.toNat before.length behind
    have hsigned := reads_decode order width true word before.length behind
    have hunsigned := reads_decode order width false word before.length behind
    rw [length_encode] at hnumber hsigned hunsigned
    rw [width.limit_eq] at hnumber
    refine ⟨_, _, _, Reader.start_append before _, hnumber, hsigned, hunsigned, fun i => ?_,
      fun i => ?_, fun h => ?_, ofInt_reduce_signed_eq_iff, ofInt_reduce_unsigned_eq_iff⟩
    · rw [toInt_ofInt_reduce, ByteWidth.eq_reduce_signed_iff]
    · rw [toNat_toUInt64_ofInt_reduce, ByteWidth.eq_reduce_unsigned_iff]
    · rw [toInt_ofInt_reduce_unsigned h, toNat_toUInt64_ofInt_reduce]
  · obtain ⟨n, hnumber, -, hfield⟩ := exists_decodeUnsigned order hlength
    have hread := hnumber p behind
    rw [hlength] at hread
    refine ⟨⟨n, hread, hfield⟩, fun signed => ?_⟩
    obtain ⟨word, hword, hfield⟩ := exists_decode order signed hlength
    have hread := hword p behind
    rw [hlength] at hread
    exact ⟨word, hread, hfield⟩

/-- Three bytes of minus two, the most significant first. -/
theorem decode_congruent_sample :
    (3 < 8 ∧ [0xFF, 0xFF, 0xFE].length = 3 ∧ 0xFFFFFE < 2 ^ (8 * 3))
      ∧ (∃ r signed unsigned,
        Reader.start ([7] ++ (encode .big ⟨3, by decide, by decide⟩ (-2 : Int64).toUInt64.toNat
            ++ [9])) 1 = .ok r
          ∧ decode .big ⟨3, by decide, by decide⟩ true r = .ok signed ⟨4, [9]⟩
          ∧ decode .big ⟨3, by decide, by decide⟩ false r = .ok unsigned ⟨4, [9]⟩
          ∧ -2 = signed.toInt ∧ signed = -2
          ∧ 0xFFFFFE = (unsigned.toUInt64.toNat : Int)
          ∧ unsigned.toInt = unsigned.toUInt64.toNat)
      ∧ (∃ n, decode .big ⟨3, by decide, by decide⟩ true ⟨7, [0xFF, 0xFF, 0xFE] ++ [9]⟩
          = .ok n ⟨10, [9]⟩
        ∧ encode .big ⟨3, by decide, by decide⟩ n.toUInt64.toNat = [0xFF, 0xFF, 0xFE])
      ∧ extendByShifts ⟨3, by decide, by decide⟩ true (.ofNat 0xFFFFFE)
        = extend ⟨3, by decide, by decide⟩ true 0xFFFFFE := by
  obtain ⟨-, hread, hback, -, hshifts⟩ := decode_congruent .big ⟨3, by decide, by decide⟩ (-2)
  obtain ⟨r, signed, unsigned, hstart, -, hsigned, hunsigned, hvalue, hwithout, hroom, hsame, -⟩ :=
    hread [7] [9]
  exact ⟨⟨by decide, rfl, by decide⟩,
    ⟨r, signed, unsigned, hstart, hsigned, hunsigned, (hvalue (-2)).mpr (by decide),
      hsame.mpr (by decide), (hwithout 0xFFFFFE).mpr (by decide), hroom (by decide)⟩,
    (hback [0xFF, 0xFF, 0xFE] rfl 7 [9]).2 true, hshifts true 0xFFFFFE (by decide)⟩

end FixedInt
end PackedRecord
