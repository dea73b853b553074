import Mathlib.Algebra.Group.Nat.Defs
import PackedRecord.Normal
import PackedRecord.Proofs.Reading

/-!
# Fields of a fixed width

Writing keeps a number modulo the limit of its width and nothing else
(`lowBytes_mod`), and reading gives back that remainder
(`numberOf_lowBytes`), in either byte order. What a field keeps of an
integer is therefore the integer congruent to it in the range of the
field, `ByteWidth.reduce`; the congruence is all that the laws below use
of it, so signed and unsigned fields share every proof.
-/

namespace PackedRecord

/-! ## Bytes of a number -/

theorem numberOf_lt : ∀ bytes : List UInt8, numberOf bytes < 0x100 ^ bytes.length
  | [] => by simp [numberOf]
  | b :: rest => by
      have hb : b.toNat < 0x100 := b.toNat_lt
      have hrest := numberOf_lt rest
      simp only [numberOf, List.length_cons, Nat.pow_succ]
      omega

theorem numberOf_lowBytes (n word : Nat) : numberOf (lowBytes n word) = word % 0x100 ^ n := by
  induction n generalizing word with
  | zero => simp [lowBytes, numberOf, Nat.mod_one]
  | succ n ih =>
      have hlow : (UInt8.ofNat word).toNat = word % 0x100 := UInt8.toNat_ofNat'
      rw [lowBytes, numberOf, ih, hlow, Nat.pow_succ, Nat.mul_comm (0x100 ^ n), Nat.mod_mul]

/-- Bytes are the low bytes of their own number. -/
theorem lowBytes_numberOf : ∀ bytes : List UInt8, lowBytes bytes.length (numberOf bytes) = bytes
  | [] => rfl
  | b :: rest => by
      have hb : b.toNat < 0x100 := b.toNat_lt
      have hlow : UInt8.ofNat (numberOf (b :: rest)) = b := by
        apply UInt8.toNat_inj.mp
        rw [UInt8.toNat_ofNat', numberOf]
        omega
      have hhigh : numberOf (b :: rest) / 0x100 = numberOf rest := by
        rw [numberOf]
        omega
      rw [List.length_cons, lowBytes, hlow, hhigh, lowBytes_numberOf rest]

theorem lowBytes_mod (n word : Nat) : lowBytes n (word % 0x100 ^ n) = lowBytes n word := by
  induction n generalizing word with
  | zero => rfl
  | succ n ih =>
      have hlow : UInt8.ofNat (word % 0x100 ^ (n + 1)) = UInt8.ofNat word := by
        apply UInt8.toNat_inj.mp
        rw [UInt8.toNat_ofNat', UInt8.toNat_ofNat']
        exact Nat.mod_mod_of_dvd word ⟨0x100 ^ n, by rw [Nat.pow_succ, Nat.mul_comm]⟩
      have hhigh : word % 0x100 ^ (n + 1) / 0x100 = word / 0x100 % 0x100 ^ n := by
        rw [Nat.pow_succ, Nat.mul_comm, Nat.mod_mul_right_div_self]
      rw [lowBytes, lowBytes, hlow, hhigh, ih]

/-- Numbers of the same remainder have the same low bytes. -/
theorem lowBytes_congr {n a b : Nat} (h : a % 0x100 ^ n = b % 0x100 ^ n) :
    lowBytes n a = lowBytes n b := by
  rw [← lowBytes_mod n a, h, lowBytes_mod]

/-- A field of `n` bytes holds a number of `n` bytes, in either order. -/
theorem ByteOrder.numberOf_arrange_lt (order : ByteOrder) {n : Nat} {field : List UInt8}
    (h : field.length = n) : numberOf (order.arrange field) < 0x100 ^ n := by
  have hlt := numberOf_lt (order.arrange field)
  rwa [order.length_arrange, h] at hlt

/-- The field is the one that holds that number. -/
theorem ByteOrder.arrange_lowBytes (order : ByteOrder) {n : Nat} {field : List UInt8}
    (h : field.length = n) :
    order.arrange (lowBytes n (numberOf (order.arrange field))) = field := by
  have hsame := lowBytes_numberOf (order.arrange field)
  rw [order.length_arrange, h] at hsame
  rw [hsame, order.arrange_arrange]

/-! ## The range of a width -/

namespace ByteWidth

theorem limit_pos (width : ByteWidth) : 0 < width.limit :=
  Nat.pow_pos (by decide)

/-- A field holds the low end of a word. -/
theorem limit_dvd (width : ByteWidth) : width.limit ∣ UInt64.size :=
  (Nat.pow_dvd_pow 0x100 width.le : 0x100 ^ width.bytes ∣ 0x100 ^ 8)

theorem limit_le (width : ByteWidth) : width.limit ≤ UInt64.size :=
  Nat.le_of_dvd (by decide) width.limit_dvd

theorem maxUnsigned_lt_iff {width : ByteWidth} {n : Nat} :
    width.maxUnsigned < n ↔ width.limit ≤ n := by
  have hpos := width.limit_pos
  unfold maxUnsigned
  omega

theorem reduce_emod (width : ByteWidth) (signed : Bool) (i : Int) :
    width.reduce signed i % width.limit = i % width.limit := by
  cases signed with
  | false => exact Int.emod_emod_of_dvd i (Int.dvd_refl _)
  | true => exact Int.bmod_emod

/-- The reduced integer depends on the remainder only. -/
theorem reduce_congr (width : ByteWidth) (signed : Bool) {i j : Int}
    (h : i % width.limit = j % width.limit) :
    width.reduce signed i = width.reduce signed j := by
  cases signed with
  | false => exact h
  | true =>
      show Int.bmod i width.limit = Int.bmod j width.limit
      rw [← Int.emod_bmod i, h, Int.emod_bmod]

end ByteWidth

/-- A word and the integer it was made of agree in every field. -/
theorem toInt_ofInt_emod (width : ByteWidth) (i : Int) :
    (Int64.ofInt i).toInt % width.limit = i % width.limit := by
  have hdvd : (width.limit : Int) ∣ (Int64.size : Nat) :=
    Int.natCast_dvd_natCast.mpr width.limit_dvd
  rw [Int64.toInt_ofInt, ← Int.emod_emod_of_dvd _ hdvd, Int.bmod_emod, Int.emod_emod_of_dvd _ hdvd]

/-- Read as unsigned, a word is the same number in every field. -/
theorem toNat_toUInt64_emod (width : ByteWidth) (word : Int64) :
    (word.toUInt64.toNat : Int) % width.limit = word.toInt % width.limit := by
  have hdvd : (width.limit : Int) ∣ (UInt64.size : Nat) :=
    Int.natCast_dvd_natCast.mpr width.limit_dvd
  have hword : word.toInt = Int.bmod word.toUInt64.toNat UInt64.size :=
    BitVec.toInt_eq_toNat_bmod word.toBitVec
  rw [hword, ← Int.emod_emod_of_dvd (Int.bmod _ _) hdvd, Int.bmod_emod,
    Int.emod_emod_of_dvd _ hdvd]

/-! ## Fields -/

namespace FixedInt

@[simp] theorem length_encode (order : ByteOrder) (width : ByteWidth) (word : Nat) :
    (encode order width word).length = width.bytes := by
  simp [encode]

theorem reads_decodeUnsigned (order : ByteOrder) (width : ByteWidth) (word : Nat) :
    Read.Reads (decodeUnsigned order width) (encode order width word) (word % width.limit) := by
  have h := (Read.Reads.bytes (length_encode order width word)).map
    fun field => numberOf (order.arrange field)
  rwa [encode, ByteOrder.arrange_arrange, numberOf_lowBytes] at h

theorem delimited_decodeUnsigned (order : ByteOrder) (width : ByteWidth) :
    Read.Delimited (decodeUnsigned order width) :=
  (Read.Delimited.bytes _).map _

theorem decodeUnsigned_lt {order : ByteOrder} {width : ByteWidth} {r r' : Reader} {n : Nat}
    (h : decodeUnsigned order width r = .ok n r') : n < width.limit := by
  obtain ⟨field, r₁, hfield, hn⟩ := bind_eq_ok.mp h
  cases hn
  exact order.numberOf_arrange_lt (Read.length_of_bytes hfield)

/-- Extending a remainder is reducing it to the range of the field. -/
theorem extend_eq {width : ByteWidth} {raw : Nat} (signed : Bool) (h : raw < width.limit) :
    extend width signed raw = Int64.ofInt (width.reduce signed raw) := by
  cases signed with
  | false =>
      have hraw : (raw : Int) % width.limit = raw := Int.emod_eq_of_lt (by omega) (by omega)
      simp only [extend, ByteWidth.reduce, hraw]
  | true => rfl

theorem reads_decode (order : ByteOrder) (width : ByteWidth) (signed : Bool) (word : Int64) :
    Read.Reads (decode order width signed) (encode order width word.toUInt64.toNat)
      (Int64.ofInt (width.reduce signed word.toInt)) := by
  have h := (reads_decodeUnsigned order width word.toUInt64.toNat).map (extend width signed)
  have hcongr : ((word.toUInt64.toNat % width.limit : Nat) : Int) % width.limit
      = word.toInt % width.limit := by
    rw [Int.natCast_emod, Int.emod_emod_of_dvd _ (Int.dvd_refl _), toNat_toUInt64_emod]
  rwa [extend_eq signed (Nat.mod_lt _ width.limit_pos), width.reduce_congr signed hcongr] at h

theorem delimited_decode (order : ByteOrder) (width : ByteWidth) (signed : Bool) :
    Read.Delimited (decode order width signed) :=
  (delimited_decodeUnsigned order width).map _

/-- Writing a word is writing any number congruent to it. -/
theorem encode_congr (order : ByteOrder) {width : ByteWidth} {word : Int64} {n : Nat}
    (h : word.toInt % width.limit = (n : Int) % width.limit) :
    encode order width word.toUInt64.toNat = encode order width n := by
  rw [← toNat_toUInt64_emod, ← Int.natCast_emod, ← Int.natCast_emod, Int.ofNat_inj] at h
  rw [encode, encode, lowBytes_congr h]

/-- A field writes the same of a word and of what it keeps of the word. -/
theorem encode_reduce (order : ByteOrder) (width : ByteWidth) (signed : Bool) (word : Int64) :
    encode order width (Int64.ofInt (width.reduce signed word.toInt)).toUInt64.toNat
      = encode order width word.toUInt64.toNat :=
  encode_congr order (by rw [toInt_ofInt_emod, width.reduce_emod, toNat_toUInt64_emod])

/-- A number comes back from the word it was extended to. -/
theorem encode_extend (order : ByteOrder) {width : ByteWidth} (signed : Bool) {raw : Nat}
    (h : raw < width.limit) :
    encode order width (extend width signed raw).toUInt64.toNat = encode order width raw :=
  encode_congr order (by rw [extend_eq signed h, toInt_ofInt_emod, width.reduce_emod])

/-- A word that was read lies in the range of its field. -/
theorem reduce_of_decode {order : ByteOrder} {width : ByteWidth} {signed : Bool} {r r' : Reader}
    {word : Int64} (h : decode order width signed r = .ok word r') :
    Int64.ofInt (width.reduce signed word.toInt) = word := by
  obtain ⟨raw, r₁, hraw, hword⟩ := bind_eq_ok.mp h
  cases hword
  rw [extend_eq signed (decodeUnsigned_lt hraw)]
  congr 1
  apply width.reduce_congr signed
  rw [toInt_ofInt_emod, width.reduce_emod]

end FixedInt
end PackedRecord
