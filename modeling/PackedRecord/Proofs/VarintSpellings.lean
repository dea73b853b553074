import Mathlib.Algebra.BigOperators.Ring.Finset
import PackedRecord.Proofs.Varints

/-!
# All spellings of a varint

A number has more than one spelling, as groups of zeros may follow the highest
one. The spelling without them is the one that is written, and it is shorter
than all the others (`Varint.eq_encode_or_longer`). Folding loses nothing in
either direction, so the same goes for signed numbers; as integers, those from
zero up are doubled and the others fill the gaps (`Zigzag.toInt_toNat_fold`).
-/

namespace PackedRecord

/-- The reading yields `a` for the field, and for any other one only if that
has more bytes. -/
structure Read.Shortest {α : Type} (x : Read α) (a : α) (field : List UInt8) : Prop where
  reads : Reads x field a
  shorter : ∀ ⦃r r' : Reader⦄ ⦃other : List UInt8⦄, x r = .ok a r' → r.rest = other ++ r'.rest →
    other = field ∨ field.length < other.length

namespace Varint

theorem groupSum_eq_sum (bytes : List UInt8) :
    groupSum bytes
      = ∑ i ∈ Finset.range bytes.length, (bytes.getD i 0).toNat % 0x80 * 0x80 ^ i := by
  induction bytes with
  | nil => rfl
  | cons b rest ih =>
      rw [groupSum, ih, List.length_cons, Finset.sum_range_succ', Finset.mul_sum, Nat.add_comm]
      congr 1
      · refine Finset.sum_congr rfl fun i _ => ?_
        rw [List.getD_cons_succ]
        ring
      · rw [List.getD_cons_zero, Nat.pow_zero, Nat.mul_one]

/-! ## The shortest spelling -/

theorem encode_of_open {b : UInt8} {n : Nat} (hb : 0x80 ≤ b.toNat) (hn : n ≠ 0) :
    encode (b.toNat % 0x80 + 0x80 * n) = b :: encode n := by
  have hlt := b.toNat_lt
  have hbyte : UInt8.ofNat ((b.toNat % 0x80 + 0x80 * n) % 0x80 + 0x80) = b := by
    rw [show (b.toNat % 0x80 + 0x80 * n) % 0x80 + 0x80 = b.toNat by omega, UInt8.ofNat_toNat]
  rw [encode, if_neg (by omega), hbyte, show (b.toNat % 0x80 + 0x80 * n) / 0x80 = n by omega]

theorem eq_encode_or_longer {opened : List UInt8} {last : UInt8}
    (hopened : ∀ b ∈ opened, 0x80 ≤ b.toNat) (hlast : last.toNat < 0x80) :
    opened ++ [last] = encode (groupSum (opened ++ [last]))
      ∨ (encode (groupSum (opened ++ [last]))).length < (opened ++ [last]).length := by
  induction opened with
  | nil =>
      have hsum : groupSum [last] = last.toNat := by
        rw [groupSum, groupSum]
        omega
      rw [List.nil_append, hsum, encode, if_pos hlast, UInt8.ofNat_toNat]
      exact Or.inl rfl
  | cons b opened ih =>
      obtain ⟨hb, hopened⟩ := List.forall_mem_cons.mp hopened
      rw [List.cons_append, groupSum]
      by_cases hzero : groupSum (opened ++ [last]) = 0
      · -- A group of zeros at the end could have been left out.
        rw [hzero, encode, if_pos (by omega)]
        exact Or.inr (by simp)
      · rw [encode_of_open hb hzero]
        exact (ih hopened).imp (congrArg (b :: ·)) Nat.succ_lt_succ

theorem shortest_encode {n : Nat} (h : n < UInt64.size) : decode.Shortest n (encode n) := by
  refine ⟨reads_decode h, ?_⟩
  rintro ⟨p, bytes⟩ r' other hread rfl
  obtain ⟨field, hsplit, -, -, ⟨opened, last, rfl, hopened, hlast⟩, rfl, -⟩ :=
    decode_eq_ok_iff.mp hread
  rw [List.append_cancel_right hsplit]
  exact eq_encode_or_longer hopened hlast

end Varint

namespace Zigzag

/-! ## Signed numbers -/

theorem toBitVec_fold (n : Int64) :
    (fold n).toBitVec = n.toBitVec <<< 1 ^^^ n.toBitVec.sshiftRight 63 := rfl

theorem toBitVec_unfold (raw : UInt64) :
    (unfold raw).toBitVec = (raw.toBitVec >>> 1) ^^^ -(raw.toBitVec &&& 1#64) := rfl

theorem fold_unfold (raw : UInt64) : fold (unfold raw) = raw := by
  apply UInt64.toBitVec_inj.mp
  rw [toBitVec_fold, toBitVec_unfold]
  generalize raw.toBitVec = x
  have hbit : ∀ i, (hi : i < 64) →
      ((x >>> 1) ^^^ -(x &&& 1#64))[i] = (x.getLsbD (1 + i) ^^ x[0]) := by
    intro i hi
    rw [BitVec.getElem_xor, getElem_neg_lowest, BitVec.getElem_ushiftRight]
  have hsign : ((x >>> 1) ^^^ -(x &&& 1#64)).msb = x[0] := by
    rw [BitVec.msb_eq_getLsbD_last, BitVec.getLsbD_eq_getElem (by decide), hbit 63 (by decide)]
    simp
  ext i hi
  rw [BitVec.getElem_xor, getElem_sign _ hi, hsign]
  cases i with
  | zero => simp
  | succ i => simp [BitVec.getElem_shiftLeft, hbit i (by omega), Nat.add_comm 1 i, hi]

theorem sshiftRight_sign (x : BitVec 64) :
    x.sshiftRight 63 = if x.msb then BitVec.allOnes 64 else 0#64 := by
  ext i hi
  rw [getElem_sign x hi]
  cases x.msb with
  | false => simp
  | true => exact (BitVec.getElem_allOnes i hi).symm

theorem toInt_toNat_fold (n : Int64) :
    ((fold n).toNat : Int) = if 0 ≤ n.toInt then 2 * n.toInt else -2 * n.toInt - 1 := by
  show ((fold n).toBitVec.toNat : Int)
    = if 0 ≤ n.toBitVec.toInt then 2 * n.toBitVec.toInt else -2 * n.toBitVec.toInt - 1
  rw [toBitVec_fold, sshiftRight_sign]
  generalize n.toBitVec = x
  have hlt := x.isLt
  have hmsb := x.msb_eq_decide
  have hint := x.toInt_eq_msb_cond
  cases hsign : x.msb with
  | false =>
      rw [hsign] at hmsb hint
      have hsmall : ¬2 ^ (64 - 1) ≤ x.toNat := of_decide_eq_false hmsb.symm
      rw [if_neg Bool.false_ne_true] at hint ⊢
      rw [BitVec.xor_zero, BitVec.toNat_shiftLeft, Nat.shiftLeft_eq]
      omega
  | true =>
      rw [hsign] at hmsb hint
      have hlarge : 2 ^ (64 - 1) ≤ x.toNat := of_decide_eq_true hmsb.symm
      rw [if_pos rfl] at hint ⊢
      rw [BitVec.xor_allOnes, BitVec.toNat_not, BitVec.toNat_shiftLeft, Nat.shiftLeft_eq]
      omega

/-- Folding and then taking groups loses nothing, so the shortest spelling is the same. -/
theorem shortest_encode (n : Int64) : decode.Shortest n (encode n) := by
  refine ⟨reads_decode n, ?_⟩
  intro r r' other hread hsplit
  obtain ⟨raw, r₁, hraw, hpure⟩ := bind_eq_ok.mp hread
  cases hpure
  have hlt := Varint.decode_lt hraw
  have hfold : (fold (unfold (.ofNat raw))).toNat = raw := by
    rw [fold_unfold, UInt64.toNat_ofNat', Nat.mod_eq_of_lt hlt]
  rw [encode, hfold]
  exact (Varint.shortest_encode hlt).shorter hraw hsplit

theorem length_encode (n : Int64) : (encode n).length = length n :=
  Varint.length_encode (fold n).toNat

end Zigzag

namespace Varint

/-- Exactly the varints that fit are read, anything else is too long or cut
short, and what is written is the shortest of the varints of a number. -/
theorem decode_exactly_encode_shortest {data : List UInt8} {p : Nat} (hp : p ≤ data.length) :
    (∀ n r, decode ⟨p, data.drop p⟩ = .ok n r ↔
        ∃ opened last, data.drop p = opened ++ last :: r.rest
          ∧ r.position = p + (opened.length + 1) ∧ opened.length + 1 ≤ 10
          ∧ (∀ b ∈ opened, 0x80 ≤ b.toNat) ∧ last.toNat < 0x80
          ∧ (∑ i ∈ Finset.range (opened.length + 1),
            ((opened ++ [last]).getD i 0).toNat % 0x80 * 0x80 ^ i) = n
          ∧ n < UInt64.size)
      ∧ (∀ err r, decode ⟨p, data.drop p⟩ = .error err r ↔
        (err = .varintOverflow p ∧ ∃ opened last, data.drop p = opened ++ last :: r.rest
          ∧ r.position = p + 10 ∧ opened.length = 9 ∧ (∀ b ∈ opened, 0x80 ≤ b.toNat)
          ∧ 1 < last.toNat)
        ∨ (err = .unexpectedEnd data.length 1 0 ∧ r = ⟨data.length, []⟩
          ∧ data.length - p < 10 ∧ ∀ b ∈ data.drop p, 0x80 ≤ b.toNat))
      ∧ (∀ n : UInt64, decode.Shortest n.toNat (encode n.toNat)
        ∧ (encode n.toNat).length = length n.toNat)
      ∧ (∀ n : Int64, Zigzag.decode.Shortest n (Zigzag.encode n)
        ∧ (Zigzag.encode n).length = Zigzag.length n)
      ∧ (∀ n : Int64, Zigzag.unfold (Zigzag.fold n) = n
        ∧ ((Zigzag.fold n).toNat : Int) = if 0 ≤ n.toInt then 2 * n.toInt else -2 * n.toInt - 1)
      ∧ ∀ raw : UInt64, Zigzag.fold (Zigzag.unfold raw) = raw := by
  have hend : p + (data.drop p).length = data.length := by
    rw [List.length_drop]
    omega
  refine ⟨fun n r => ?_, fun err r => ?_, fun n => ⟨shortest_encode n.toNat_lt, length_encode _⟩,
    fun n => ⟨Zigzag.shortest_encode n, Zigzag.length_encode n⟩,
    fun n => ⟨Zigzag.unfold_fold n, Zigzag.toInt_toNat_fold n⟩, Zigzag.fold_unfold⟩
  · rw [decode_eq_ok_iff]
    constructor
    · rintro ⟨_, hsplit, hposition, hlength, ⟨opened, last, rfl, hopened, hlast⟩, hsum, hfits⟩
      rw [List.length_append, List.length_singleton] at hposition hlength
      rw [groupSum_eq_sum, List.length_append, List.length_singleton] at hsum
      rw [List.append_assoc] at hsplit
      exact ⟨opened, last, hsplit, hposition, hlength, hopened, hlast, hsum, hfits⟩
    · rintro ⟨opened, last, hsplit, hposition, hlength, hopened, hlast, hsum, hfits⟩
      have hcount : (opened ++ [last]).length = opened.length + 1 := by simp
      refine ⟨opened ++ [last], ?_, hcount ▸ hposition, hcount.trans_le hlength,
        ⟨opened, last, rfl, hopened, hlast⟩, ?_, hfits⟩
      · rw [hsplit, List.append_assoc]
        rfl
      · rw [groupSum_eq_sum, hcount, hsum]
  · rw [decode_eq_error_iff, hend, List.length_drop]
    rfl

/-- A number in four bytes where two would do, the same number cut, ten bytes for
more than 64 bits, and a negative number. -/
theorem decode_exactly_encode_shortest_sample :
    decode ⟨1, [0xAC, 0x82, 0x80, 0x00, 9]⟩ = .ok 300 ⟨5, [9]⟩
      ∧ decode ⟨1, [0xAC, 0x82, 0x80]⟩ = .error (.unexpectedEnd 4 1 0) ⟨4, []⟩
      ∧ decode ⟨1, List.replicate 9 0xFF ++ [2, 9]⟩ = .error (.varintOverflow 1) ⟨11, [9]⟩
      ∧ Zigzag.decode.Shortest (-151) [0xAD, 0x02] := by
  obtain ⟨hlong, -⟩ :=
    @decode_exactly_encode_shortest [7, 0xAC, 0x82, 0x80, 0x00, 9] 1 (by decide)
  obtain ⟨-, hcut, -⟩ := @decode_exactly_encode_shortest [7, 0xAC, 0x82, 0x80] 1 (by decide)
  obtain ⟨-, hover, -, hsigned, -⟩ :=
    @decode_exactly_encode_shortest (7 :: List.replicate 9 0xFF ++ [2, 9]) 1 (by decide)
  have hencode : Zigzag.encode (-151) = [0xAD, 0x02] := by decide +kernel
  refine ⟨(hlong _ _).mpr ⟨[0xAC, 0x82, 0x80], 0, rfl, rfl, ?_⟩,
    (hcut _ _).mpr (Or.inr ⟨rfl, rfl, ?_⟩),
    (hover _ _).mpr (Or.inl ⟨rfl, List.replicate 9 0xFF, 2, rfl, rfl, ?_⟩),
    hencode ▸ (hsigned (-151)).1⟩ <;> decide +kernel

end Varint
end PackedRecord
