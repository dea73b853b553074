import Mathlib.Tactic.Ring
import PackedRecord.Bytes.LengthPrefix
import PackedRecord.Proofs.Reading

/-!
# Varints

A varint is closed by the first byte that announces no other one
(`Varint.Closed`), and its groups of seven bits make up a number
(`Varint.groupSum`). The reader's loop carries the weight of the next group and
the sum of those before it. It passes over bytes that announce others as long
as they add up to what 64 bits can hold (`Varint.decodeGroups_opened`), so
closed bytes are read as the number that they make up (`Varint.reads_closed`).
What the writer makes of a number are such bytes, by induction on its groups.

Bytes can begin in three ways: with a varint that fits, with ten bytes that no
varint begins with, or with nothing but bytes that announce another one. What
comes of each is known (`Varint.decode_outcome`), and everything else about the
reader is read off that: what it accepts (`Varint.decode_eq_ok_iff`), what it
reports (`Varint.decode_eq_error_iff`), and that it needs all of a field.

Zigzag is bit arithmetic without carries: each bit of a folded number is a
bit of the number, flipped if the number is negative (`Zigzag.unfold_fold`).
-/

namespace PackedRecord

namespace Varint

/-! ## Length -/

theorem log2_div_group {n : Nat} (h : 0x80 ≤ n) : n.log2 = (n / 0x80).log2 + 7 := by
  have hhigh : n / 0x80 ≠ 0 := by omega
  have hlow := Nat.log2_self_le hhigh
  have hlt : n / 0x80 < 2 ^ ((n / 0x80).log2 + 1) := Nat.lt_log2_self
  rw [Nat.log2_eq_iff (by omega)]
  constructor
  · rw [Nat.pow_add]
    omega
  · rw [show (n / 0x80).log2 + 7 + 1 = (n / 0x80).log2 + 1 + 7 by omega, Nat.pow_add]
    omega

theorem length_encode (n : Nat) : (encode n).length = length n := by
  induction n using Nat.strongRecOn with
  | ind n ih =>
      rw [encode, length]
      split
      · next hlt =>
          have hlog : n.log2 < 7 := by
            by_cases h0 : n = 0
            · rw [h0, Nat.log2_zero]
              decide
            · exact (Nat.log2_lt h0).mpr hlt
          rw [List.length_singleton]
          omega
      · next hle =>
          rw [List.length_cons, ih (n / 0x80) (by omega), length,
            log2_div_group (Nat.le_of_not_lt hle)]
          omega

theorem length_le_maxLength {n : Nat} (h : n < UInt64.size) : length n ≤ maxLength := by
  have hlog : n.log2 < 64 := by
    by_cases h0 : n = 0
    · rw [h0, Nat.log2_zero]
      decide
    · exact (Nat.log2_lt h0).mpr h
  rw [length, maxLength]
  omega

/-! ## Groups -/

/-- The number that groups of seven bits make, lowest first. -/
def groupSum : List UInt8 → Nat
  | [] => 0
  | b :: rest => b.toNat % 0x80 + 0x80 * groupSum rest

/-- Exactly the last byte announces no other one. -/
def Closed (field : List UInt8) : Prop :=
  ∃ opened last, field = opened ++ [last] ∧ (∀ b ∈ opened, 0x80 ≤ b.toNat) ∧ last.toNat < 0x80

theorem Closed.singleton {b : UInt8} (h : b.toNat < 0x80) : Closed [b] :=
  ⟨[], b, rfl, List.forall_mem_nil _, h⟩

theorem Closed.cons {b : UInt8} {field : List UInt8} (hb : 0x80 ≤ b.toNat) (h : Closed field) :
    Closed (b :: field) := by
  obtain ⟨opened, last, rfl, hopened, hlast⟩ := h
  exact ⟨b :: opened, last, rfl, List.forall_mem_cons.mpr ⟨hb, hopened⟩, hlast⟩

theorem groupSum_concat (opened : List UInt8) (last : UInt8) :
    groupSum (opened ++ [last]) = groupSum opened + last.toNat % 0x80 * 0x80 ^ opened.length := by
  induction opened with
  | nil => simp [groupSum]
  | cons b opened ih =>
      rw [List.cons_append, groupSum, ih, groupSum, List.length_cons]
      ring

theorem groupSum_lt (bytes : List UInt8) : groupSum bytes < 0x80 ^ bytes.length := by
  induction bytes with
  | nil => simp [groupSum]
  | cons b rest ih =>
      rw [groupSum, List.length_cons, Nat.pow_succ]
      omega

/-! ## The groups of a number -/

theorem toNat_lastByte {n : Nat} (h : n < 0x80) : (UInt8.ofNat n).toNat = n := by
  rw [UInt8.toNat_ofNat']
  omega

theorem toNat_openByte (n : Nat) : (UInt8.ofNat (n % 0x80 + 0x80)).toNat = n % 0x80 + 0x80 := by
  rw [UInt8.toNat_ofNat']
  omega

theorem groupSum_encode (n : Nat) : groupSum (encode n) = n := by
  fun_induction encode n with
  | case1 n h =>
      rw [groupSum, groupSum, toNat_lastByte h]
      omega
  | case2 n h ih =>
      rw [groupSum, ih, toNat_openByte]
      omega

theorem closed_encode (n : Nat) : Closed (encode n) := by
  fun_induction encode n with
  | case1 n h => exact .singleton ((toNat_lastByte h).trans_lt h)
  | case2 n h ih => exact ih.cons (by rw [toNat_openByte]; omega)

/-! ## Reading groups -/

theorem decodeGroups_byte (start groups weight value p : Nat) (b : UInt8) (rest : List UInt8) :
    decodeGroups start (groups + 1) weight value ⟨p, b :: rest⟩
      = if UInt64.size ≤ value + b.toNat % 0x80 * weight then
          .error (.varintOverflow start) ⟨p + 1, rest⟩
        else if b.toNat < 0x80 then .ok (value + b.toNat % 0x80 * weight) ⟨p + 1, rest⟩
        else decodeGroups start groups (weight * 0x80) (value + b.toNat % 0x80 * weight)
          ⟨p + 1, rest⟩ := by
  have hbyte : Read.byte ⟨p, b :: rest⟩ = .ok b ⟨p + 1, rest⟩ := rfl
  rw [decodeGroups, bind_of_ok hbyte]
  split
  · rfl
  · split <;> rfl

/-- Bytes that announce another one are passed over as long as they add up. -/
theorem decodeGroups_opened (start groups : Nat) : ∀ {opened : List UInt8} {weight value : Nat}
    (p : Nat) (rest : List UInt8), (∀ b ∈ opened, 0x80 ≤ b.toNat) →
    value + groupSum opened * weight < UInt64.size →
    decodeGroups start (groups + opened.length) weight value ⟨p, opened ++ rest⟩
      = decodeGroups start groups (weight * 0x80 ^ opened.length)
        (value + groupSum opened * weight) ⟨p + opened.length, rest⟩
  | [], weight, value, p, rest, _, _ => by simp [groupSum]
  | b :: opened, weight, value, p, rest, hopened, hfits => by
      obtain ⟨hb, hopened⟩ := List.forall_mem_cons.mp hopened
      have hsum : value + groupSum (b :: opened) * weight
          = value + b.toNat % 0x80 * weight + groupSum opened * (weight * 0x80) := by
        rw [groupSum]
        ring
      have hweight :
          weight * 0x80 ^ (opened.length + 1) = weight * 0x80 * 0x80 ^ opened.length := by
        ring
      rw [hsum] at hfits ⊢
      have hnext : ¬UInt64.size ≤ value + b.toNat % 0x80 * weight := by omega
      rw [List.length_cons, ← Nat.add_assoc, List.cons_append, decodeGroups_byte, if_neg hnext,
        if_neg (Nat.not_lt.mpr hb), decodeGroups_opened start groups (p + 1) rest hopened hfits,
        hweight, Nat.add_assoc p, Nat.add_comm 1]

theorem decode_opened {opened : List UInt8} (hopened : ∀ b ∈ opened, 0x80 ≤ b.toNat)
    (hlength : opened.length < maxLength) (p : Nat) (rest : List UInt8) :
    decode ⟨p, opened ++ rest⟩
      = decodeGroups p (maxLength - opened.length) (0x80 ^ opened.length) (groupSum opened)
        ⟨p + opened.length, rest⟩ := by
  have hpow : 0x80 ^ opened.length ≤ 0x80 ^ 9 :=
    Nat.pow_le_pow_right (by decide) (Nat.le_of_lt_succ hlength)
  have hlt : groupSum opened < UInt64.size :=
    (groupSum_lt opened).trans_le (hpow.trans (by decide))
  have hgroups : maxLength - opened.length + opened.length = maxLength := by omega
  have hpassed :=
    @decodeGroups_opened p (maxLength - opened.length) opened 1 0 p rest hopened (by omega)
  rw [hgroups, Nat.one_mul, Nat.mul_one, Nat.zero_add] at hpassed
  exact hpassed

/-- A number is read from any bytes that spell it, if it fits. -/
theorem reads_closed {field : List UInt8} (h : Closed field) (hlength : field.length ≤ maxLength)
    (hfits : groupSum field < UInt64.size) : Read.Reads decode field (groupSum field) := by
  obtain ⟨opened, last, rfl, hopened, hlast⟩ := h
  rw [List.length_append, List.length_singleton] at hlength
  have hgroups : maxLength - opened.length = maxLength - opened.length - 1 + 1 := by omega
  intro p rest
  rw [List.append_assoc, List.singleton_append, decode_opened hopened (by omega), hgroups,
    decodeGroups_byte, ← groupSum_concat, if_neg (Nat.not_le.mpr hfits), if_pos hlast,
    List.length_append, List.length_singleton, Nat.add_assoc]

theorem reads_decode {n : Nat} (h : n < UInt64.size) : Read.Reads decode (encode n) n := by
  have hlength : (encode n).length ≤ maxLength := length_encode n ▸ length_le_maxLength h
  have hsum := groupSum_encode n
  have hreads := reads_closed (closed_encode n) hlength (hsum.symm ▸ h)
  rwa [hsum] at hreads

/-! ## Reading anything -/

theorem decode_overflow {opened : List UInt8} {last : UInt8}
    (hopened : ∀ b ∈ opened, 0x80 ≤ b.toNat) (hlength : opened.length = 9) (hlast : 1 < last.toNat)
    (p : Nat) (rest : List UInt8) :
    decode ⟨p, opened ++ last :: rest⟩ = .error (.varintOverflow p) ⟨p + 10, rest⟩ := by
  rw [decode_opened hopened (by rw [hlength]; decide), hlength]
  refine (decodeGroups_byte p 0 _ _ (p + 9) last rest).trans ?_
  split
  · rfl
  · next hfits =>
      have hsize : UInt64.size = 2 * 0x80 ^ 9 := by decide
      have hmore : ¬last.toNat < 0x80 := by
        intro hlt
        rw [Nat.mod_eq_of_lt hlt] at hfits
        have hle : 2 * 0x80 ^ 9 ≤ last.toNat * 0x80 ^ 9 := Nat.mul_le_mul_right _ hlast
        omega
      rw [if_neg hmore]
      rfl

theorem decode_cutShort {bytes : List UInt8} (hopened : ∀ b ∈ bytes, 0x80 ≤ b.toNat)
    (hlength : bytes.length < maxLength) (p : Nat) :
    decode ⟨p, bytes⟩
      = .error (.unexpectedEnd (p + bytes.length) 1 0) ⟨p + bytes.length, []⟩ := by
  have hopened := decode_opened hopened hlength p []
  have hgroups : maxLength - bytes.length = maxLength - bytes.length - 1 + 1 := by omega
  rw [List.append_nil, hgroups] at hopened
  exact hopened

/-- The bytes up to the first that announces no other one, or up to a limit. -/
theorem exists_opened : ∀ (limit : Nat) (bytes : List UInt8),
    ∃ opened rest, bytes = opened ++ rest ∧ (∀ b ∈ opened, 0x80 ≤ b.toNat)
      ∧ opened.length ≤ limit
      ∧ ∀ b ∈ rest.head?, b.toNat < 0x80 ∨ opened.length = limit
  | 0, bytes => ⟨[], bytes, rfl, List.forall_mem_nil _, Nat.le_refl 0, fun _ _ => Or.inr rfl⟩
  | limit + 1, [] => ⟨[], [], rfl, List.forall_mem_nil _, Nat.zero_le _, fun _ h => nomatch h⟩
  | limit + 1, b :: bytes => by
      by_cases hb : 0x80 ≤ b.toNat
      · obtain ⟨opened, rest, rfl, hopened, hle, hstop⟩ := exists_opened limit bytes
        exact ⟨b :: opened, rest, rfl, List.forall_mem_cons.mpr ⟨hb, hopened⟩,
          Nat.succ_le_succ hle, fun c hc => (hstop c hc).imp_right (congrArg (· + 1))⟩
      · refine ⟨[], b :: bytes, rfl, List.forall_mem_nil _, Nat.zero_le _, fun c hc => ?_⟩
        obtain rfl : b = c := Option.some.inj hc
        exact Or.inl (Nat.lt_of_not_le hb)

/-- Nine groups always fit, a tenth if it is a single bit. -/
theorem groupSum_concat_fits {opened : List UInt8} {last : UInt8}
    (h : opened.length < 9 ∨ opened.length = 9 ∧ last.toNat ≤ 1) :
    groupSum (opened ++ [last]) < UInt64.size := by
  have hsize : UInt64.size = 2 * 0x80 ^ 9 := by decide
  rcases h with hshort | ⟨hlength, hlast⟩
  · have hlt := groupSum_lt (opened ++ [last])
    have hpow : 0x80 ^ (opened ++ [last]).length ≤ 0x80 ^ 9 :=
      Nat.pow_le_pow_right (by decide) (by rw [List.length_append]; exact hshort)
    omega
  · have hlt := groupSum_lt opened
    have hle : last.toNat * 0x80 ^ 9 ≤ 1 * 0x80 ^ 9 := Nat.mul_le_mul_right _ hlast
    rw [hlength] at hlt
    rw [groupSum_concat, hlength, Nat.mod_eq_of_lt (by omega)]
    omega

/-- What stands at the beginning of the bytes, and what comes of it. -/
theorem decode_outcome (p : Nat) (bytes : List UInt8) :
    (∃ field rest, bytes = field ++ rest ∧ Closed field ∧ field.length ≤ maxLength
        ∧ groupSum field < UInt64.size
        ∧ decode ⟨p, bytes⟩ = .ok (groupSum field) ⟨p + field.length, rest⟩)
      ∨ (∃ opened last rest, bytes = opened ++ last :: rest ∧ (∀ b ∈ opened, 0x80 ≤ b.toNat)
        ∧ opened.length = 9 ∧ 1 < last.toNat
        ∧ decode ⟨p, bytes⟩ = .error (.varintOverflow p) ⟨p + 10, rest⟩)
      ∨ ((∀ b ∈ bytes, 0x80 ≤ b.toNat) ∧ bytes.length < maxLength
        ∧ decode ⟨p, bytes⟩
          = .error (.unexpectedEnd (p + bytes.length) 1 0) ⟨p + bytes.length, []⟩) := by
  obtain ⟨opened, rest, rfl, hopened, hle, hstop⟩ := exists_opened 9 bytes
  cases rest with
  | nil =>
      rw [List.append_nil]
      have hlength : opened.length < maxLength := Nat.lt_succ_of_le hle
      exact Or.inr (Or.inr ⟨hopened, hlength, decode_cutShort hopened hlength p⟩)
  | cons last rest =>
      have hstop := hstop last rfl
      by_cases hover : opened.length = 9 ∧ 1 < last.toNat
      · exact Or.inr (Or.inl ⟨opened, last, rest, rfl, hopened, hover.1, hover.2,
          decode_overflow hopened hover.1 hover.2 p rest⟩)
      · have hclosed : Closed (opened ++ [last]) := ⟨opened, last, rfl, hopened, by omega⟩
        have hlength : (opened ++ [last]).length ≤ maxLength := by
          rw [List.length_append]
          exact Nat.succ_le_succ hle
        have hfits : groupSum (opened ++ [last]) < UInt64.size :=
          groupSum_concat_fits (by omega)
        have hreads := reads_closed hclosed hlength hfits p rest
        rw [List.append_assoc, List.singleton_append] at hreads
        exact Or.inl ⟨opened ++ [last], rest, by simp, hclosed, hlength, hfits, hreads⟩

theorem decode_eq_ok_iff {p n : Nat} {bytes : List UInt8} {r : Reader} :
    decode ⟨p, bytes⟩ = .ok n r ↔
      ∃ field, bytes = field ++ r.rest ∧ r.position = p + field.length ∧ field.length ≤ maxLength
        ∧ Closed field ∧ groupSum field = n ∧ n < UInt64.size := by
  constructor
  · intro h
    rcases decode_outcome p bytes with ⟨field, rest, hsplit, hclosed, hlength, hfits, hread⟩ |
      ⟨_, _, _, -, -, -, -, hread⟩ | ⟨-, -, hread⟩
    · cases hread.symm.trans h
      exact ⟨field, hsplit, rfl, hlength, hclosed, rfl, hfits⟩
    · cases hread.symm.trans h
    · cases hread.symm.trans h
  · obtain ⟨position, rest⟩ := r
    rintro ⟨field, rfl, hposition, hlength, hclosed, rfl, hfits⟩
    obtain rfl : position = p + field.length := hposition
    exact reads_closed hclosed hlength hfits p rest

theorem decode_eq_error_iff {p : Nat} {bytes : List UInt8} {err : Error} {r : Reader} :
    decode ⟨p, bytes⟩ = .error err r ↔
      (err = .varintOverflow p ∧ ∃ opened last, bytes = opened ++ last :: r.rest
        ∧ r.position = p + 10 ∧ opened.length = 9 ∧ (∀ b ∈ opened, 0x80 ≤ b.toNat)
        ∧ 1 < last.toNat)
      ∨ (err = .unexpectedEnd (p + bytes.length) 1 0 ∧ r = ⟨p + bytes.length, []⟩
        ∧ bytes.length < maxLength ∧ ∀ b ∈ bytes, 0x80 ≤ b.toNat) := by
  constructor
  · intro h
    rcases decode_outcome p bytes with ⟨_, _, -, -, -, -, hread⟩ |
      ⟨opened, last, rest, hsplit, hopened, hlength, hlast, hread⟩ | ⟨hopened, hlength, hread⟩
    · cases hread.symm.trans h
    · cases hread.symm.trans h
      exact Or.inl ⟨rfl, opened, last, hsplit, rfl, hlength, hopened, hlast⟩
    · cases hread.symm.trans h
      exact Or.inr ⟨rfl, rfl, hlength, hopened⟩
  · rintro (⟨rfl, opened, last, rfl, hposition, hlength, hopened, hlast⟩ |
      ⟨rfl, rfl, hlength, hopened⟩)
    · obtain ⟨position, rest⟩ := r
      obtain rfl : position = p + 10 := hposition
      exact decode_overflow hopened hlength hlast p rest
    · exact decode_cutShort hopened hlength p

theorem delimited_decode : Read.Delimited decode := by
  rintro ⟨p, bytes⟩ r' n h
  obtain ⟨field, hsplit, hposition, hlength, hclosed, rfl, hfits⟩ := decode_eq_ok_iff.mp h
  refine ⟨field, hsplit, hposition, reads_closed hclosed hlength hfits, ?_⟩
  intro q begun missing hmissing hne
  -- What is missing includes the last byte, so all that is there announce another one.
  obtain ⟨opened, last, rfl, hopened, -⟩ := hclosed
  obtain ⟨init, final, rfl⟩ := (List.eq_nil_or_concat missing).resolve_left hne
  rw [List.concat_eq_append, ← List.append_assoc] at hmissing
  obtain ⟨rfl, -⟩ := List.append_inj' hmissing rfl
  have hbegun : ∀ b ∈ begun, 0x80 ≤ b.toNat := fun b hb => hopened b (List.mem_append_left _ hb)
  have hshort : begun.length < maxLength := by
    rw [List.length_append, List.length_append, List.length_singleton] at hlength
    omega
  exact ⟨_, _, decode_cutShort hbegun hshort q, rfl⟩

theorem decode_lt {n : Nat} {r r' : Reader} (h : decode r = .ok n r') : n < UInt64.size := by
  obtain ⟨field, -, -, -, -, -, hfits⟩ := decode_eq_ok_iff.mp h
  exact hfits

end Varint

namespace Zigzag

/-! ## Signed numbers -/

/-- Shifting the sign all the way down copies it to every bit. -/
theorem getElem_sign (x : BitVec 64) {i : Nat} (hi : i < 64) :
    (x.sshiftRight 63)[i] = x.msb := by
  rw [BitVec.getElem_sshiftRight]
  split
  · have h0 : i = 0 := by omega
    subst h0
    exact (BitVec.msb_eq_getLsbD_last x).symm
  · rfl

/-- Negating the lowest bit copies it to every bit. -/
theorem getElem_neg_lowest (y : BitVec 64) {i : Nat} (hi : i < 64) :
    (-(y &&& 1#64))[i] = y[0] := by
  have hand : y &&& 1#64 = if y[0] then 1#64 else 0#64 := by
    ext j hj
    cases j with
    | zero => cases h : y[0] <;> simp [h]
    | succ j => cases h : y[0] <;> simp
  rw [hand]
  cases y[0] with
  | false => simp
  | true =>
      have hall : -1#64 = BitVec.allOnes 64 := by decide
      simp only [if_true, hall, BitVec.getElem_allOnes]

theorem unfold_fold (n : Int64) : unfold (fold n) = n := by
  apply Int64.toBitVec_inj.mp
  show ((n.toBitVec <<< 1 ^^^ n.toBitVec.sshiftRight 63) >>> 1)
    ^^^ -((n.toBitVec <<< 1 ^^^ n.toBitVec.sshiftRight 63) &&& 1#64) = n.toBitVec
  generalize n.toBitVec = x
  ext i hi
  rw [BitVec.getElem_xor, getElem_neg_lowest, BitVec.getElem_xor, getElem_sign,
    BitVec.getElem_ushiftRight]
  by_cases hlast : i = 63
  · subst hlast
    simp [BitVec.msb_eq_getLsbD_last]
  · have hi' : 1 + i < 64 := by omega
    simp [BitVec.getLsbD_eq_getElem hi', getElem_sign]

theorem reads_decode (n : Int64) : Read.Reads decode (encode n) n := by
  have h := (Varint.reads_decode (fold n).toNat_lt).map fun raw => unfold (UInt64.ofNat raw)
  rwa [UInt64.ofNat_toNat, unfold_fold] at h

theorem delimited_decode : Read.Delimited decode :=
  Varint.delimited_decode.map _

end Zigzag
end PackedRecord
