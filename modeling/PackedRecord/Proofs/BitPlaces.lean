import PackedRecord.Proofs.Sequences

/-!
# Bits by their places

Element `8 * i + j` of an array stands in bit `j` of byte `i`. Reading finds
it there by index (`take_flatMap_unpackByte`), and what writing puts there is
the element, or false where there is none (`testBit_encode`). Both are one fact
about all the bits of some bytes in a row (`getD_flatMap_unpackByte`).

So bytes that are read and written again agree in every bit that holds an
element, and the others, which only the last byte can have, become zero: it
keeps its remainder by the weight of the first unused bit.
-/

namespace PackedRecord.Bits

/-- The bits of some bytes in a row, by their places. -/
theorem getD_flatMap_unpackByte (packed : List UInt8) (k : Nat) :
    (packed.flatMap unpackByte).getD k false = (packed.getD (k / 8) 0).toNat.testBit (k % 8) := by
  induction packed generalizing k with
  | nil => simp
  | cons b rest ih =>
      rw [List.flatMap_cons, List.getD_eq_getElem?_getD]
      rcases Nat.lt_or_ge k 8 with hlt | hge
      · rw [List.getElem?_append_left (by rw [length_unpackByte]; exact hlt),
          Nat.div_eq_of_lt hlt, Nat.mod_eq_of_lt hlt, List.getD_cons_zero, unpackByte,
          List.getElem?_map, List.getElem?_range hlt]
        rfl
      · have hdiv : k / 8 = (k - 8) / 8 + 1 := by omega
        have hmod : k % 8 = (k - 8) % 8 := by omega
        rw [List.getElem?_append_right (by rw [length_unpackByte]; exact hge),
          length_unpackByte, ← List.getD_eq_getElem?_getD, ih, hdiv, hmod, List.getD_cons_succ]

/-- What is read stands in the bytes by index. -/
theorem take_flatMap_unpackByte {count : Nat} {packed : List UInt8}
    (h : packed.length = packedLength count) :
    (packed.flatMap unpackByte).take count
      = (List.range count).map fun k => (packed.getD (k / 8) 0).toNat.testBit (k % 8) := by
  have hlength : ((packed.flatMap unpackByte).take count).length = count := by
    have hle := le_packedLength count
    rw [List.length_take, length_flatMap_unpackByte, h]
    omega
  rw [← exactly_of_length hlength, exactly_eq_map]
  apply List.map_congr_left
  intro k hk
  rw [getD_take, if_pos (List.mem_range.mp hk), getD_flatMap_unpackByte]

/-- What is written, by the places of its bits. -/
theorem testBit_encode (count : Nat) (bits : List Bool) (i : Nat) {j : Nat} (hj : j < 8) :
    ((encode count bits).getD i 0).toNat.testBit j
      = if 8 * i + j < count then bits.getD (8 * i + j) false else false := by
  have hle := le_packedLength count
  have hdiv : (8 * i + j) / 8 = i := by omega
  have hmod : (8 * i + j) % 8 = j := by omega
  have hplace := getD_flatMap_unpackByte (encode count bits) (8 * i + j)
  rw [hdiv, hmod, encode, flatMap_packAfter, getD_exactly, getD_take, getD_take] at hplace
  rw [encode, ← hplace]
  split
  · rfl
  · next hge => rw [if_neg (by omega)]

theorem byte_eq_of_testBit {a b : UInt8}
    (h : ∀ j, j < 8 → a.toNat.testBit j = b.toNat.testBit j) : a = b := by
  have hunpacked : unpackByte a = unpackByte b :=
    List.map_congr_left fun j hj => h j (List.mem_range.mp hj)
  rw [← weigh_unpackByte a, hunpacked, weigh_unpackByte]

/-- The elements read from some bytes are written as these bytes without the
bits that hold none. -/
theorem testBit_encode_take (count : Nat) (packed : List UInt8) (i : Nat) {j : Nat} (hj : j < 8) :
    ((encode count ((packed.flatMap unpackByte).take count)).getD i 0).toNat.testBit j
      = if 8 * i + j < count then (packed.getD i 0).toNat.testBit j else false := by
  have hdiv : (8 * i + j) / 8 = i := by omega
  have hmod : (8 * i + j) % 8 = j := by omega
  rw [testBit_encode _ _ _ hj]
  split
  · next hlt => rw [getD_take, if_pos hlt, getD_flatMap_unpackByte, hdiv, hmod]
  · rfl

/-- Only the last byte has such bits. -/
theorem getElem?_encode_take {count : Nat} {packed : List UInt8}
    (h : packed.length = packedLength count) {i : Nat} {b : UInt8} (hb : packed[i]? = some b) :
    (encode count ((packed.flatMap unpackByte).take count))[i]?
      = some (if i + 1 < packed.length then b else .ofNat (b.toNat % 2 ^ (count - 8 * i))) := by
  obtain ⟨hi, -⟩ := List.getElem?_eq_some_iff.mp hb
  have hcount : packed.length = (count + 7) / 8 := h
  have hwritten : i < (encode count ((packed.flatMap unpackByte).take count)).length := by
    rw [length_encode, ← h]
    exact hi
  have hbits := fun {j} => @testBit_encode_take count packed i j
  rw [List.getD_eq_getElem?_getD, List.getElem?_eq_getElem hwritten, Option.getD_some,
    List.getD_eq_getElem?_getD, hb, Option.getD_some] at hbits
  rw [List.getElem?_eq_getElem hwritten]
  congr 1
  apply byte_eq_of_testBit
  intro j hj
  rw [hbits hj]
  by_cases hinner : i + 1 < packed.length
  · rw [if_pos hinner, if_pos (by omega)]
  · rw [if_neg hinner, testBit_ofNat _ hj, Nat.testBit_mod_two_pow]
    by_cases hused : 8 * i + j < count
    · rw [if_pos hused, decide_eq_true (by omega : j < count - 8 * i), Bool.true_and]
    · rw [if_neg hused, decide_eq_false (by omega : ¬j < count - 8 * i), Bool.false_and]

/-- Bit `j` of byte `i` is element `8 * i + j`, or zero where there is none, and
reading gives the elements back, with false for those that are missing. Any
bytes are read by the same places, and written again they lose the bits of the
last byte that hold no element. -/
theorem encode_bit_by_bit (count : Nat) (bits : List Bool) :
    (encode count bits).length = (count + 7) / 8
      ∧ (∀ i b, (encode count bits)[i]? = some b → ∀ j, j < 8 → b.toNat.testBit j
        = if 8 * i + j < min count bits.length then bits.getD (8 * i + j) false else false)
      ∧ (∀ before behind, ∃ r,
        Reader.start (before ++ (encode count bits ++ behind)) before.length = .ok r
          ∧ decode count r
            = .ok (bits.take count ++ List.replicate (count - bits.length) false)
              ⟨before.length + (count + 7) / 8, behind⟩)
      ∧ ∀ packed, packed.length = (count + 7) / 8 → ∃ read,
        (∀ p behind, decode count ⟨p, packed ++ behind⟩ = .ok read ⟨p + packed.length, behind⟩)
          ∧ read = (List.range count).map (fun k => (packed.getD (k / 8) 0).toNat.testBit (k % 8))
          ∧ (encode count read).length = packed.length
          ∧ ∀ i b, packed[i]? = some b → (encode count read)[i]?
            = some (if i + 1 < packed.length then b
              else .ofNat (b.toNat % 2 ^ (count - 8 * i))) := by
  refine ⟨length_encode count bits, fun i b hb j hj => ?_, fun before behind => ?_,
    fun packed hlength => ?_⟩
  · have hbit := testBit_encode count bits i hj
    rw [List.getD_eq_getElem?_getD, hb, Option.getD_some] at hbit
    rw [hbit]
    by_cases hcount : 8 * i + j < count
    · rw [if_pos hcount]
      by_cases hgiven : 8 * i + j < bits.length
      · rw [if_pos (by omega)]
      · rw [if_neg (by omega), List.getD_eq_getElem?_getD,
          List.getElem?_eq_none (Nat.le_of_not_lt hgiven), Option.getD_none]
    · rw [if_neg hcount, if_neg (by omega)]
  · have hread := reads_decode count bits before.length behind
    rw [length_encode] at hread
    exact ⟨_, Reader.start_append before _, hread⟩
  · refine ⟨_, (Read.Reads.bytes hlength).map fun packed => (packed.flatMap unpackByte).take count,
      take_flatMap_unpackByte hlength, ?_, fun i b hb => getElem?_encode_take hlength hb⟩
    rw [length_encode, hlength]
    rfl

/-- One element of ten: the other places of both bytes are zero. Ten elements of
two full bytes: the second byte keeps two of its bits. -/
theorem encode_bit_by_bit_sample :
    (encode 10 [true])[0]? = some 1 ∧ 3 < 8 ∧ (1 : UInt8).toNat.testBit 3 = false
      ∧ [0xFF, 0xFF].length = (10 + 7) / 8 ∧ ([0xFF, 0xFF] : List UInt8)[1]? = some 0xFF
      ∧ ∃ read, decode 10 ⟨7, [0xFF, 0xFF] ++ [9]⟩ = .ok read ⟨9, [9]⟩
        ∧ (encode 10 read)[1]? = some 3 := by
  obtain ⟨-, hbit, -, hback⟩ := encode_bit_by_bit 10 [true]
  obtain ⟨read, hread, -, -, hwritten⟩ := hback [0xFF, 0xFF] rfl
  exact ⟨by decide, by decide, hbit 0 1 (by decide) 3 (by decide), rfl, rfl, read, hread 7 [9],
    hwritten 1 0xFF rfl⟩

end PackedRecord.Bits
