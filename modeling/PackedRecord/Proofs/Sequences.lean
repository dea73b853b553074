import PackedRecord.Proofs.FixedIntegers
import PackedRecord.Proofs.Varints

/-!
# Lengths, blobs and bit arrays

A counted field is a length and what it counts, and the two readings follow
one another; all that is special is that a length has to fit its field
(`LengthPrefix.check`). Reading back a length that was written needs the
check to have passed, and conversely every length that is read passes it
(`LengthPrefix.check_of_decode`), so what was read can be written again.

A field of a given size keeps exactly that many elements, `exactly`, which
is best looked at from the index: the element at `i` is that of the list,
or the filling (`exactly_eq_map`). Bit arrays are compared that way
throughout, and bytes through the bits of their number (`Bits.testBit_weigh`).
-/

namespace PackedRecord

/-! ## Lists of an exact length -/

section
variable {α : Type}

theorem exactly_eq_map (size : Nat) (filling : α) (items : List α) :
    exactly size filling items = (List.range size).map fun i => items.getD i filling := by
  apply List.ext_getElem
  · simp
  · intro i hi _
    rw [length_exactly] at hi
    simp only [exactly, List.getElem_append, List.length_take, List.getElem_map,
      List.getElem_range, List.getD_eq_getElem?_getD]
    split
    · next hlt => simp [List.getElem?_eq_getElem (show i < items.length by omega)]
    · next hge => simp [List.getElem?_eq_none (show items.length ≤ i by omega)]

theorem exactly_of_length {size : Nat} {filling : α} {items : List α} (h : items.length = size) :
    exactly size filling items = items := by
  subst h
  simp [exactly]

@[simp] theorem exactly_exactly (size : Nat) (filling : α) (items : List α) :
    exactly size filling (exactly size filling items) = exactly size filling items :=
  exactly_of_length (length_exactly size filling items)

theorem take_exactly {k size : Nat} (h : k ≤ size) (filling : α) (items : List α) :
    (exactly size filling items).take k = exactly k filling items := by
  rw [exactly_eq_map, exactly_eq_map, ← List.map_take, List.take_range, Nat.min_eq_left h]

theorem getD_take (n i : Nat) (filling : α) (items : List α) :
    (items.take n).getD i filling = if i < n then items.getD i filling else filling := by
  simp only [List.getD_eq_getElem?_getD, List.getElem?_take]
  split <;> rfl

theorem getD_drop (n i : Nat) (filling : α) (items : List α) :
    (items.drop n).getD i filling = items.getD (n + i) filling := by
  simp only [List.getD_eq_getElem?_getD, List.getElem?_drop]

theorem getD_exactly (size i : Nat) (filling : α) (items : List α) :
    (exactly size filling items).getD i filling = (items.take size).getD i filling := by
  rw [getD_take, exactly_eq_map]
  simp only [List.getD_eq_getElem?_getD, List.getElem?_map]
  split
  · next hlt => simp [List.getElem?_range hlt]
  · next hge => simp [List.getElem?_eq_none (show (List.range size).length ≤ i by simp; omega)]

/-- A last element that is the filling makes no difference. -/
theorem exactly_concat_filling (size : Nat) (filling : α) (items : List α) :
    exactly size filling (items ++ [filling]) = exactly size filling items := by
  rw [exactly_eq_map, exactly_eq_map]
  apply List.map_congr_left
  intro i _
  simp only [List.getD_eq_getElem?_getD, List.getElem?_append]
  split
  · rfl
  · next hge =>
      rw [List.getElem?_eq_none (Nat.le_of_not_lt hge)]
      cases i - items.length <;> rfl

/-- The first elements are those of the list cut there, the others those of the rest. -/
theorem exactly_add (a b : Nat) (filling : α) (items : List α) :
    exactly (a + b) filling items
      = exactly a filling (items.take a) ++ exactly b filling (items.drop a) := by
  simp only [exactly_eq_map, List.range_add, List.map_append, List.map_map]
  congr 1
  · apply List.map_congr_left
    intro i hi
    rw [getD_take, if_pos (List.mem_range.mp hi)]
  · apply List.map_congr_left
    intro i _
    exact (getD_drop a i filling items).symm

end

/-! ## Lengths -/

namespace LengthPrefix

/-- The bytes of a length that fits. -/
def field (p : LengthPrefix) (order : ByteOrder) (length : Nat) : List UInt8 :=
  match p with
  | .varint => Varint.encode length
  | .fixed width => FixedInt.encode order width length

theorem encode_eq (p : LengthPrefix) (order : ByteOrder) (length : Nat) :
    p.encode order length = (p.check length).map fun _ => p.field order length := by
  cases p with
  | varint => rfl
  | fixed width =>
      simp only [encode]
      cases (LengthPrefix.fixed width).check length <;> rfl

theorem length_field (p : LengthPrefix) (order : ByteOrder) (length : Nat) :
    (p.field order length).length = p.encodedLength length := by
  cases p with
  | varint => exact Varint.length_encode length
  | fixed width => exact FixedInt.length_encode order width length

theorem map_check_eq_ok {p : LengthPrefix} {length : Nat} {written field : List UInt8} :
    (p.check length).map (fun _ => written) = .ok field
      ↔ p.check length = .ok () ∧ written = field := by
  cases hcheck : p.check length with
  | ok _ => exact ⟨fun h => (by cases h; exact ⟨rfl, rfl⟩), fun h => (by rw [← h.2]; rfl)⟩
  | error e => exact ⟨fun h => (by cases h), fun h => (by cases h.1)⟩

theorem check_fixed_eq_ok {width : ByteWidth} {length : Nat} :
    (LengthPrefix.fixed width).check length = .ok () ↔ length < width.limit := by
  simp only [check]
  by_cases h : width.maxUnsigned < length
  · rw [if_pos h]
    exact ⟨fun hok => (by cases hok),
      fun hlt => absurd hlt (Nat.not_lt.mpr (ByteWidth.maxUnsigned_lt_iff.mp h))⟩
  · rw [if_neg h]
    exact ⟨fun _ => Nat.not_le.mp fun hle => h (ByteWidth.maxUnsigned_lt_iff.mpr hle), fun _ => rfl⟩

theorem reads_decode {p : LengthPrefix} {length : Nat} (order : ByteOrder)
    (hcheck : p.check length = .ok ()) (h : length < UInt64.size) :
    Read.Reads (p.decode order) (p.field order length) length := by
  cases p with
  | varint => exact Varint.reads_decode h
  | fixed width =>
      have hreads := FixedInt.reads_decodeUnsigned order width length
      rwa [Nat.mod_eq_of_lt (check_fixed_eq_ok.mp hcheck)] at hreads

theorem delimited_decode (p : LengthPrefix) (order : ByteOrder) :
    Read.Delimited (p.decode order) := by
  cases p with
  | varint => exact Varint.delimited_decode
  | fixed width => exact FixedInt.delimited_decodeUnsigned order width

/-- A length that was read fits the field it was read from. -/
theorem check_of_decode {p : LengthPrefix} {order : ByteOrder} {r r' : Reader} {length : Nat}
    (h : p.decode order r = .ok length r') : p.check length = .ok () ∧ length < UInt64.size := by
  cases p with
  | varint => exact ⟨rfl, Varint.decode_lt h⟩
  | fixed width =>
      have hlt := FixedInt.decodeUnsigned_lt h
      exact ⟨check_fixed_eq_ok.mpr hlt, Nat.lt_of_lt_of_le hlt width.limit_le⟩

end LengthPrefix

/-! ## Blobs -/

namespace Blob

theorem encodeFixed_eq (size : Nat) (content : List UInt8) :
    encodeFixed size content = exactly size 0 content := by
  simp only [encodeFixed, exactly, List.length_take]
  congr 2
  omega

theorem reads_decodeFixed (size : Nat) (content : List UInt8) :
    Read.Reads (decodeFixed size) (encodeFixed size content) (exactly size 0 content) := by
  rw [encodeFixed_eq]
  exact Read.Reads.bytes (length_exactly size 0 content)

theorem encodeCounted_eq (p : LengthPrefix) (order : ByteOrder) (content : List UInt8) :
    encodeCounted p order content
      = (p.check content.length).map fun _ => p.field order content.length ++ content := by
  rw [encodeCounted, p.encode_eq]
  cases p.check content.length <;> rfl

theorem reads_decodeCounted {p : LengthPrefix} {content : List UInt8} (order : ByteOrder)
    (hcheck : p.check content.length = .ok ()) (h : content.length < UInt64.size) :
    Read.Reads (decodeCounted p order) (p.field order content.length ++ content) content :=
  (LengthPrefix.reads_decode order hcheck h).bind (Read.Reads.bytes rfl)

theorem delimited_decodeCounted (p : LengthPrefix) (order : ByteOrder) :
    Read.Delimited (decodeCounted p order) :=
  (p.delimited_decode order).bind fun length => Read.Delimited.bytes length

theorem check_of_decodeCounted {p : LengthPrefix} {order : ByteOrder} {r r' : Reader}
    {content : List UInt8} (h : decodeCounted p order r = .ok content r') :
    p.check content.length = .ok () ∧ content.length < UInt64.size := by
  obtain ⟨length, r₁, hlength, hcontent⟩ := bind_eq_ok.mp h
  rw [Read.length_of_bytes hcontent]
  exact LengthPrefix.check_of_decode hlength

end Blob

/-! ## Booleans -/

namespace SingleBool

theorem reads_decode (b : Bool) : Read.Reads decode (encode b) b := by
  have h := (Read.Reads.byte (if b then 1 else 0)).map fun byte => byte != 0
  cases b <;> exact h

theorem delimited_decode : Read.Delimited decode :=
  Read.Delimited.byte.map _

end SingleBool

/-! ## Bit arrays -/

namespace Bits

theorem testBit_weigh (bits : List Bool) (i : Nat) :
    (weigh bits).testBit i = bits.getD i false := by
  induction bits generalizing i with
  | nil => simp [weigh]
  | cons b rest ih =>
      cases i with
      | zero => cases b <;> simp [weigh, Nat.testBit_zero]
      | succ i =>
          have hhalf : weigh (b :: rest) / 2 = weigh rest := by
            cases b <;> (simp [weigh]; try omega)
          rw [Nat.testBit_succ, hhalf, ih, List.getD_cons_succ]

/-- A byte is its eight lowest bits. -/
theorem testBit_ofNat (n : Nat) {i : Nat} (hi : i < 8) :
    (UInt8.ofNat n).toNat.testBit i = n.testBit i := by
  rw [UInt8.toNat_ofNat', Nat.testBit_mod_two_pow]
  simp [hi]

theorem unpackByte_weigh (bits : List Bool) :
    unpackByte (.ofNat (weigh bits)) = exactly 8 false bits := by
  rw [unpackByte, exactly_eq_map]
  apply List.map_congr_left
  intro i hi
  rw [testBit_ofNat _ (List.mem_range.mp hi), testBit_weigh]

/-- A byte is the number whose bits are its elements. -/
theorem weigh_unpackByte (b : UInt8) : UInt8.ofNat (weigh (unpackByte b)) = b := by
  have hsame : weigh (unpackByte b) = b.toNat := by
    apply Nat.eq_of_testBit_eq
    intro i
    rw [testBit_weigh, unpackByte, List.getD_eq_getElem?_getD, List.getElem?_map]
    rcases Nat.lt_or_ge i 8 with hlt | hge
    · rw [List.getElem?_range hlt]
      rfl
    · have hpow : 2 ^ 8 ≤ 2 ^ i := Nat.pow_le_pow_right (by decide) hge
      have hzero : b.toNat.testBit i = false :=
        Nat.testBit_lt_two_pow (Nat.lt_of_lt_of_le b.toNat_lt hpow)
      rw [List.getElem?_eq_none (by rw [List.length_range]; exact hge), hzero]
      rfl
  rw [hsame, UInt8.ofNat_toNat]

theorem packAfter_eq (before : List UInt8) (n : Nat) (bits : List Bool) :
    packAfter before n bits = before.reverse ++ packAfter [] n bits := by
  induction n generalizing before bits with
  | zero => simp [packAfter]
  | succ n ih =>
      rw [packAfter, packAfter, ih, ih [_]]
      simp

theorem packAfter_succ (n : Nat) (bits : List Bool) :
    packAfter [] (n + 1) bits = .ofNat (weigh (bits.take 8)) :: packAfter [] n (bits.drop 8) := by
  rw [packAfter, packAfter_eq]
  rfl

@[simp] theorem length_packAfter (n : Nat) (bits : List Bool) :
    (packAfter [] n bits).length = n := by
  induction n generalizing bits with
  | zero => rfl
  | succ n ih => rw [packAfter_succ, List.length_cons, ih]

@[simp] theorem length_encode (count : Nat) (bits : List Bool) :
    (encode count bits).length = packedLength count :=
  length_packAfter _ _

/-- Packing does not tell false from nothing. -/
theorem packAfter_congr (n : Nat) {bits bits' : List Bool}
    (h : ∀ i, bits.getD i false = bits'.getD i false) :
    packAfter [] n bits = packAfter [] n bits' := by
  induction n generalizing bits bits' with
  | zero => rfl
  | succ n ih =>
      have hfirst : weigh (bits.take 8) = weigh (bits'.take 8) := by
        apply Nat.eq_of_testBit_eq
        intro i
        rw [testBit_weigh, testBit_weigh, getD_take, getD_take, h]
      have hrest : ∀ i, (bits.drop 8).getD i false = (bits'.drop 8).getD i false := by
        intro i
        rw [getD_drop, getD_drop, h]
      rw [packAfter_succ, packAfter_succ, hfirst, ih hrest]

theorem encode_exactly (count : Nat) (bits : List Bool) :
    encode count (exactly count false bits) = encode count bits := by
  apply packAfter_congr
  intro i
  rw [take_exactly (Nat.le_refl count), getD_exactly]

theorem flatMap_packAfter (n : Nat) (bits : List Bool) :
    (packAfter [] n bits).flatMap unpackByte = exactly (8 * n) false bits := by
  induction n generalizing bits with
  | zero => simp [packAfter, exactly]
  | succ n ih =>
      rw [packAfter_succ, List.flatMap_cons, unpackByte_weigh, ih,
        show 8 * (n + 1) = 8 + 8 * n by omega, exactly_add]

@[simp] theorem length_unpackByte (b : UInt8) : (unpackByte b).length = 8 := by
  rw [unpackByte, List.length_map, List.length_range]

/-- Whole bytes of elements are the bytes they came from. -/
theorem packAfter_flatMap (packed : List UInt8) :
    packAfter [] packed.length (packed.flatMap unpackByte) = packed := by
  induction packed with
  | nil => rfl
  | cons b rest ih =>
      rw [List.length_cons, packAfter_succ, List.flatMap_cons,
        List.take_left' (length_unpackByte b), List.drop_left' (length_unpackByte b), ih,
        weigh_unpackByte]

theorem length_flatMap_unpackByte (packed : List UInt8) :
    (packed.flatMap unpackByte).length = 8 * packed.length := by
  induction packed with
  | nil => rfl
  | cons b rest ih =>
      rw [List.flatMap_cons, List.length_append, ih, List.length_cons, length_unpackByte]
      omega

theorem le_packedLength (count : Nat) : count ≤ 8 * packedLength count := by
  rw [packedLength]
  omega

theorem reads_decode (count : Nat) (bits : List Bool) :
    Read.Reads (decode count) (encode count bits) (exactly count false bits) := by
  have h := (Read.Reads.bytes (length_encode count bits)).map
    fun packed => (packed.flatMap unpackByte).take count
  have htaken : ((encode count bits).flatMap unpackByte).take count = exactly count false bits := by
    rw [encode, flatMap_packAfter, take_exactly (le_packedLength count), exactly_eq_map,
      exactly_eq_map]
    apply List.map_congr_left
    intro i hi
    rw [getD_take, if_pos (List.mem_range.mp hi)]
  rwa [htaken] at h

theorem delimited_decode (count : Nat) : Read.Delimited (decode count) :=
  (Read.Delimited.bytes _).map _

theorem length_of_decode {count : Nat} {r r' : Reader} {bits : List Bool}
    (h : decode count r = .ok bits r') : bits.length = count := by
  obtain ⟨packed, r₁, hpacked, hbits⟩ := bind_eq_ok.mp h
  cases hbits
  have hle := le_packedLength count
  rw [List.length_take, length_flatMap_unpackByte, Read.length_of_bytes hpacked]
  omega

/-! ### Behind a length -/

theorem encodeCounted_eq (p : LengthPrefix) (order : ByteOrder) (bits : List Bool) :
    encodeCounted p order bits
      = (p.check bits.length).map fun _ =>
        p.field order bits.length ++ encode bits.length bits := by
  rw [encodeCounted, p.encode_eq]
  cases p.check bits.length <;> rfl

theorem reads_decodeCounted {p : LengthPrefix} {bits : List Bool} (order : ByteOrder)
    (hcheck : p.check bits.length = .ok ()) (h : bits.length < UInt64.size) :
    Read.Reads (decodeCounted p order)
      (p.field order bits.length ++ encode bits.length bits) bits := by
  have hbits := reads_decode bits.length bits
  rw [exactly_of_length rfl] at hbits
  exact (LengthPrefix.reads_decode order hcheck h).bind hbits

theorem delimited_decodeCounted (p : LengthPrefix) (order : ByteOrder) :
    Read.Delimited (decodeCounted p order) :=
  (p.delimited_decode order).bind fun count => delimited_decode count

theorem check_of_decodeCounted {p : LengthPrefix} {order : ByteOrder} {r r' : Reader}
    {bits : List Bool} (h : decodeCounted p order r = .ok bits r') :
    p.check bits.length = .ok () ∧ bits.length < UInt64.size := by
  obtain ⟨count, r₁, hcount, hbits⟩ := bind_eq_ok.mp h
  rw [length_of_decode hbits]
  exact LengthPrefix.check_of_decode hcount

end Bits
end PackedRecord
