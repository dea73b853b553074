import PackedRecord.Command.Run
import PackedRecord.Proofs.Utf8

/-!
# Hexadecimal digits and back

The digits that are written for bytes read as those bytes, with no blanks to
be dropped (`Command.decodeHex_encode`). Sixteen digits are looked at one by
one; the rest is that a byte is sixteen times its high half plus its low half.
-/

namespace PackedRecord

namespace Hex

/-- A digit is one byte of text, which reads as what it was written for. -/
theorem digit?_hexDigit : ∀ n < 16, (Utf8.encodeChar (Text.hexDigit n)).map digit? = [some n] := by
  decide +kernel

theorem not_blank_hexDigit : ∀ n < 16, Format.isBlank (Text.hexDigit n) = false := by
  decide +kernel

theorem not_blank_of_mem_encodeByte {b : UInt8} {c : Char} (h : c ∈ encodeByte b) :
    Format.isBlank c = false := by
  have hlt := b.toNat_lt
  rcases List.mem_cons.mp h with rfl | h
  · exact not_blank_hexDigit _ (by omega)
  · rw [List.mem_singleton.mp h]
    exact not_blank_hexDigit _ (by omega)

/-- The text of a byte is its two digits. -/
theorem encode_encodeByte (b : UInt8) :
    ∃ high low, Utf8.encode (encodeByte b) = [high, low]
      ∧ digit? high = some (b.toNat / 16) ∧ digit? low = some (b.toNat % 16) := by
  have hlt := b.toNat_lt
  obtain ⟨high, hhigh, hhighDigit⟩ :=
    List.map_eq_singleton_iff.mp (digit?_hexDigit (b.toNat / 16) (by omega))
  obtain ⟨low, hlow, hlowDigit⟩ :=
    List.map_eq_singleton_iff.mp (digit?_hexDigit (b.toNat % 16) (by omega))
  refine ⟨high, low, ?_, hhighDigit, hlowDigit⟩
  rw [encodeByte, Utf8.encode, List.flatMap_cons, List.flatMap_singleton, hhigh, hlow]
  rfl

theorem decodeFrom_digits {high low b : UInt8} (hhigh : digit? high = some (b.toNat / 16))
    (hlow : digit? low = some (b.toNat % 16)) (position : Nat) (before rest : List UInt8) :
    decodeFrom position before (high :: low :: rest)
      = decodeFrom (position + 2) (b :: before) rest := by
  have hbyte : UInt8.ofNat (16 * (b.toNat / 16) + b.toNat % 16) = b := by
    rw [Nat.div_add_mod, UInt8.ofNat_toNat]
  rw [decodeFrom, digit, hhigh, digit, hlow]
  exact congrArg (fun b => decodeFrom (position + 2) (b :: before) rest) hbyte

theorem decodeFrom_encode (content : List UInt8) : ∀ (position : Nat) (before : List UInt8),
    decodeFrom position before (Utf8.encode (content.flatMap encodeByte))
      = .ok (before.reverse ++ content) := by
  induction content with
  | nil =>
      intro position before
      rw [List.append_nil]
      rfl
  | cons b content ih =>
      intro position before
      obtain ⟨high, low, hdigits, hhigh, hlow⟩ := encode_encodeByte b
      rw [List.flatMap_cons, Utf8.encode_append, hdigits, List.cons_append, List.cons_append,
        List.nil_append, decodeFrom_digits hhigh hlow, ih, List.reverse_cons, List.append_assoc,
        List.singleton_append]

theorem length_encode (content : List UInt8) :
    (Utf8.encode (content.flatMap encodeByte)).length = 2 * content.length := by
  induction content with
  | nil => rfl
  | cons b content ih =>
      obtain ⟨high, low, hdigits, -⟩ := encode_encodeByte b
      rw [List.flatMap_cons, Utf8.encode_append, hdigits, List.length_append, ih]
      simp only [List.length_cons, List.length_nil]
      omega

end Hex

/-- Bytes written as digits come back. -/
theorem Command.decodeHex_encode (content : List UInt8) :
    decodeHex (Hex.encode content) = .ok content := by
  have hdigits : (Hex.encode content).toList.filter (fun c => !Format.isBlank c)
      = content.flatMap Hex.encodeByte := by
    rw [Hex.encode, String.toList_ofList, List.filter_eq_self]
    intro c hc
    obtain ⟨b, -, hmem⟩ := List.mem_flatMap.mp hc
    rw [Hex.not_blank_of_mem_encodeByte hmem]
    rfl
  have heven : ¬(Utf8.encode (content.flatMap Hex.encodeByte)).length % 2 = 1 := by
    rw [Hex.length_encode]
    omega
  rw [decodeHex, hdigits, Hex.decode, if_neg heven, Hex.decodeFrom_encode]
  rfl

end PackedRecord
