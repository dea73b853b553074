import PackedRecord.Text.Utf8

/-!
# UTF-8 there and back

A character is one piece of its own bytes, whatever follows
(`piece_encodeChar`), and the bytes of a piece that is a character are the
bytes of that character (`encodeChar_of_piece`). Both go by the number of
bytes: the writer splits the code point into groups of six bits below the
leading bits, the reader puts them together again, and the ranges of the
second byte keep the two in step at the bounds where a shorter form, a
surrogate or no character begins.

From pieces the laws carry over to texts by induction: bytes are a text, or a
text and a piece behind it that is no character (`exists_fault`). The headline
`decode_eq_ok_iff` says that strict reading accepts exactly what writing
produces.
-/

namespace PackedRecord.Utf8

/-! ## One character -/

theorem follow_succ {more bits low high read : Nat} {b : UInt8} {rest : List UInt8}
    (hlow : low ≤ b.toNat) (hhigh : b.toNat ≤ high) :
    follow (more + 1) bits low high read (b :: rest)
      = follow more (bits * 0x40 + (b.toNat - 0x80)) 0x80 0xBF (read + 1) rest := by
  simp [follow, hlow, hhigh]

theorem follow_eq_char {more bits low high read : Nat} {data rest : List UInt8} {c : Char}
    (h : follow (more + 1) bits low high read data = (.char c, rest)) :
    ∃ b tail, data = b :: tail ∧ low ≤ b.toNat ∧ b.toNat ≤ high
      ∧ follow more (bits * 0x40 + (b.toNat - 0x80)) 0x80 0xBF (read + 1) tail
        = (.char c, rest) := by
  cases data with
  | nil => simp [follow] at h
  | cons b tail =>
      simp only [follow, Bool.and_eq_true, decide_eq_true_eq] at h
      split at h
      · next hb => exact ⟨b, tail, rfl, hb.1, hb.2, h⟩
      · simp at h

/-- The code points there are. -/
theorem toNat_valid (c : Char) :
    c.toNat < 0xD800 ∨ (0xDFFF < c.toNat ∧ c.toNat < 0x110000) := c.valid

theorem toNat_ofNat_of_valid {n : Nat} (h : n < 0xD800 ∨ (0xDFFF < n ∧ n < 0x110000)) :
    (Char.ofNat n).toNat = n := by
  rw [Char.ofNat, dif_pos h]
  rfl

theorem toNat_byte {n : Nat} (h : n < 0x100) : (UInt8.ofNat n).toNat = n := by
  rw [UInt8.toNat_ofNat']
  omega

theorem piece_encodeChar (c : Char) (rest : List UInt8) :
    ∃ b tail, encodeChar c = b :: tail ∧ piece b (tail ++ rest) = (.char c, rest) := by
  have hvalid := toNat_valid c
  have hback : Char.ofNat c.toNat = c := Char.ofNat_toNat c
  revert hvalid hback
  unfold encodeChar
  generalize c.toNat = n
  intro hvalid hback
  simp only
  split
  · next h1 =>
      refine ⟨_, _, rfl, ?_⟩
      have hb := toNat_byte (show n < 0x100 by omega)
      simp [piece, hb, h1, hback]
  split
  · next h1 h2 =>
      refine ⟨_, _, rfl, ?_⟩
      have hb := toNat_byte (show 0xC0 + n / 0x40 < 0x100 by omega)
      have hc := toNat_byte (show 0x80 + n % 0x40 < 0x100 by omega)
      rw [piece, hb, if_neg (by omega), lead?, if_neg (by omega), if_pos (by omega)]
      have hcode : (0xC0 + n / 0x40 - 0xC0) * 0x40 + (0x80 + n % 0x40 - 0x80) = n := by omega
      simp only [List.cons_append, List.nil_append]
      rw [follow_succ (by omega) (by omega), hc, follow, hcode, hback]
  split
  · next h1 h2 h3 =>
      refine ⟨_, _, rfl, ?_⟩
      have hb := toNat_byte (show 0xE0 + n / 0x1000 < 0x100 by omega)
      have hc := toNat_byte (show 0x80 + n / 0x40 % 0x40 < 0x100 by omega)
      have hd := toNat_byte (show 0x80 + n % 0x40 < 0x100 by omega)
      rw [piece, hb, if_neg (by omega), lead?, if_neg (by omega), if_neg (by omega),
        if_pos (by omega)]
      have hcode : ((0xE0 + n / 0x1000 - 0xE0) * 0x40 + (0x80 + n / 0x40 % 0x40 - 0x80)) * 0x40
          + (0x80 + n % 0x40 - 0x80) = n := by omega
      simp only [List.cons_append, List.nil_append]
      -- Only the second byte has a range that depends on the first.
      rw [follow_succ (by split <;> omega) (by split <;> omega),
        follow_succ (by omega) (by omega), hc, hd, follow, hcode, hback]
  · next h1 h2 h3 =>
      refine ⟨_, _, rfl, ?_⟩
      have hb := toNat_byte (show 0xF0 + n / 0x40000 < 0x100 by omega)
      have hc := toNat_byte (show 0x80 + n / 0x1000 % 0x40 < 0x100 by omega)
      have hd := toNat_byte (show 0x80 + n / 0x40 % 0x40 < 0x100 by omega)
      have he := toNat_byte (show 0x80 + n % 0x40 < 0x100 by omega)
      rw [piece, hb, if_neg (by omega), lead?, if_neg (by omega), if_neg (by omega),
        if_neg (by omega), if_pos (by omega)]
      have hcode : (((0xF0 + n / 0x40000 - 0xF0) * 0x40 + (0x80 + n / 0x1000 % 0x40 - 0x80)) * 0x40
          + (0x80 + n / 0x40 % 0x40 - 0x80)) * 0x40 + (0x80 + n % 0x40 - 0x80) = n := by omega
      simp only [List.cons_append, List.nil_append]
      rw [follow_succ (by split <;> omega) (by split <;> omega),
        follow_succ (by omega) (by omega), follow_succ (by omega) (by omega), hc, hd, he, follow,
        hcode, hback]

theorem ofNat_eq {n : Nat} {b : UInt8} (h : n = b.toNat) : UInt8.ofNat n = b := by
  rw [h, UInt8.ofNat_toNat]

/-- Two bytes in their ranges are the bytes of the character they spell. -/
theorem encodeChar_two {b x : UInt8} (hb : 0xC2 ≤ b.toNat) (hb' : b.toNat < 0xE0)
    (hx : 0x80 ≤ x.toNat) (hx' : x.toNat ≤ 0xBF) :
    encodeChar (Char.ofNat ((b.toNat - 0xC0) * 0x40 + (x.toNat - 0x80))) = [b, x] := by
  rw [encodeChar, toNat_ofNat_of_valid (by omega), if_neg (by omega), if_pos (by omega)]
  simp only [List.cons.injEq, and_true]
  exact ⟨ofNat_eq (by omega), ofNat_eq (by omega)⟩

theorem encodeChar_three {b x y : UInt8} (hb : 0xE0 ≤ b.toNat) (hb' : b.toNat < 0xF0)
    (hx : (if b.toNat = 0xE0 then 0xA0 else 0x80) ≤ x.toNat)
    (hx' : x.toNat ≤ if b.toNat = 0xED then 0x9F else 0xBF)
    (hy : 0x80 ≤ y.toNat) (hy' : y.toNat ≤ 0xBF) :
    encodeChar (Char.ofNat (((b.toNat - 0xE0) * 0x40 + (x.toNat - 0x80)) * 0x40 + (y.toNat - 0x80)))
      = [b, x, y] := by
  have hlow : 0x80 ≤ x.toNat ∧ (b.toNat = 0xE0 → 0xA0 ≤ x.toNat) := by
    split at hx <;> omega
  have hhigh : x.toNat ≤ 0xBF ∧ (b.toNat = 0xED → x.toNat ≤ 0x9F) := by
    split at hx' <;> omega
  rw [encodeChar, toNat_ofNat_of_valid (by omega), if_neg (by omega), if_neg (by omega),
    if_pos (by omega)]
  simp only [List.cons.injEq, and_true]
  exact ⟨ofNat_eq (by omega), ofNat_eq (by omega), ofNat_eq (by omega)⟩

theorem encodeChar_four {b x y z : UInt8} (hb : 0xF0 ≤ b.toNat) (hb' : b.toNat < 0xF5)
    (hx : (if b.toNat = 0xF0 then 0x90 else 0x80) ≤ x.toNat)
    (hx' : x.toNat ≤ if b.toNat = 0xF4 then 0x8F else 0xBF)
    (hy : 0x80 ≤ y.toNat) (hy' : y.toNat ≤ 0xBF) (hz : 0x80 ≤ z.toNat) (hz' : z.toNat ≤ 0xBF) :
    encodeChar (Char.ofNat ((((b.toNat - 0xF0) * 0x40 + (x.toNat - 0x80)) * 0x40
      + (y.toNat - 0x80)) * 0x40 + (z.toNat - 0x80))) = [b, x, y, z] := by
  have hlow : 0x80 ≤ x.toNat ∧ (b.toNat = 0xF0 → 0x90 ≤ x.toNat) := by
    split at hx <;> omega
  have hhigh : x.toNat ≤ 0xBF ∧ (b.toNat = 0xF4 → x.toNat ≤ 0x8F) := by
    split at hx' <;> omega
  rw [encodeChar, toNat_ofNat_of_valid (by omega), if_neg (by omega), if_neg (by omega),
    if_neg (by omega)]
  simp only [List.cons.injEq, and_true]
  exact ⟨ofNat_eq (by omega), ofNat_eq (by omega), ofNat_eq (by omega), ofNat_eq (by omega)⟩

theorem follow_zero {bits low high read : Nat} {data rest : List UInt8} {c : Char}
    (h : follow 0 bits low high read data = (.char c, rest)) :
    Char.ofNat bits = c ∧ data = rest := by
  simpa [follow] using h

theorem encodeChar_of_piece {b : UInt8} {rest rest' : List UInt8} {c : Char}
    (h : piece b rest = (.char c, rest')) : b :: rest = encodeChar c ++ rest' := by
  unfold piece at h
  split at h
  · next h1 =>
      obtain ⟨hc, rfl⟩ := Prod.mk.inj h
      obtain rfl := Piece.char.inj hc
      rw [encodeChar, toNat_ofNat_of_valid (by omega), if_pos h1, UInt8.ofNat_toNat]
      rfl
  split at h
  · exact absurd (congrArg Prod.fst h) (by simp)
  · next lead hlead =>
      unfold lead? at hlead
      split at hlead
      · cases hlead
      split at hlead
      · cases hlead
        obtain ⟨x, tail, rfl, hx, hx', h⟩ := follow_eq_char h
        obtain ⟨rfl, rfl⟩ := follow_zero h
        rw [encodeChar_two (by omega) (by omega) hx hx']
        rfl
      split at hlead
      · cases hlead
        obtain ⟨x, tail, rfl, hx, hx', h⟩ := follow_eq_char h
        obtain ⟨y, tail, rfl, hy, hy', h⟩ := follow_eq_char h
        obtain ⟨rfl, rfl⟩ := follow_zero h
        rw [encodeChar_three (by omega) (by omega) hx hx' hy hy']
        rfl
      split at hlead
      · cases hlead
        obtain ⟨x, tail, rfl, hx, hx', h⟩ := follow_eq_char h
        obtain ⟨y, tail, rfl, hy, hy', h⟩ := follow_eq_char h
        obtain ⟨z, tail, rfl, hz, hz', h⟩ := follow_eq_char h
        obtain ⟨rfl, rfl⟩ := follow_zero h
        rw [encodeChar_four (by omega) (by omega) hx hx' hy hy' hz hz']
        rfl
      · cases hlead

theorem ofNat_ne_zero {n : Nat} (hpos : 0 < n) (h : n < 0x100) : (0 : UInt8) ≠ UInt8.ofNat n := by
  intro heq
  have hn := congrArg UInt8.toNat heq
  rw [toNat_byte h] at hn
  exact absurd hn.symm (Nat.ne_of_gt hpos)

/-- The only character with a zero byte is the zero. -/
theorem zero_mem_encodeChar {c : Char} : (0 : UInt8) ∈ encodeChar c ↔ c = '\x00' := by
  constructor
  · intro h
    have hvalid := toNat_valid c
    rw [← Char.ofNat_toNat c]
    by_cases hn : c.toNat = 0
    · rw [hn]
    · exfalso
      revert h
      unfold encodeChar
      generalize c.toNat = n at hvalid hn
      simp only [imp_false]
      split
      · simp only [List.mem_cons, List.not_mem_nil, or_false]
        exact ofNat_ne_zero (by omega) (by omega)
      split
      · simp only [List.mem_cons, List.not_mem_nil, or_false, not_or]
        exact ⟨ofNat_ne_zero (by omega) (by omega), ofNat_ne_zero (by omega) (by omega)⟩
      split
      · simp only [List.mem_cons, List.not_mem_nil, or_false, not_or]
        exact ⟨ofNat_ne_zero (by omega) (by omega), ofNat_ne_zero (by omega) (by omega),
          ofNat_ne_zero (by omega) (by omega)⟩
      · simp only [List.mem_cons, List.not_mem_nil, or_false, not_or]
        exact ⟨ofNat_ne_zero (by omega) (by omega), ofNat_ne_zero (by omega) (by omega),
          ofNat_ne_zero (by omega) (by omega), ofNat_ne_zero (by omega) (by omega)⟩
  · rintro rfl
    decide

/-! ## Texts -/

theorem encode_cons (c : Char) (text : List Char) :
    encode (c :: text) = encodeChar c ++ encode text :=
  List.flatMap_cons

theorem encode_append (a b : List Char) : encode (a ++ b) = encode a ++ encode b :=
  List.flatMap_append

theorem prefix_encode {t text : List Char} (h : t <+: text) : encode t <+: encode text := by
  obtain ⟨rest, rfl⟩ := h
  exact ⟨encode rest, (encode_append t rest).symm⟩

theorem zero_mem_encode {text : List Char} : (0 : UInt8) ∈ encode text ↔ '\x00' ∈ text := by
  simp [encode, List.mem_flatMap, zero_mem_encodeChar]

theorem piecesAfter_eq (before : List Piece) : (data : List UInt8) →
    piecesAfter before data = before.reverse ++ pieces data
  | [] => by simp [pieces, piecesAfter]
  | b :: rest => by
      rw [pieces, piecesAfter, piecesAfter, piecesAfter_eq _ (piece b rest).2,
        piecesAfter_eq [_] (piece b rest).2]
      simp
termination_by data => data.length
decreasing_by all_goals exact Nat.lt_succ_of_le (piece_length_le b rest)

theorem pieces_nil : pieces [] = [] := by
  simp [pieces, piecesAfter]

theorem pieces_cons (b : UInt8) (rest : List UInt8) :
    pieces (b :: rest) = (piece b rest).1 :: pieces (piece b rest).2 := by
  rw [pieces, piecesAfter, piecesAfter_eq]
  rfl

theorem pieces_encode_append (text : List Char) (data : List UInt8) :
    pieces (encode text ++ data) = text.map Piece.char ++ pieces data := by
  induction text with
  | nil => rfl
  | cons c text ih =>
      obtain ⟨b, tail, hc, hpiece⟩ := piece_encodeChar c (encode text ++ data)
      rw [encode_cons, hc, List.append_assoc, List.cons_append, pieces_cons, hpiece, ih]
      rfl

theorem pieces_encode (text : List Char) : pieces (encode text) = text.map Piece.char := by
  have hpieces := pieces_encode_append text []
  rwa [pieces_nil, List.append_nil, List.append_nil] at hpieces

theorem encode_injective {a b : List Char} (h : encode a = encode b) : a = b := by
  have hpieces := congrArg pieces h
  rw [pieces_encode, pieces_encode] at hpieces
  exact (List.map_inj_right fun _ _ => Piece.char.inj).mp hpieces

/-- Bytes are a text, or there is a first place where they are none. -/
theorem exists_fault : (data : List UInt8) →
    (∃ text, data = encode text) ∨
      ∃ text b rest length atEnd rest', data = encode text ++ b :: rest
        ∧ piece b rest = (.illFormed length atEnd, rest')
  | [] => Or.inl ⟨[], rfl⟩
  | b :: rest => by
      cases hpiece : piece b rest with
      | mk read behind =>
          cases read with
          | illFormed length atEnd => exact Or.inr ⟨[], b, rest, length, atEnd, behind, rfl, hpiece⟩
          | char c =>
              have hchar := encodeChar_of_piece hpiece
              have hshorter : behind.length < (b :: rest).length := by
                have hle := piece_length_le b rest
                rw [hpiece] at hle
                exact Nat.lt_succ_of_le hle
              rcases exists_fault behind with ⟨text, htext⟩
                  | ⟨text, b', rest', length, atEnd, behind', htext, hfault⟩
              · exact Or.inl ⟨c :: text, by rw [hchar, htext, encode_cons]⟩
              · refine Or.inr ⟨c :: text, b', rest', length, atEnd, behind', ?_, hfault⟩
                rw [hchar, htext, encode_cons, List.append_assoc]
termination_by data => data.length
decreasing_by exact hshorter

/-! ## Reading -/

@[simp]
theorem bytes_ofList (text : List Char) : bytes (String.ofList text) = encode text := by
  rw [bytes, String.toList_ofList]

theorem faultAfter?_append (offset : Nat) (text : List Char) (ps : List Piece) :
    faultAfter? offset (text.map Piece.char ++ ps)
      = faultAfter? (offset + (encode text).length) ps := by
  induction text generalizing offset with
  | nil => rfl
  | cons c text ih =>
      rw [List.map_cons, List.cons_append, faultAfter?, ih, encode_cons, List.length_append,
        Nat.add_assoc]

theorem fault?_encode (text : List Char) : fault? (encode text) = none := by
  have hfault := faultAfter?_append 0 text []
  rw [List.append_nil] at hfault
  rw [fault?, pieces_encode, hfault]
  rfl

theorem fault?_of_piece {b : UInt8} {rest rest' : List UInt8} {length : Nat} {atEnd : Bool}
    (h : piece b rest = (.illFormed length atEnd, rest')) (text : List Char) :
    fault? (encode text ++ b :: rest) = some ⟨(encode text).length, length, atEnd⟩ := by
  rw [fault?, pieces_encode_append, faultAfter?_append, pieces_cons, h, faultAfter?,
    Nat.zero_add]

theorem lossy_bytes (s : String) : lossy (bytes s) = s := by
  rw [lossy, bytes, pieces_encode, List.map_map]
  simp [Function.comp_def, Piece.replaced]

/-- Strict reading accepts exactly what writing produces. -/
theorem decode_eq_ok_iff {data : List UInt8} {s : String} :
    decode data = .ok s ↔ data = bytes s := by
  have hbytes : ∀ s, decode (bytes s) = .ok s := by
    intro s
    have hfault : fault? (bytes s) = none := fault?_encode s.toList
    rw [decode, hfault]
    simp only [lossy_bytes]
  constructor
  · intro h
    rcases exists_fault data with ⟨text, rfl⟩ | ⟨text, b, rest, length, atEnd, rest', rfl, hpiece⟩
    · rw [← bytes_ofList, hbytes] at h
      cases h
      exact (bytes_ofList text).symm
    · rw [decode, fault?_of_piece hpiece] at h
      cases h
  · rintro rfl
    exact hbytes s

theorem read_bytes (policy : Utf8Policy) (offset : Nat) (s : String) :
    read policy offset (bytes s) = .ok s := by
  cases policy with
  | strict =>
      simp only [read]
      rw [decode_eq_ok_iff.mpr rfl]
  | lossy => rw [read, lossy_bytes]

theorem bytes_of_read {offset : Nat} {content : List UInt8} {s : String}
    (h : read .strict offset content = .ok s) : content = bytes s := by
  simp only [read] at h
  split at h
  · next text htext =>
      cases h
      exact decode_eq_ok_iff.mp htext
  · cases h

/-- Strict reading stops at the first fault. -/
theorem read_strict_of_fault {b : UInt8} {rest rest' : List UInt8} {length : Nat} {atEnd : Bool}
    (h : piece b rest = (.illFormed length atEnd, rest')) (offset : Nat) (text : List Char) :
    read .strict offset (encode text ++ b :: rest)
      = .error (.invalidUtf8 (offset + (encode text).length)) := by
  simp only [read, decode, fault?_of_piece h]

/-- The offset is for the message about bytes that are no text. -/
theorem read_offset {policy : Utf8Policy} {p : Nat} (q : Nat) {content : List UInt8} {s : String}
    (h : read policy p content = .ok s) : read policy q content = .ok s := by
  cases policy with
  | strict => rw [bytes_of_read h, read_bytes]
  | lossy => exact h

end PackedRecord.Utf8
