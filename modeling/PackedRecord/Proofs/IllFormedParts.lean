import PackedRecord.Proofs.CharacterForms

/-!
# Text with faults in it

Bytes that are no text begin with one: as many whole characters as there are
(`exists_fault`), and then bytes that are none. Both readings agree on where
that is. The strict one reports it, and no longer beginning of the bytes is a
text (`length_le_of_fault`); the lossy one puts one replacement character for
the *maximal subpart* that stands there and goes on behind it.

A maximal subpart is what has begun a character before the bytes end or go on
in a way that no character does, and one byte if none begins a character. The
reader finds it by following a first byte for as long as the ranges allow. Two
facts make that the maximal subpart: whatever the ranges have allowed some
bytes complete (`exists_follow`), and a byte that they refuse is refused
whatever stands behind it.
-/

namespace PackedRecord.Utf8

/-! ## Subparts -/

/-- So many bytes of the data begin a character, or are a single byte. -/
def Subpart (data : List UInt8) (length : Nat) : Prop :=
  length ≤ data.length ∧ (length = 1 ∨ ∃ c, data.take length <+: encodeChar c)

/-- The longest beginning of the data that is a subpart. -/
def MaximalSubpart (data : List UInt8) (length : Nat) : Prop :=
  Subpart data length ∧ ∀ other, Subpart data other → other ≤ length

/-! ## Following a first byte -/

/-- Where a character has begun, bytes can be found that complete it. -/
theorem exists_follow (more bits : Nat) {low high : Nat} (read : Nat) (hrange : low ≤ high)
    (hbyte : high < 0x100) :
    ∃ fill c, follow more bits low high read fill = (.char c, []) := by
  induction more generalizing bits low high read with
  | zero => exact ⟨[], _, rfl⟩
  | succ more ih =>
      have hlow := toNat_byte (show low < 0x100 by omega)
      obtain ⟨fill, c, hfill⟩ := ih (bits * 0x40 + (low - 0x80)) (read + 1)
        (show 0x80 ≤ 0xBF by decide) (by decide)
      refine ⟨.ofNat low :: fill, c, ?_⟩
      rw [follow_succ (by omega) (by omega), hlow, hfill]

/-- An ill-formed piece is what could be followed. It can be completed, and
what stands behind it, if anything, begins with a byte that cannot go on. -/
theorem follow_eq_illFormed {more bits low high read length : Nat} {atEnd : Bool}
    {data rest : List UInt8} (hrange : low ≤ high) (hbyte : high < 0x100)
    (h : follow more bits low high read data = (.illFormed length atEnd, rest)) :
    ∃ taken, data = taken ++ rest ∧ length = read + taken.length ∧ taken.length < more
      ∧ (∃ fill c, follow more bits low high read (taken ++ fill) = (.char c, []))
      ∧ ∀ x tail, rest = x :: tail → ∀ tail' c rest',
        follow more bits low high read (taken ++ x :: tail') ≠ (.char c, rest') := by
  induction more generalizing bits low high read data with
  | zero => simp [follow] at h
  | succ more ih =>
      cases data with
      | nil =>
          obtain ⟨hpiece, rfl⟩ := Prod.mk.inj h
          cases hpiece
          refine ⟨[], rfl, rfl, Nat.succ_pos more, exists_follow _ _ _ hrange hbyte, ?_⟩
          intro x tail hrest
          cases hrest
      | cons b data =>
          by_cases hb : low ≤ b.toNat ∧ b.toNat ≤ high
          · rw [follow_succ hb.1 hb.2] at h
            obtain ⟨taken, rfl, hlength, hlt, ⟨fill, c, hfill⟩, hstuck⟩ :=
              ih (by decide) (by decide) h
            refine ⟨b :: taken, rfl, ?_, Nat.succ_lt_succ hlt, ⟨fill, c, ?_⟩, ?_⟩
            · rw [hlength, List.length_cons]
              omega
            · rw [List.cons_append, follow_succ hb.1 hb.2, hfill]
            · intro x tail hrest tail' c rest'
              rw [List.cons_append, follow_succ hb.1 hb.2]
              exact hstuck x tail hrest tail' c rest'
          · have hrefuse : ∀ tail, follow (more + 1) bits low high read (b :: tail)
                = (.illFormed read false, b :: tail) := by
              intro tail
              simp only [follow, Bool.and_eq_true, decide_eq_true_eq, if_neg hb]
            rw [hrefuse] at h
            obtain ⟨hpiece, rfl⟩ := Prod.mk.inj h
            cases hpiece
            refine ⟨[], rfl, rfl, Nat.succ_pos more, exists_follow _ _ _ hrange hbyte, ?_⟩
            intro x tail hrest tail' c rest' hchar
            obtain ⟨rfl, rfl⟩ := List.cons.inj hrest
            rw [List.nil_append, hrefuse] at hchar
            cases hchar

theorem lead?_bounds {b : Nat} {lead : Lead} (h : lead? b = some lead) :
    lead.more ≤ 3 ∧ lead.low ≤ lead.high ∧ lead.high < 0x100 := by
  unfold lead? at h
  split at h
  · cases h
  split at h
  · cases h
    simp only
    omega
  split at h
  · cases h
    simp only
    split <;> split <;> omega
  split at h
  · cases h
    simp only
    split <;> split <;> omega
  · cases h

/-- A first byte that announces nothing is no character with anything behind it. -/
theorem piece_of_lead?_none {b : UInt8} (hascii : ¬b.toNat < 0x80) (h : lead? b.toNat = none)
    (rest : List UInt8) : piece b rest = (.illFormed 1 false, rest) := by
  rw [piece, if_neg hascii, h]

theorem piece_of_lead? {b : UInt8} {lead : Lead} (hascii : ¬b.toNat < 0x80)
    (h : lead? b.toNat = some lead) (rest : List UInt8) :
    piece b rest = follow lead.more lead.bits lead.low lead.high 1 rest := by
  rw [piece, if_neg hascii, h]

/-- The same of a first byte and what follows it. -/
theorem piece_eq_illFormed {b : UInt8} {rest rest' : List UInt8} {length : Nat} {atEnd : Bool}
    (h : piece b rest = (.illFormed length atEnd, rest')) :
    ∃ taken, rest = taken ++ rest' ∧ length = 1 + taken.length ∧ length ≤ 3
      ∧ (taken = [] ∨ ∃ fill c, piece b (taken ++ fill) = (.char c, []))
      ∧ ∀ x tail, rest' = x :: tail → ∀ tail' c behind,
        piece b (taken ++ x :: tail') ≠ (.char c, behind) := by
  by_cases hascii : b.toNat < 0x80
  · rw [piece, if_pos hascii] at h
    cases h
  · cases hlead : lead? b.toNat with
    | none =>
        have hrefuse := piece_of_lead?_none hascii hlead
        rw [hrefuse] at h
        cases h
        refine ⟨[], rfl, rfl, by decide, Or.inl rfl, ?_⟩
        intro x tail _ tail' c behind hchar
        rw [hrefuse] at hchar
        cases hchar
    | some lead =>
        have hfollow := piece_of_lead? hascii hlead
        obtain ⟨hmore, hrange, hbyte⟩ := lead?_bounds hlead
        rw [hfollow] at h
        obtain ⟨taken, rfl, hlength, hlt, ⟨fill, c, hfill⟩, hstuck⟩ :=
          follow_eq_illFormed hrange hbyte h
        refine ⟨taken, rfl, hlength, by omega, Or.inr ⟨fill, c, ?_⟩, ?_⟩
        · rw [hfollow, hfill]
        · intro x tail hrest tail' c behind
          rw [hfollow]
          exact hstuck x tail hrest tail' c behind

/-- No subpart goes beyond a byte that cannot go on. -/
theorem length_le_of_subpart {b : UInt8} {taken rest : List UInt8} {length : Nat}
    (hstuck : ∀ x tail, rest = x :: tail → ∀ tail' c behind,
      piece b (taken ++ x :: tail') ≠ (.char c, behind))
    (h : Subpart (b :: (taken ++ rest)) length) : length ≤ 1 + taken.length := by
  have hdata : b :: (taken ++ rest) = (b :: taken) ++ rest := rfl
  have hcount : (b :: taken).length = 1 + taken.length := Nat.add_comm _ 1
  obtain ⟨hle, rfl | ⟨c, fill, hbegins⟩⟩ := h
  · exact Nat.le_add_right 1 _
  · refine Nat.le_of_not_lt fun hlt => ?_
    cases rest with
    | nil =>
        rw [hdata, List.append_nil, hcount] at hle
        exact absurd hle (Nat.not_le_of_lt hlt)
    | cons x tail =>
        -- The beginning of the character reaches to the byte that cannot go on.
        obtain ⟨k, rfl⟩ := Nat.exists_eq_add_of_lt hlt
        have htake : (b :: (taken ++ x :: tail)).take (1 + taken.length + k + 1)
            = b :: (taken ++ x :: tail.take k) := by
          rw [hdata, ← hcount, Nat.add_assoc, List.take_length_add_append, List.take_succ_cons]
          rfl
        rw [htake] at hbegins
        obtain ⟨b', bytes, hbytes, hpiece⟩ := piece_encodeChar c []
        rw [hbytes, List.cons_append, List.append_assoc, List.cons_append] at hbegins
        obtain ⟨rfl, rfl⟩ := List.cons.inj hbegins
        rw [List.append_nil] at hpiece
        exact hstuck x tail rfl _ c [] hpiece

/-- An ill-formed piece is the maximal subpart of the data it begins, and so long. -/
theorem maximalSubpart_of_piece {b : UInt8} {rest rest' : List UInt8} {length : Nat} {atEnd : Bool}
    (h : piece b rest = (.illFormed length atEnd, rest')) :
    MaximalSubpart (b :: rest) length ∧ 1 ≤ length ∧ length ≤ 3
      ∧ (b :: rest).drop length = rest' ∧ length ≤ (b :: rest).length := by
  obtain ⟨taken, rfl, rfl, hthree, hcomplete, hstuck⟩ := piece_eq_illFormed h
  have hdata : b :: (taken ++ rest') = (b :: taken) ++ rest' := rfl
  have hcount : (b :: taken).length = 1 + taken.length := Nat.add_comm _ 1
  have hle : 1 + taken.length ≤ (b :: (taken ++ rest')).length := by
    rw [hdata, List.length_append, hcount]
    exact Nat.le_add_right _ _
  refine ⟨⟨⟨hle, ?_⟩, fun other hother => length_le_of_subpart hstuck hother⟩,
    Nat.le_add_right 1 _, hthree, ?_, hle⟩
  · rcases hcomplete with rfl | ⟨fill, c, hchar⟩
    · exact Or.inl rfl
    · refine Or.inr ⟨c, fill, ?_⟩
      rw [hdata, List.take_left' hcount, List.cons_append, encodeChar_of_piece hchar,
        List.append_nil]
  · rw [hdata, List.drop_left' hcount]

/-! ## The first fault of a text -/

section
variable {b : UInt8} {rest rest' : List UInt8} {length : Nat} {atEnd : Bool}

/-- Lossy reading replaces the first fault and goes on behind it. -/
theorem lossy_of_fault (h : piece b rest = (.illFormed length atEnd, rest')) (text : List Char) :
    lossy (encode text ++ b :: rest) = String.ofList text ++ "\uFFFD" ++ lossy rest' := by
  have hpieces : pieces (encode text ++ b :: rest)
      = text.map Piece.char ++ .illFormed length atEnd :: pieces rest' := by
    rw [pieces_encode_append, pieces_cons, h]
  have htext : (text.map Piece.char).map Piece.replaced = text := by
    rw [List.map_map]
    exact List.map_id text
  rw [lossy, hpieces, List.map_append, htext, List.map_cons, lossy, String.append_assoc,
    String.ofList_append, String.ofList_cons]
  rfl

/-- Only the characters before an ill-formed piece can come first. -/
theorem prefix_of_map_char {text text' : List Char} {ps ps' : List Piece}
    (h : text'.map Piece.char ++ ps = text.map Piece.char ++ .illFormed length atEnd :: ps') :
    text' <+: text := by
  induction text' generalizing text with
  | nil => exact List.nil_prefix
  | cons c text' ih =>
      cases text with
      | nil =>
          obtain ⟨hfirst, -⟩ := List.cons.inj h
          cases hfirst
      | cons d text =>
          obtain ⟨hfirst, hrest⟩ := List.cons.inj h
          cases hfirst
          exact List.cons_prefix_cons.mpr ⟨rfl, ih hrest⟩

/-- No beginning that reaches beyond the first fault is a text. -/
theorem length_le_of_fault (h : piece b rest = (.illFormed length atEnd, rest'))
    {text text' : List Char} {m : Nat} (hm : (encode text ++ b :: rest).take m = encode text') :
    m ≤ (encode text).length := by
  have hpieces := congrArg pieces (List.take_append_drop m (encode text ++ b :: rest))
  rw [hm, pieces_encode_append, pieces_encode_append, pieces_cons, h] at hpieces
  have hle := (prefix_encode (prefix_of_map_char hpieces)).length_le
  have hlength := congrArg List.length hm
  rw [List.length_take, List.length_append, List.length_cons] at hlength
  omega

end

/-! ## Both readings -/

/-- Strict reading takes exactly the bytes of a text and otherwise points
behind the longest beginning that is one. Lossy reading reads a text the same
and otherwise has one replacement character for the maximal subpart that
stands there, between the text before it and what it reads behind it. A text is the
shortest forms of its characters one after another, so any other form is such a place. -/
theorem read_up_to_maximalSubpart (offset : Nat) (content : List UInt8) :
    (∀ text, read .strict offset content = .ok text ↔ content = bytes text)
      ∧ (∀ text, content = bytes text → read .lossy offset content = .ok text)
      ∧ ((∀ text, content ≠ bytes text) →
        ∃ text n length behind, content.take n = bytes text
          ∧ (∀ m other, content.take m = bytes other → m ≤ n)
          ∧ MaximalSubpart (content.drop n) length ∧ 1 ≤ length ∧ length ≤ 3
          ∧ n + length ≤ content.length
          ∧ read .strict offset content = .error (.invalidUtf8 (offset + n))
          ∧ read .lossy (offset + (n + length)) (content.drop (n + length)) = .ok behind
          ∧ read .lossy offset content = .ok (text ++ "\uFFFD" ++ behind))
      ∧ (∀ c p, p = encodeChar c
        ↔ Form p c.toNat ∧ ∀ other, Form other c.toNat → p.length ≤ other.length)
      ∧ ∀ text p n behind, content = bytes text ++ (p ++ behind) → Form p n → Form.Excluded p n →
        read .strict offset content = .error (.invalidUtf8 (offset + (bytes text).length)) := by
  refine ⟨fun text => ⟨bytes_of_read, ?_⟩, ?_, fun hnone => ?_, fun c p => eq_encodeChar_iff, ?_⟩
  · rintro rfl
    exact read_bytes .strict offset text
  · rintro text rfl
    exact read_bytes .lossy offset text
  · rcases exists_fault content with
      ⟨text, rfl⟩ | ⟨text, b, rest, length, atEnd, rest', rfl, hpiece⟩
    · exact absurd (bytes_ofList text).symm (hnone (String.ofList text))
    · obtain ⟨hmaximal, hone, hthree, hrest, hle⟩ := maximalSubpart_of_piece hpiece
      refine ⟨String.ofList text, (encode text).length, length, lossy rest', ?_, ?_, ?_, hone,
        hthree, ?_, read_strict_of_fault hpiece offset text, ?_, ?_⟩
      · rw [List.take_left, bytes_ofList]
      · exact fun m other hm => length_le_of_fault hpiece hm
      · rwa [List.drop_left]
      · rw [List.length_append]
        exact Nat.add_le_add_left hle _
      · rw [List.drop_length_add_append, hrest]
        rfl
      · exact congrArg Except.ok (lossy_of_fault hpiece text)
  · rintro text p n behind rfl hform hexcluded
    obtain ⟨b, tail, rfl, -⟩ := hform.first
    obtain ⟨length, atEnd, rest', hpiece⟩ := piece_of_form hform hexcluded behind
    exact read_strict_of_fault hpiece offset text.toList

/-- The beginning of a character with a letter behind it, and a surrogate. -/
theorem read_up_to_maximalSubpart_sample :
    (∃ text length behind, (∀ other, [0x61, 0xE2, 0x82, 0x62] ≠ bytes other)
        ∧ MaximalSubpart [0xE2, 0x82, 0x62] length
        ∧ read .strict 5 [0x61, 0xE2, 0x82, 0x62] = .error (.invalidUtf8 6)
        ∧ read .lossy 5 [0x61, 0xE2, 0x82, 0x62] = .ok (text ++ "\uFFFD" ++ behind))
      ∧ Form [0xED, 0xA0, 0x80] 0xD800 ∧ Form.Excluded [0xED, 0xA0, 0x80] 0xD800
      ∧ read .strict 5 [0x61, 0xED, 0xA0, 0x80, 0x62] = .error (.invalidUtf8 6) := by
  obtain ⟨hok, -, hfault, -⟩ := read_up_to_maximalSubpart 5 [0x61, 0xE2, 0x82, 0x62]
  obtain ⟨-, -, -, -, hexcluded⟩ := read_up_to_maximalSubpart 5 [0x61, 0xED, 0xA0, 0x80, 0x62]
  have hread : read .strict 5 [0x61, 0xE2, 0x82, 0x62] = .error (.invalidUtf8 6) :=
    read_strict_of_fault (show piece 0xE2 [0x82, 0x62] = (.illFormed 2 false, [0x62]) from rfl) 5
      ['a']
  have hnone : ∀ other, [0x61, 0xE2, 0x82, 0x62] ≠ bytes other := by
    intro other hother
    have hsome := (hok other).mpr hother
    rw [hread] at hsome
    cases hsome
  obtain ⟨text, n, length, behind, -, -, hmaximal, -, -, -, hstrict, -, hlossy⟩ := hfault hnone
  have hn : 6 = 5 + n := Error.invalidUtf8.inj (Except.error.inj (hread.symm.trans hstrict))
  obtain rfl : n = 1 := by omega
  have hform : Form [0xED, 0xA0, 0x80] 0xD800 :=
    .three (by decide) (by decide) (by decide) (by decide) (by decide)
  have hsurrogate : Form.Excluded [0xED, 0xA0, 0x80] 0xD800 := Or.inr (Or.inl (by decide))
  exact ⟨⟨text, length, behind, hnone, hmaximal, hread, hlossy⟩, hform, hsurrogate,
    hexcluded "a" _ 0xD800 [0x62] (by decide +kernel) hform hsurrogate⟩

end PackedRecord.Utf8
