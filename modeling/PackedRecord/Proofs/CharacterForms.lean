import PackedRecord.Proofs.Utf8

/-!
# Forms of a character

What the bytes of a character are, said without the writer and the reader. A
`Form` of a number begins with a byte whose leading bits tell how many bytes
there are, and the others carry six bits each. Nothing is asked of the number:
overlong forms, surrogates and numbers beyond the last character have forms
too.

Of these, the bytes of a character are the shortest form of its number
(`eq_encodeChar_iff`). The first byte of a form tells its length, so of two
forms none begins the other (`Form.eq_of_append`), and a form that belongs to
no character is where reading stops (`piece_of_form`).
-/

namespace PackedRecord.Utf8

/-- Whether a byte only goes on with what another began. -/
def isContinuation (b : UInt8) : Bool := 0x80 ≤ b.toNat && b.toNat < 0xC0

theorem isContinuation_iff {b : UInt8} :
    isContinuation b = true ↔ 0x80 ≤ b.toNat ∧ b.toNat < 0xC0 := by
  simp [isContinuation]

/-- Bytes that spell a number. -/
inductive Form : List UInt8 → Nat → Prop where
  | one {a : UInt8} {n : Nat} : a.toNat < 0x80 → n = a.toNat → Form [a] n
  | two {a x : UInt8} {n : Nat} : 0xC0 ≤ a.toNat → a.toNat < 0xE0 → isContinuation x = true →
      n = (a.toNat - 0xC0) * 0x40 + (x.toNat - 0x80) → Form [a, x] n
  | three {a x y : UInt8} {n : Nat} : 0xE0 ≤ a.toNat → a.toNat < 0xF0 →
      isContinuation x = true → isContinuation y = true →
      n = ((a.toNat - 0xE0) * 0x40 + (x.toNat - 0x80)) * 0x40 + (y.toNat - 0x80) →
      Form [a, x, y] n
  | four {a x y z : UInt8} {n : Nat} : 0xF0 ≤ a.toNat → a.toNat < 0xF8 →
      isContinuation x = true → isContinuation y = true → isContinuation z = true →
      n = (((a.toNat - 0xF0) * 0x40 + (x.toNat - 0x80)) * 0x40 + (y.toNat - 0x80)) * 0x40
        + (z.toNat - 0x80) →
      Form [a, x, y, z] n

/-- How many bytes follow a first byte. -/
def announced (b : UInt8) : Nat :=
  if b.toNat < 0xC0 then 0 else if b.toNat < 0xE0 then 1 else if b.toNat < 0xF0 then 2 else 3

/-- The form of `n` in so many bytes, if there is one. -/
def formOf : (length : Nat) → (n : Nat) → List UInt8
  | 1, n => [.ofNat n]
  | 2, n => [.ofNat (0xC0 + n / 0x40), .ofNat (0x80 + n % 0x40)]
  | 3, n => [.ofNat (0xE0 + n / 0x1000), .ofNat (0x80 + n / 0x40 % 0x40), .ofNat (0x80 + n % 0x40)]
  | _, n => [.ofNat (0xF0 + n / 0x40000), .ofNat (0x80 + n / 0x1000 % 0x40),
      .ofNat (0x80 + n / 0x40 % 0x40), .ofNat (0x80 + n % 0x40)]

theorem isContinuation_byte (n : Nat) : isContinuation (.ofNat (0x80 + n % 0x40)) = true := by
  rw [isContinuation_iff, toNat_byte (by omega)]
  omega

namespace Form

variable {p q u w : List UInt8} {n m : Nat}

/-- A form begins with a byte that continues nothing and announces the others, which do. -/
theorem first (h : Form p n) :
    ∃ b tail, p = b :: tail ∧ isContinuation b = false ∧ tail.length = announced b
      ∧ ∀ x ∈ tail, isContinuation x = true := by
  have hfirst : ∀ {b : UInt8}, b.toNat < 0x80 ∨ 0xC0 ≤ b.toNat → isContinuation b = false := by
    intro b hb
    rw [← Bool.not_eq_true, isContinuation_iff]
    omega
  cases h with
  | one ha _ =>
      refine ⟨_, _, rfl, hfirst (by omega), ?_, by simp⟩
      rw [announced, if_pos (by omega)]
      rfl
  | two ha ha' hx _ =>
      refine ⟨_, _, rfl, hfirst (by omega), ?_, by simp [hx]⟩
      rw [announced, if_neg (by omega), if_pos ha']
      rfl
  | three ha ha' hx hy _ =>
      refine ⟨_, _, rfl, hfirst (by omega), ?_, by simp [hx, hy]⟩
      rw [announced, if_neg (by omega), if_neg (by omega), if_pos ha']
      rfl
  | four ha ha' hx hy hz _ =>
      refine ⟨_, _, rfl, hfirst (by omega), ?_, by simp [hx, hy, hz]⟩
      rw [announced, if_neg (by omega), if_neg (by omega), if_neg (by omega)]
      rfl

/-- No form begins another. -/
theorem eq_of_append (hp : Form p n) (hq : Form q m) (h : p ++ u = q ++ w) : p = q := by
  obtain ⟨b, tail, rfl, -, hlength, -⟩ := hp.first
  obtain ⟨b', tail', rfl, -, hlength', -⟩ := hq.first
  obtain ⟨rfl, -⟩ := List.cons.inj h
  exact List.append_inj_left h (by simp [hlength, hlength'])

/-- Bytes spell one number at most. -/
theorem number_unique (hn : Form p n) (hm : Form p m) : n = m := by
  cases hn with
  | one _ hn =>
      cases hm with
      | one _ hm => exact hn.trans hm.symm
  | two _ _ _ hn =>
      cases hm with
      | two _ _ _ hm => exact hn.trans hm.symm
  | three _ _ _ _ hn =>
      cases hm with
      | three _ _ _ _ hm => exact hn.trans hm.symm
  | four _ _ _ _ _ hn =>
      cases hm with
      | four _ _ _ _ _ hm => exact hn.trans hm.symm

/-- A number has one form of a length at most. -/
theorem eq_formOf (h : Form p n) : p = formOf p.length n := by
  cases h with
  | one ha hn => simp only [List.length, formOf, ofNat_eq hn]
  | two ha ha' hx hn =>
      rw [isContinuation_iff] at hx
      simp only [List.length, formOf, List.cons.injEq, and_true]
      exact ⟨(ofNat_eq (by omega)).symm, (ofNat_eq (by omega)).symm⟩
  | three ha ha' hx hy hn =>
      rw [isContinuation_iff] at hx hy
      simp only [List.length, formOf, List.cons.injEq, and_true]
      exact ⟨(ofNat_eq (by omega)).symm, (ofNat_eq (by omega)).symm, (ofNat_eq (by omega)).symm⟩
  | four ha ha' hx hy hz hn =>
      rw [isContinuation_iff] at hx hy hz
      simp only [List.length, formOf, List.cons.injEq, and_true]
      exact ⟨(ofNat_eq (by omega)).symm, (ofNat_eq (by omega)).symm, (ofNat_eq (by omega)).symm,
        (ofNat_eq (by omega)).symm⟩

end Form

/-! ## Bytes of a character -/

theorem length_encodeChar (c : Char) :
    (encodeChar c).length =
      if c.toNat < 0x80 then 1 else if c.toNat < 0x800 then 2 else if c.toNat < 0x10000 then 3
      else 4 := by
  unfold encodeChar
  simp only
  split
  · rfl
  split
  · rfl
  split
  · rfl
  · rfl

theorem form_encodeChar (c : Char) : Form (encodeChar c) c.toNat := by
  have hvalid := toNat_valid c
  unfold encodeChar
  generalize c.toNat = n at hvalid
  simp only
  have htail : ∀ m, (UInt8.ofNat (0x80 + m % 0x40)).toNat = 0x80 + m % 0x40 :=
    fun m => toNat_byte (by omega)
  split
  · next h1 =>
      have hb := toNat_byte (show n < 0x100 by omega)
      exact .one (by omega) hb.symm
  split
  · next h1 h2 =>
      have hb := toNat_byte (show 0xC0 + n / 0x40 < 0x100 by omega)
      refine .two (by omega) (by omega) (isContinuation_byte _) ?_
      rw [hb, htail]
      omega
  split
  · next h1 h2 h3 =>
      have hb := toNat_byte (show 0xE0 + n / 0x1000 < 0x100 by omega)
      refine .three (by omega) (by omega) (isContinuation_byte _) (isContinuation_byte _) ?_
      rw [hb, htail, htail]
      omega
  · next h1 h2 h3 =>
      have hb := toNat_byte (show 0xF0 + n / 0x40000 < 0x100 by omega)
      refine .four (by omega) (by omega) (isContinuation_byte _) (isContinuation_byte _)
        (isContinuation_byte _) ?_
      rw [hb, htail, htail, htail]
      omega

/-- No form of a character's number is shorter than its bytes. -/
theorem Form.length_encodeChar_le {p : List UInt8} {c : Char} (h : Form p c.toNat) :
    (encodeChar c).length ≤ p.length := by
  rw [length_encodeChar]
  cases h with
  | one ha hn =>
      rw [if_pos (by omega)]
      exact Nat.le_refl 1
  | two ha ha' hx hn =>
      rw [isContinuation_iff] at hx
      have hlt : c.toNat < 0x800 := by omega
      rw [if_pos hlt]
      split <;> simp
  | three ha ha' hx hy hn =>
      rw [isContinuation_iff] at hx hy
      have hlt : c.toNat < 0x10000 := by omega
      rw [if_pos hlt]
      split
      · simp
      · split <;> simp
  | four ha ha' hx hy hz hn =>
      split
      · simp
      · split
        · simp
        · split <;> simp

/-- The bytes of a character are the shortest form of its number. -/
theorem eq_encodeChar_iff {p : List UInt8} {c : Char} :
    p = encodeChar c
      ↔ Form p c.toNat ∧ ∀ other, Form other c.toNat → p.length ≤ other.length := by
  constructor
  · rintro rfl
    exact ⟨form_encodeChar c, fun other h => h.length_encodeChar_le⟩
  · rintro ⟨hform, hshortest⟩
    have hlength : p.length = (encodeChar c).length :=
      Nat.le_antisymm (hshortest _ (form_encodeChar c)) hform.length_encodeChar_le
    rw [hform.eq_formOf, hlength, ← (form_encodeChar c).eq_formOf]

/-- Forms that belong to no character: of a number beyond the last one, of a
surrogate, or longer than need be. -/
def Form.Excluded (p : List UInt8) (n : Nat) : Prop :=
  0x10FFFF < n ∨ (0xD800 ≤ n ∧ n ≤ 0xDFFF) ∨ ∃ shorter, Form shorter n ∧ shorter.length < p.length

theorem Form.Excluded.ne_encodeChar {p : List UInt8} {n : Nat} (h : Form p n)
    (hexcluded : Form.Excluded p n) (c : Char) : p ≠ encodeChar c := by
  rintro rfl
  obtain rfl := h.number_unique (form_encodeChar c)
  have hvalid := toNat_valid c
  rcases hexcluded with hbeyond | hsurrogate | ⟨shorter, hshorter, hlt⟩
  · omega
  · omega
  · exact Nat.not_le_of_lt hlt hshorter.length_encodeChar_le

/-- Reading stops at such a form, whatever follows. -/
theorem piece_of_form {b : UInt8} {tail : List UInt8} {n : Nat} (h : Form (b :: tail) n)
    (hexcluded : Form.Excluded (b :: tail) n) (rest : List UInt8) :
    ∃ length atEnd rest', piece b (tail ++ rest) = (.illFormed length atEnd, rest') := by
  cases hpiece : piece b (tail ++ rest) with
  | mk read rest' =>
      cases read with
      | char c =>
          have hbytes : (b :: tail) ++ rest = encodeChar c ++ rest' := encodeChar_of_piece hpiece
          exact absurd (h.eq_of_append (form_encodeChar c) hbytes) (hexcluded.ne_encodeChar h c)
      | illFormed length atEnd => exact ⟨length, atEnd, rest', rfl⟩

end PackedRecord.Utf8
