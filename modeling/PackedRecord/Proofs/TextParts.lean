import PackedRecord.Proofs.Composition
import PackedRecord.Proofs.Parsing

/-!
# Format texts in parts

A text that is put together from two parts is parsed as the two are, one after
the other (`Format.parseFrom_append`). The parser takes a token at a time and
has nothing in hand between tokens but its position and the operations so far,
and neither decides what it does next: both only show in the result
(`Format.parseFrom_eq`). The one thing that could bind the parts together is a
run of digits that the cut goes through, or a size cut off from its opcode;
`Format.Separate` rules these out, and a second part that does not begin with
a digit is separate from everything.

Positions are counted in bytes, and so is the length of the first part. What
parses is ASCII (`Format.Spells.ascii`), so counting characters comes to the
same.
-/

namespace PackedRecord

/-- The error in a text that has `n` more bytes in front. -/
def Error.moved (n : Nat) : Error → Error
  | .unknownOpcode opcode position => .unknownOpcode opcode (position + n)
  | .missingSize opcode position => .missingSize opcode (position + n)
  | .sizeTooLarge position => .sizeTooLarge (position + n)
  | err => err

namespace Utf8

/-- Every character is one byte. -/
def Ascii (text : List Char) : Prop := ∀ c ∈ text, c.toNat < 0x80

theorem Ascii.length_encode {text : List Char} (h : Ascii text) :
    (encode text).length = text.length := by
  induction text with
  | nil => rfl
  | cons c text ih =>
      have hc : encodeChar c = [.ofNat c.toNat] := if_pos (h c List.mem_cons_self)
      rw [encode_cons, hc, List.length_append, ih fun d hd => h d (List.mem_cons_of_mem c hd),
        List.length_cons, Nat.add_comm]
      rfl

end Utf8

namespace Operation

/-- The opcodes that may have a size. -/
def sizedOpcodes : List Char := ['x', 'b', 'B', 'i', 'I', 'f', 's', 'c', 'a', 'A']

theorem sized?_eq_none_iff {c : Char} : sized? c = none ↔ c ∉ sizedOpcodes := by
  unfold sized?
  split <;> simp_all [sizedOpcodes]

theorem mem_sizedOpcodes_iff {c : Char} :
    c ∈ sizedOpcodes ↔ ∃ make, sized? c = some make := by
  rw [← Option.ne_none_iff_exists', Ne, sized?_eq_none_iff, not_not]

/-! ## The place of a token -/

variable {position n : Nat}

theorem required_moved (opcode : Char) (size : Option Nat) :
    required opcode (position + n) size
      = (required opcode position size).mapError (Error.moved n) := by
  cases size <;> rfl

/-- Errors about widths have no position. -/
theorem fixedPrefix_moved (opcode : Char) (width : Nat) :
    (fixedPrefix opcode width).mapError (Error.moved n) = fixedPrefix opcode width := by
  unfold fixedPrefix
  split <;> rfl

theorem optionalPrefix_moved (opcode : Char) (size : Option Nat) :
    (optionalPrefix opcode size).mapError (Error.moved n) = optionalPrefix opcode size := by
  unfold optionalPrefix
  split
  · rfl
  · rfl
  · exact fixedPrefix_moved opcode _

theorem integerOf_moved (signed : Bool) (bits : Nat) :
    (integerOf signed bits).mapError (Error.moved n) = integerOf signed bits := by
  unfold integerOf
  split
  · split <;> rfl
  · rfl

theorem floatOf_moved (bits : Nat) :
    (floatOf bits).mapError (Error.moved n) = floatOf bits := by
  unfold floatOf
  split <;> rfl

end Operation

theorem except_mapError_map {ε α β : Type} (x : Except ε α) (f : ε → ε) (g : α → β) :
    (x.map g).mapError f = (x.mapError f).map g := by
  cases x <;> rfl

namespace Operation

theorem sized?_moved {c : Char} {make : Nat → Option Nat → Except Error Operation}
    (h : sized? c = some make) (position n : Nat) (size : Option Nat) :
    make (position + n) size = (make position size).mapError (Error.moved n) := by
  unfold sized? at h
  split at h <;> cases h
  · rfl
  · rfl
  · simp only [except_mapError_map, optionalPrefix_moved]
  · exact (integerOf_moved true _).symm
  · exact (integerOf_moved false _).symm
  · exact (floatOf_moved _).symm
  · simp only [except_mapError_map, fixedPrefix_moved]
  · simp only [except_mapError_map, required_moved]
  · simp only [except_mapError_map, required_moved]
  · simp only [except_mapError_map, optionalPrefix_moved]

end Operation

namespace Format

theorem size?_moved (position n : Nat) (digits : List Char) :
    size? (position + n) digits = (size? position digits).mapError (Error.moved n) := by
  unfold size?
  split
  · rfl
  · split <;> rfl

section
variable {position : Nat} {before : List Operation} {c : Char} {rest : List Char}

theorem parseFrom_unknown (hblank : isBlank c = false) (hbare : Operation.bare? c = none)
    (hsized : Operation.sized? c = none) :
    parseFrom position before (c :: rest) = .error (.unknownOpcode c position) := by
  rw [parseFrom, if_neg (by simp [hblank]), hbare, hsized]

end

theorem not_digit_of_dropWhile (rest : List Char) :
    ∀ d, (rest.dropWhile Char.isDigit).head? = some d → d.isDigit = false := by
  intro d hd
  have hhead := List.head?_dropWhile_not Char.isDigit rest
  rw [hd] at hhead
  simpa using hhead

/-- The position and the operations before only show in the result. -/
theorem parseFrom_add (n : Nat) (done : List Operation) (position : Nat)
    (before : List Operation) (text : List Char) :
    parseFrom (position + n) (before ++ done) text
      = ((parseFrom position before text).mapError (Error.moved n)).map (done.reverse ++ ·) := by
  fun_induction parseFrom position before text with
  | case1 position before =>
      rw [parseFrom_nil, List.reverse_append]
      rfl
  | case2 position before c rest hblank ih =>
      rw [parseFrom_blank hblank, Nat.add_right_comm, ih]
  | case3 position before c rest hblank op hbare ih =>
      rw [parseFrom_bare hbare, Nat.add_right_comm, ← List.cons_append, ih]
  | case4 position before c rest hblank hbare make hsized digits ih =>
      have hdigits : ∀ d ∈ digits, d.isDigit = true := fun d hd => List.mem_takeWhile_imp hd
      have hsplit : rest = digits ++ rest.dropWhile Char.isDigit :=
        List.takeWhile_append_dropWhile.symm
      conv_lhs => rw [hsplit]
      rw [parseFrom_sized hsized hdigits (not_digit_of_dropWhile rest),
        Nat.add_right_comm position n 1, size?_moved]
      cases size? (position + 1) digits with
      | error err => rfl
      | ok size =>
          have hmake := Operation.sized?_moved hsized position n size
          cases hop : make position size with
          | error err =>
              rw [hop] at hmake
              simp [bind, Except.bind, Except.mapError, Except.map, hmake, hop]
          | ok op =>
              rw [hop] at hmake
              have hrest := ih op
              rw [Nat.add_right_comm (position + 1) digits.length n] at hrest
              simp only [bind, Except.bind, Except.mapError, hmake, hop]
              exact hrest
  | case5 position before c rest hblank hbare hsized =>
      rw [parseFrom_unknown (by simpa using hblank) hbare hsized]
      rfl

theorem parseFrom_eq (position : Nat) (before : List Operation) (text : List Char) :
    parseFrom position before text
      = ((parseFrom 0 [] text).mapError (Error.moved position)).map (before.reverse ++ ·) := by
  have h := parseFrom_add position before 0 [] text
  rwa [Nat.zero_add, List.nil_append] at h

/-! ## Cutting a text -/

/-- The text is not cut inside a run of digits, nor between an opcode and its size. -/
def Separate (head tail : List Char) : Prop :=
  ∀ c, tail.head? = some c → c.isDigit = true →
    ∀ d, head.getLast? = some d → d.isDigit = false ∧ d ∉ Operation.sizedOpcodes

namespace Separate

variable {head tail : List Char}

theorem of_not_digit (h : ∀ c, tail.head? = some c → c.isDigit = false) : Separate head tail := by
  intro c hc hdigit
  rw [h c hc] at hdigit
  cases hdigit

theorem nil : Separate [] tail := by
  intro c _ _ d hd
  cases hd

theorem of_suffix {front : List Char} (h : Separate (front ++ head) tail) :
    Separate head tail := by
  intro c hc hdigit d hd
  refine h c hc hdigit d ?_
  rw [List.getLast?_append, hd]
  rfl

theorem of_cons {c : Char} (h : Separate (c :: head) tail) : Separate head tail :=
  (show Separate ([c] ++ head) tail from h).of_suffix

theorem append {front : List Char} (h : Separate head tail)
    (hfront : head = [] → Separate front tail) : Separate (front ++ head) tail := by
  intro c hc hdigit d hd
  cases hlast : head.getLast? with
  | none =>
      have hnil := List.getLast?_eq_none_iff.mp hlast
      rw [hnil, List.append_nil] at hd
      exact hfront hnil c hc hdigit d hd
  | some e =>
      rw [List.getLast?_append, hlast] at hd
      obtain rfl : e = d := Option.some.inj hd
      exact h c hc hdigit e hlast

end Separate

/-- The digits behind an opcode are as many with more text behind, if that is separate. -/
theorem not_digit_of_separate {c : Char} {rest tail : List Char}
    {make : Nat → Option Nat → Except Error Operation} (hsized : Operation.sized? c = some make)
    (h : Separate (c :: rest) tail) :
    ∀ d, (rest.dropWhile Char.isDigit ++ tail).head? = some d → d.isDigit = false := by
  intro d hd
  cases hdrop : rest.dropWhile Char.isDigit with
  | cons d' after =>
      rw [hdrop] at hd
      exact not_digit_of_dropWhile rest d (by rw [hdrop]; exact hd)
  | nil =>
      -- Nothing but digits stands behind the opcode, up to the cut.
      rw [hdrop, List.nil_append] at hd
      by_contra hdigit
      have hdigits : ∀ e ∈ rest, e.isDigit = true := List.dropWhile_eq_nil_iff.mp hdrop
      have hlast := h d hd (by simpa using hdigit)
      cases hrest : rest.getLast? with
      | none =>
          obtain ⟨-, hopcode⟩ := hlast c (by rw [List.getLast?_cons, hrest]; rfl)
          exact hopcode (Operation.mem_sizedOpcodes_iff.mpr ⟨make, hsized⟩)
      | some e =>
          obtain ⟨hnot, -⟩ := hlast e (by rw [List.getLast?_cons, hrest]; rfl)
          rw [hdigits e (List.mem_of_getLast? hrest)] at hnot
          cases hnot

/-- What stands behind a separate cut is parsed as if parsing had come to it so far. -/
theorem parseFrom_append {tail : List Char} (position : Nat) (before : List Operation)
    (head : List Char) (h : Separate head tail) :
    parseFrom position before (head ++ tail)
      = parseFrom position before head >>= fun ops =>
        parseFrom (position + head.length) ops.reverse tail := by
  fun_induction parseFrom position before head with
  | case1 position before =>
      show _ = parseFrom position before.reverse.reverse tail
      rw [List.reverse_reverse, List.nil_append]
  | case2 position before c rest hblank ih =>
      rw [List.cons_append, parseFrom_blank hblank, ih h.of_cons, List.length_cons,
        Nat.add_right_comm, Nat.add_assoc]
  | case3 position before c rest hblank op hbare ih =>
      rw [List.cons_append, parseFrom_bare hbare, ih h.of_cons, List.length_cons,
        Nat.add_right_comm, Nat.add_assoc]
  | case4 position before c rest hblank hbare make hsized digits ih =>
      have hdigits : ∀ d ∈ digits, d.isDigit = true := fun d hd => List.mem_takeWhile_imp hd
      have hsplit : rest = digits ++ rest.dropWhile Char.isDigit :=
        List.takeWhile_append_dropWhile.symm
      have hrest : Separate (rest.dropWhile Char.isDigit) tail := by
        have hlater := h.of_cons
        rw [hsplit] at hlater
        exact hlater.of_suffix
      have hlength : (c :: rest).length
          = 1 + digits.length + (rest.dropWhile Char.isDigit).length := by
        rw [List.length_cons, congrArg List.length hsplit, List.length_append]
        omega
      rw [hlength]
      conv_lhs => rw [hsplit, List.cons_append, List.append_assoc]
      rw [parseFrom_sized hsized hdigits (not_digit_of_separate hsized h), bind_assoc]
      refine congrArg _ (funext fun size => ?_)
      rw [bind_assoc]
      refine congrArg _ (funext fun op => ?_)
      rw [ih op hrest]
      refine congrArg _ (funext fun ops => ?_)
      rw [← Nat.add_assoc, ← Nat.add_assoc]
  | case5 position before c rest hblank hbare hsized =>
      rw [List.cons_append, parseFrom_unknown (by simpa using hblank) hbare hsized]
      rfl

/-! ## What parses is ASCII -/

theorem ascii_of_isDigit {c : Char} (h : c.isDigit = true) : c.toNat < 0x80 := by
  have hrange : 48 ≤ c.val ∧ c.val ≤ 57 := by simpa [Char.isDigit] using h
  exact Nat.lt_of_le_of_lt (UInt32.le_iff_toNat_le.mp hrange.2) (by decide)

theorem ascii_of_blank {c : Char} (h : isBlank c = true) : c.toNat < 0x80 := by
  simp only [isBlank, Bool.or_eq_true, decide_eq_true_eq] at h
  rcases h with (((rfl | rfl) | rfl) | rfl) | rfl <;> decide

theorem ascii_of_bare {c : Char} {op : Operation} (h : Operation.bare? c = some op) :
    c.toNat < 0x80 := by
  unfold Operation.bare? at h
  split at h <;> first | decide | cases h

theorem ascii_of_sized {c : Char} {make : Nat → Option Nat → Except Error Operation}
    (h : Operation.sized? c = some make) : c.toNat < 0x80 := by
  unfold Operation.sized? at h
  split at h <;> first | decide | cases h

theorem Token.ascii {c : Char} {digits : List Char} {op : Operation}
    (h : Token (c :: digits) op) : Utf8.Ascii (c :: digits) := by
  intro d hd
  rcases h.read with ⟨hbare, rfl⟩ | ⟨make, size, hsized, hsize, -⟩
  · rw [List.mem_singleton.mp hd]
    exact ascii_of_bare hbare
  · rcases List.mem_cons.mp hd with rfl | hd
    · exact ascii_of_sized hsized
    · exact ascii_of_isDigit (hsize.isDigit d hd)

theorem Spells.ascii {text : List Char} {ops : List Operation} (h : Spells text ops) :
    Utf8.Ascii text := by
  induction h with
  | empty => exact fun c hc => absurd hc List.not_mem_nil
  | blank hblank _ ih =>
      intro d hd
      rcases List.mem_cons.mp hd with rfl | hd
      · exact ascii_of_blank hblank
      · exact ih d hd
  | @token first text op ops htoken _ ih =>
      intro d hd
      rcases List.mem_append.mp hd with hd | hd
      · cases first with
        | nil => exact absurd rfl htoken.ne_nil
        | cons c digits => exact htoken.ascii d hd
      · exact ih d hd

/-! ## Texts -/

/-- A text whose second part does not begin with a digit has the operations of
both parts, and fails if one of them does: with the error of the first, or else with
that of the second, as many bytes further on as the first part takes. -/
theorem parse_append (a b : String)
    (hb : ∀ c, b.toList.head? = some c → c.isDigit = false) :
    parse (a ++ b) = do
      let first ← parse a
      let second ← (parse b).mapError (Error.moved (Utf8.bytes a).length)
      return first ++ second := by
  unfold parse
  rw [String.toList_append, parseFrom_append 0 [] a.toList (.of_not_digit hb), Nat.zero_add]
  cases hfirst : parseFrom 0 [] a.toList with
  | error err => rfl
  | ok ops =>
      obtain ⟨spelled, hspells, -⟩ := spells_of_parseFrom 0 [] a.toList hfirst
      have hlength : (Utf8.bytes a).length = a.toList.length := hspells.ascii.length_encode
      have hsecond : parseFrom a.toList.length ops.reverse b.toList
          = ((parseFrom 0 [] b.toList).mapError (Error.moved a.toList.length)).map (ops ++ ·) := by
        rw [parseFrom_eq, List.reverse_reverse]
      rw [hlength]
      show (parseFrom a.toList.length ops.reverse b.toList >>= fun all => pure (Format.mk all)) = _
      rw [hsecond]
      cases parseFrom 0 [] b.toList with
      | error err => rfl
      | ok more => rfl

/-- The second part fails, five bytes behind the first one; in front of a digit the two
parts are not parsed by themselves. -/
theorem parse_append_sample :
    parse (" <x" ++ "z\tq") = .error (.unknownOpcode 'q' 5)
      ∧ parse ("c" ++ "4") = .ok ⟨[.fixedString 4]⟩
      ∧ parse "c" = .error (.missingSize 'c' 0) := by
  refine ⟨?_, by decide +kernel, by decide +kernel⟩
  have hb : ∀ c, "z\tq".toList.head? = some c → c.isDigit = false := by
    intro c hc
    cases hc
    rfl
  rw [parse_append " <x" "z\tq" hb]
  decide +kernel

end Format
end PackedRecord
