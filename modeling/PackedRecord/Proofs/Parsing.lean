import Mathlib.Data.List.Induction
import Mathlib.Data.List.TakeWhile
import PackedRecord.Format.Grammar

/-!
# Parsing is the grammar

The parser and the grammar of format texts describe the same texts: a text
parses exactly if its tokens spell operations, and to just these
(`Format.parseFrom_eq_ok_iff`). The two meet at one token. The parser reads a
size behind the opcode and then asks a table what the opcode makes of it, the
grammar has a rule for each kind of token; `Format.Token.read`,
`Format.token_of_bare` and `Format.token_of_sized` say that they agree on every
opcode.

What a run of digits belongs to is settled by the character behind it. No
spelled text starts with a digit (`Format.Spells.not_digit`), so the digits
behind an opcode are those of its own token, all of them and no others.
-/

namespace PackedRecord

/-! ## Results -/

section
variable {ε α β : Type} {x : Except ε α}

theorem except_map_eq_ok {g : α → β} {b : β} : x.map g = .ok b ↔ ∃ a, x = .ok a ∧ g a = b := by
  cases x with
  | ok a =>
      exact ⟨fun h => (by cases h; exact ⟨a, rfl, rfl⟩),
        fun ⟨_, h, hb⟩ => (by cases h; exact congrArg Except.ok hb)⟩
  | error e => exact ⟨fun h => (by cases h), fun ⟨_, h, _⟩ => (by cases h)⟩

theorem except_bind_eq_ok {f : α → Except ε β} {b : β} :
    (x >>= f) = .ok b ↔ ∃ a, x = .ok a ∧ f a = .ok b := by
  cases x with
  | ok a => exact ⟨fun h => ⟨a, rfl, h⟩, fun ⟨_, h, hb⟩ => (by cases h; exact hb)⟩
  | error e => exact ⟨fun h => (by cases h), fun ⟨_, h, _⟩ => (by cases h)⟩

end

/-! ## Widths -/

theorem ByteWidth.ofNat?_eq_some {n : Nat} {w : ByteWidth} :
    ByteWidth.ofNat? n = some w ↔ n = w.bytes := by
  constructor
  · intro h
    unfold ByteWidth.ofNat? at h
    split at h
    · cases h
      rfl
    · cases h
  · rintro rfl
    exact dif_pos ⟨w.pos, w.le⟩

theorem FloatWidth.ofBits?_eq_some {bits : Nat} {w : FloatWidth} :
    FloatWidth.ofBits? bits = some w ↔ bits = w.bytes * 8 := by
  constructor
  · intro h
    unfold FloatWidth.ofBits? at h
    split at h
    · next hbits => cases h; exact hbits
    split at h
    · next hbits => cases h; exact hbits
    split at h
    · next hbits => cases h; exact hbits
    · cases h
  · rintro rfl
    cases w <;> rfl

namespace Operation

theorem fixedPrefix_eq_ok {opcode : Char} {n : Nat} {p : LengthPrefix} :
    fixedPrefix opcode n = .ok p ↔ ∃ w : ByteWidth, n = w.bytes ∧ p = .fixed w := by
  unfold fixedPrefix
  constructor
  · intro h
    split at h
    · next w hw =>
        cases h
        exact ⟨w, ByteWidth.ofNat?_eq_some.mp hw, rfl⟩
    · cases h
  · rintro ⟨w, hn, rfl⟩
    rw [ByteWidth.ofNat?_eq_some.mpr hn]

theorem optionalPrefix_eq_ok {opcode : Char} {size : Option Nat} {p : LengthPrefix} :
    optionalPrefix opcode size = .ok p ↔
      (size = none ∨ size = some 0) ∧ p = .varint
        ∨ ∃ w : ByteWidth, size = some w.bytes ∧ p = .fixed w := by
  unfold optionalPrefix
  split
  · constructor
    · intro h
      cases h
      exact Or.inl ⟨Or.inl rfl, rfl⟩
    · rintro (⟨-, rfl⟩ | ⟨w, hw, -⟩)
      · rfl
      · cases hw
  · constructor
    · intro h
      cases h
      exact Or.inl ⟨Or.inr rfl, rfl⟩
    · rintro (⟨-, rfl⟩ | ⟨w, hw, -⟩)
      · rfl
      · exact absurd (Option.some.inj hw).symm (Nat.ne_of_gt w.pos)
  · next n hn =>
      rw [fixedPrefix_eq_ok]
      constructor
      · rintro ⟨w, rfl, rfl⟩
        exact Or.inr ⟨w, rfl, rfl⟩
      · rintro (⟨h | h, -⟩ | ⟨w, hw, rfl⟩)
        · cases h
        · exact absurd (Option.some.inj h) hn
        · exact ⟨w, Option.some.inj hw, rfl⟩

theorem integerOf_eq_ok {signed : Bool} {bits : Nat} {op : Operation} :
    integerOf signed bits = .ok op
      ↔ ∃ w : ByteWidth, bits = w.bytes * 8 ∧ op = .integer w signed := by
  unfold integerOf
  constructor
  · intro h
    split at h
    · next w hw =>
        have hbytes := ByteWidth.ofNat?_eq_some.mp hw
        split at h
        · cases h
          exact ⟨w, by omega, rfl⟩
        · cases h
    · cases h
  · rintro ⟨w, rfl, rfl⟩
    rw [ByteWidth.ofNat?_eq_some.mpr (show w.bytes * 8 / 8 = w.bytes by omega)]
    exact if_pos (Nat.mul_mod_left _ _)

theorem floatOf_eq_ok {bits : Nat} {op : Operation} :
    floatOf bits = .ok op ↔ ∃ w : FloatWidth, bits = w.bytes * 8 ∧ op = .float w := by
  unfold floatOf
  constructor
  · intro h
    split at h
    · next w hw =>
        cases h
        exact ⟨w, FloatWidth.ofBits?_eq_some.mp hw, rfl⟩
    · cases h
  · rintro ⟨w, hbits, rfl⟩
    rw [FloatWidth.ofBits?_eq_some.mpr hbits]

theorem required_eq_ok {opcode : Char} {position : Nat} {size : Option Nat} {n : Nat} :
    required opcode position size = .ok n ↔ size = some n := by
  cases size with
  | none => exact ⟨fun h => (by cases h), fun h => (by cases h)⟩
  | some m => exact ⟨fun h => (by cases h; rfl), fun h => (by cases h; rfl)⟩

end Operation

namespace Format

/-! ## Numerals -/

theorem number_append (digits : List Char) (c : Char) :
    number (digits ++ [c]) = 10 * number digits + (c.toNat - '0'.toNat) := by
  rw [number, List.foldl_append]
  rfl

/-- A numeral is a run of digits that is not empty, and denotes its number. -/
theorem numeral_iff {digits : List Char} {n : Nat} :
    Numeral digits n ↔ digits ≠ [] ∧ (∀ c ∈ digits, c.isDigit = true) ∧ n = number digits := by
  constructor
  · intro h
    induction h with
    | @single c h =>
        refine ⟨List.cons_ne_nil c [], fun d hd => ?_, (Nat.zero_add _).symm⟩
        rw [List.mem_singleton.mp hd]
        exact h
    | @append digits n c _ h ih =>
        obtain ⟨-, hdigits, rfl⟩ := ih
        refine ⟨by simp, fun d hd => ?_, (number_append digits c).symm⟩
        rcases List.mem_append.mp hd with hd | hd
        · exact hdigits d hd
        · rw [List.mem_singleton.mp hd]
          exact h
  · rintro ⟨hne, hdigits, rfl⟩
    induction digits using List.reverseRecOn with
    | nil => exact absurd rfl hne
    | append_singleton init c ih =>
        have hc : c.isDigit = true := hdigits c (by simp)
        by_cases hinit : init = []
        · subst hinit
          have hnumber : number [c] = c.toNat - '0'.toNat := Nat.zero_add _
          rw [List.nil_append, hnumber]
          exact .single hc
        · rw [number_append]
          exact .append (ih hinit fun d hd => hdigits d (List.mem_append_left _ hd)) hc

/-- Digits behind an opcode, if there are any, and the size that they give. -/
inductive OptionalSize : List Char → Option Nat → Prop
  | absent : OptionalSize [] none
  | present {digits : List Char} {n : Nat} (h : Sized digits n) : OptionalSize digits (some n)

theorem OptionalSize.isDigit {digits : List Char} {size : Option Nat}
    (h : OptionalSize digits size) : ∀ c ∈ digits, c.isDigit = true := by
  cases h with
  | absent => exact fun c hc => absurd hc List.not_mem_nil
  | present h => exact (numeral_iff.mp h.1).2.1

theorem size?_eq_ok {position : Nat} {digits : List Char} {size : Option Nat}
    (hdigits : ∀ c ∈ digits, c.isDigit = true) :
    size? position digits = .ok size ↔ OptionalSize digits size := by
  unfold size?
  by_cases hnil : digits = []
  · subst hnil
    rw [if_pos List.isEmpty_nil]
    constructor
    · intro h
      cases h
      exact .absent
    · intro h
      cases h with
      | absent => rfl
      | present h => exact absurd rfl (numeral_iff.mp h.1).1
  · rw [if_neg (by simpa using hnil)]
    by_cases hlarge : sizeLimit ≤ number digits
    · rw [if_pos hlarge]
      constructor
      · intro h
        cases h
      · intro h
        cases h with
        | absent => exact absurd rfl hnil
        | present h =>
            rw [← (numeral_iff.mp h.1).2.2] at hlarge
            exact absurd h.2 (Nat.not_lt.mpr hlarge)
    · rw [if_neg hlarge]
      constructor
      · intro h
        cases h
        exact .present ⟨numeral_iff.mpr ⟨hnil, hdigits, rfl⟩, Nat.lt_of_not_le hlarge⟩
      · intro h
        cases h with
        | absent => exact absurd rfl hnil
        | present h => rw [(numeral_iff.mp h.1).2.2]

/-! ## One token -/

/-- What the parser makes of a token: the opcode has an entry in one of the two tables. -/
theorem Token.read {c : Char} {digits : List Char} {op : Operation}
    (h : Token (c :: digits) op) :
    Operation.bare? c = some op ∧ digits = []
      ∨ ∃ make size, Operation.sized? c = some make ∧ OptionalSize digits size
        ∧ ∀ position, make position size = .ok op := by
  cases h with
  | little | big | native | taggedFloat | taggedFloatAlias | signedVarint | unsignedVarint
  | terminatedString | varintString => exact Or.inl ⟨rfl, rfl⟩
  | singlePadding | bool | varintBits | varintBytes =>
      exact Or.inr ⟨_, none, rfl, .absent, fun _ => rfl⟩
  | padding h | bitArray h | zeroBits h | zeroBytes h | fixedString h | fixedBytes h =>
      exact Or.inr ⟨_, some _, rfl, .present h, fun _ => rfl⟩
  | fixedBits w h | countedBytes w h =>
      refine Or.inr ⟨_, some w.bytes, rfl, .present h, fun _ => ?_⟩
      exact except_map_eq_ok.mpr
        ⟨_, Operation.optionalPrefix_eq_ok.mpr (Or.inr ⟨w, rfl, rfl⟩), rfl⟩
  | defaultSigned w h | defaultUnsigned w h =>
      refine Or.inr ⟨_, none, rfl, .absent, fun _ => ?_⟩
      exact Operation.integerOf_eq_ok.mpr ⟨w, by rw [h]; rfl, rfl⟩
  | signed w h | unsigned w h =>
      refine Or.inr ⟨_, some (w.bytes * 8), rfl, .present h, fun _ => ?_⟩
      exact Operation.integerOf_eq_ok.mpr ⟨w, rfl, rfl⟩
  | defaultFloat => exact Or.inr ⟨_, none, rfl, .absent, fun _ => rfl⟩
  | float w h =>
      refine Or.inr ⟨_, some (w.bytes * 8), rfl, .present h, fun _ => ?_⟩
      exact Operation.floatOf_eq_ok.mpr ⟨w, rfl, rfl⟩
  | defaultString w h =>
      refine Or.inr ⟨_, none, rfl, .absent, fun _ => ?_⟩
      exact except_map_eq_ok.mpr ⟨_, Operation.fixedPrefix_eq_ok.mpr ⟨w, h.symm, rfl⟩, rfl⟩
  | string w h =>
      refine Or.inr ⟨_, some w.bytes, rfl, .present h, fun _ => ?_⟩
      exact except_map_eq_ok.mpr ⟨_, Operation.fixedPrefix_eq_ok.mpr ⟨w, rfl, rfl⟩, rfl⟩

theorem token_of_bare {c : Char} {op : Operation} (h : Operation.bare? c = some op) :
    Token [c] op := by
  unfold Operation.bare? at h
  split at h <;> cases h <;> constructor

theorem token_of_sized {c : Char} {make : Nat → Option Nat → Except Error Operation}
    (h : Operation.sized? c = some make) {digits : List Char} {size : Option Nat}
    (hsize : OptionalSize digits size) {position : Nat} {op : Operation}
    (hop : make position size = .ok op) : Token (c :: digits) op := by
  unfold Operation.sized? at h
  split at h
  · cases h
    cases hsize with
    | absent => cases hop; exact .singlePadding
    | present hn => cases hop; exact .padding hn
  · cases h
    cases hsize with
    | absent => cases hop; exact .bool
    | present hn => cases hop; exact .bitArray hn
  · cases h
    obtain ⟨p, hp, rfl⟩ := except_map_eq_ok.mp hop
    rcases Operation.optionalPrefix_eq_ok.mp hp with ⟨rfl | rfl, rfl⟩ | ⟨w, rfl, rfl⟩
    · cases hsize with
      | absent => exact .varintBits
    · cases hsize with
      | present hn => exact .zeroBits hn
    · cases hsize with
      | present hn => exact .fixedBits w hn
  · cases h
    obtain ⟨w, hbits, rfl⟩ := Operation.integerOf_eq_ok.mp hop
    cases hsize with
    | absent => exact .defaultSigned w (by rw [Option.getD_none] at hbits; omega)
    | present hn =>
        rw [Option.getD_some] at hbits
        exact .signed w (hbits ▸ hn)
  · cases h
    obtain ⟨w, hbits, rfl⟩ := Operation.integerOf_eq_ok.mp hop
    cases hsize with
    | absent => exact .defaultUnsigned w (by rw [Option.getD_none] at hbits; omega)
    | present hn =>
        rw [Option.getD_some] at hbits
        exact .unsigned w (hbits ▸ hn)
  · cases h
    obtain ⟨w, hbits, rfl⟩ := Operation.floatOf_eq_ok.mp hop
    cases hsize with
    | absent => cases w <;> first | exact .defaultFloat | cases hbits
    | present hn =>
        rw [Option.getD_some] at hbits
        exact .float w (hbits ▸ hn)
  · cases h
    obtain ⟨p, hp, rfl⟩ := except_map_eq_ok.mp hop
    obtain ⟨w, hn, rfl⟩ := Operation.fixedPrefix_eq_ok.mp hp
    cases hsize with
    | absent => exact .defaultString w hn.symm
    | present hsized =>
        rw [Option.getD_some] at hn
        exact .string w (hn ▸ hsized)
  · cases h
    obtain ⟨n, hn, rfl⟩ := except_map_eq_ok.mp hop
    cases Operation.required_eq_ok.mp hn
    cases hsize with
    | present hn => exact .fixedString hn
  · cases h
    obtain ⟨n, hn, rfl⟩ := except_map_eq_ok.mp hop
    cases Operation.required_eq_ok.mp hn
    cases hsize with
    | present hn => exact .fixedBytes hn
  · cases h
    obtain ⟨p, hp, rfl⟩ := except_map_eq_ok.mp hop
    rcases Operation.optionalPrefix_eq_ok.mp hp with ⟨rfl | rfl, rfl⟩ | ⟨w, rfl, rfl⟩
    · cases hsize with
      | absent => exact .varintBytes
    · cases hsize with
      | present hn => exact .zeroBytes hn
    · cases hsize with
      | present hn => exact .countedBytes w hn
  · cases h

/-! ## Steps of the parser -/

theorem not_digit_of_blank {c : Char} (h : isBlank c = true) : c.isDigit = false := by
  simp only [isBlank, Bool.or_eq_true, decide_eq_true_eq] at h
  rcases h with (((rfl | rfl) | rfl) | rfl) | rfl <;> rfl

theorem not_blank_of_bare {c : Char} {op : Operation} (h : Operation.bare? c = some op) :
    isBlank c = false := by
  unfold Operation.bare? at h
  split at h <;> first | rfl | cases h

theorem not_blank_of_sized {c : Char} {make : Nat → Option Nat → Except Error Operation}
    (h : Operation.sized? c = some make) : isBlank c = false := by
  unfold Operation.sized? at h
  split at h <;> first | rfl | cases h

theorem not_bare_of_sized {c : Char} {make : Nat → Option Nat → Except Error Operation}
    (h : Operation.sized? c = some make) : Operation.bare? c = none := by
  unfold Operation.sized? at h
  split at h <;> first | rfl | cases h

section
variable {position : Nat} {before : List Operation} {c : Char} {rest : List Char}

theorem parseFrom_nil : parseFrom position before [] = .ok before.reverse := by
  rw [parseFrom]

theorem parseFrom_blank (h : isBlank c = true) :
    parseFrom position before (c :: rest) = parseFrom (position + 1) before rest := by
  rw [parseFrom, if_pos h]

theorem parseFrom_bare {op : Operation} (h : Operation.bare? c = some op) :
    parseFrom position before (c :: rest) = parseFrom (position + 1) (op :: before) rest := by
  rw [parseFrom, if_neg (by simp [not_blank_of_bare h]), h]

/-- An opcode takes all the digits behind it, and looks no further. -/
theorem parseFrom_sized {make : Nat → Option Nat → Except Error Operation}
    (h : Operation.sized? c = some make) {digits : List Char}
    (hdigits : ∀ d ∈ digits, d.isDigit = true)
    (hrest : ∀ d, rest.head? = some d → d.isDigit = false) :
    parseFrom position before (c :: (digits ++ rest)) = (do
      let size ← size? (position + 1) digits
      let op ← make position size
      parseFrom (position + 1 + digits.length) (op :: before) rest) := by
  have hstop : rest.takeWhile Char.isDigit = [] ∧ rest.dropWhile Char.isDigit = rest := by
    cases rest with
    | nil => exact ⟨rfl, rfl⟩
    | cons d rest => simp [hrest d rfl]
  have htake : (digits ++ rest).takeWhile Char.isDigit = digits := by
    rw [List.takeWhile_append_of_pos hdigits, hstop.1, List.append_nil]
  have hdrop : (digits ++ rest).dropWhile Char.isDigit = rest := by
    rw [List.dropWhile_append_of_pos hdigits, hstop.2]
  rw [parseFrom, if_neg (by simp [not_blank_of_sized h]), not_bare_of_sized h, h]
  simp only [htake, hdrop]

end

/-! ## Texts -/

/-- No digit stands where a token could begin. -/
theorem Spells.not_digit {text : List Char} {ops : List Operation} (h : Spells text ops) :
    ∀ c, text.head? = some c → c.isDigit = false := by
  cases h with
  | empty => exact fun c hc => (by cases hc)
  | blank hblank _ =>
      intro c hc
      cases hc
      exact not_digit_of_blank hblank
  | @token first text op ops htoken _ =>
      intro c hc
      cases first with
      | nil => exact absurd rfl htoken.ne_nil
      | cons d digits =>
          cases hc
          exact htoken.not_digit

theorem parseFrom_of_spells {text : List Char} {ops : List Operation} (h : Spells text ops)
    (position : Nat) (before : List Operation) :
    parseFrom position before text = .ok (before.reverse ++ ops) := by
  induction h generalizing position before with
  | empty => rw [parseFrom_nil, List.append_nil]
  | blank hblank _ ih => rw [parseFrom_blank hblank, ih]
  | @token first text op ops htoken hrest ih =>
      have hops : (op :: before).reverse ++ ops = before.reverse ++ op :: ops := by simp
      cases first with
      | nil => exact absurd rfl htoken.ne_nil
      | cons c digits =>
          rcases htoken.read with ⟨hbare, rfl⟩ | ⟨make, size, hsized, hsize, hop⟩
          · rw [List.singleton_append, parseFrom_bare hbare, ih, hops]
          · rw [List.cons_append, parseFrom_sized hsized hsize.isDigit hrest.not_digit,
              (size?_eq_ok hsize.isDigit).mpr hsize, ← hops]
            exact except_bind_eq_ok.mpr
              ⟨size, rfl, except_bind_eq_ok.mpr ⟨op, hop position, ih _ _⟩⟩

theorem spells_of_parseFrom (position : Nat) (before : List Operation) (text : List Char)
    {ops : List Operation} (h : parseFrom position before text = .ok ops) :
    ∃ spelled, Spells text spelled ∧ ops = before.reverse ++ spelled := by
  fun_induction parseFrom position before text with
  | case1 position before =>
      cases h
      exact ⟨[], .empty, (List.append_nil _).symm⟩
  | case2 position before c rest hblank ih =>
      obtain ⟨spelled, hspells, rfl⟩ := ih h
      exact ⟨spelled, .blank hblank hspells, rfl⟩
  | case3 position before c rest hblank op hbare ih =>
      obtain ⟨spelled, hspells, rfl⟩ := ih h
      exact ⟨op :: spelled, .token (token_of_bare hbare) hspells, by simp⟩
  | case4 position before c rest hblank hbare make hsized digits ih =>
      obtain ⟨size, hsize, h⟩ := except_bind_eq_ok.mp h
      obtain ⟨op, hop, h⟩ := except_bind_eq_ok.mp h
      have hdigits : ∀ d ∈ digits, d.isDigit = true := fun d hd => List.mem_takeWhile_imp hd
      have htoken := token_of_sized hsized ((size?_eq_ok hdigits).mp hsize) hop
      obtain ⟨spelled, hspells, rfl⟩ := ih op h
      have hsplit : c :: rest = (c :: digits) ++ rest.dropWhile Char.isDigit := by
        rw [List.cons_append, List.takeWhile_append_dropWhile]
      rw [hsplit]
      exact ⟨op :: spelled, .token htoken hspells, by simp⟩
  | case5 position before c rest hblank hbare hsized => cases h

/-- Parsing yields the operations that the text spells, behind those it started with. -/
theorem parseFrom_eq_ok_iff {position : Nat} {before : List Operation} {text : List Char}
    {ops : List Operation} :
    parseFrom position before text = .ok ops ↔
      ∃ spelled, Spells text spelled ∧ ops = before.reverse ++ spelled := by
  constructor
  · exact spells_of_parseFrom position before text
  · rintro ⟨spelled, hspells, rfl⟩
    exact parseFrom_of_spells hspells position before

theorem parse_eq_ok_iff {text : String} {format : Format} :
    parse text = .ok format ↔ Spells text.toList format.operations := by
  obtain ⟨ops⟩ := format
  unfold parse
  constructor
  · intro h
    obtain ⟨ops', hops, h⟩ := except_bind_eq_ok.mp h
    cases h
    obtain ⟨spelled, hspells, rfl⟩ := parseFrom_eq_ok_iff.mp hops
    exact hspells
  · intro h
    exact except_bind_eq_ok.mpr ⟨ops, parseFrom_of_spells h 0 [], rfl⟩

/-- A text parses to the operations that it spells, and fails if it spells none. -/
theorem parse_iff_spells (text : String) :
    (∀ format, parse text = .ok format ↔ Spells text.toList format.operations)
      ∧ ((∃ err, parse text = .error err) ↔ ∀ ops, ¬Spells text.toList ops) := by
  refine ⟨fun format => parse_eq_ok_iff, ?_, ?_⟩
  · rintro ⟨err, herr⟩ ops hspells
    have hok : parse text = .ok ⟨ops⟩ := parse_eq_ok_iff.mpr hspells
    rw [herr] at hok
    cases hok
  · intro hnone
    cases hparse : parse text with
    | ok format => exact absurd (parse_eq_ok_iff.mp hparse) (hnone format.operations)
    | error err => exact ⟨err, rfl⟩

/-- Digits belong to the opcode before them, all of them and across no blank. -/
example : parse "bb0\tx007i" = .ok ⟨[.bool, .bitArray 0, .padding 7,
      .integer ⟨4, by decide, by decide⟩ true]⟩
    ∧ parse "b 0" = .error (.unknownOpcode '0' 2) := by
  decide +kernel

end Format
end PackedRecord
