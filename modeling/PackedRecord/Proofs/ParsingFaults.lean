import PackedRecord.Proofs.TextParts

/-!
# Where texts are at fault

A text that does not parse is right up to some place and wrong there. What can
be wrong at one place is a relation between what stands there and the error,
with no procedure in it (`Format.FaultAt`): no operation begins there, the size
does not fit 64 bits, or the opcode refuses it (`Operation.Refuses`). The parser
fails exactly if there is such a place, and with its error
(`Format.parseFrom_eq_error_iff`). There is at most one, since what stands before
it parses, and parsing it comes out the same whatever follows
(`Format.parseFrom_append`).

Everything before a fault has been parsed and is ASCII, so its place counts bytes
and characters alike. Whether a number is too large is said of the number as a whole;
reading it digit by digit within 64 bits comes to the same (`Format.limitedNumber_eq`).
-/

namespace PackedRecord

section
variable {ε α β : Type} {x : Except ε α} {e : ε}

theorem except_map_eq_error {g : α → β} : x.map g = .error e ↔ x = .error e := by
  cases x with
  | ok a => exact ⟨fun h => (by cases h), fun h => (by cases h)⟩
  | error e' => exact ⟨fun h => (by cases h; rfl), fun h => (by cases h; rfl)⟩

theorem except_bind_eq_error {f : α → Except ε β} :
    (x >>= f) = .error e ↔ x = .error e ∨ ∃ a, x = .ok a ∧ f a = .error e := by
  cases x with
  | ok a =>
      constructor
      · exact fun h => Or.inr ⟨a, rfl, h⟩
      · rintro (h | ⟨_, h, hf⟩)
        · cases h
        · cases h
          exact hf
  | error e' =>
      constructor
      · intro h
        cases h
        exact Or.inl rfl
      · rintro (h | ⟨_, h, _⟩)
        · cases h
          rfl
        · cases h

end

/-- The place in the format text that the error names. -/
def Error.textPosition? : Error → Option Nat
  | .unknownOpcode _ position | .missingSize _ position | .sizeTooLarge position => some position
  | _ => none

namespace Operation

/-- The opcodes that have no size. -/
def bareOpcodes : List Char := ['<', '>', '=', 'g', 'n', 'v', 'V', 'z', 'p']

theorem bare?_eq_none_iff {c : Char} : bare? c = none ↔ c ∉ bareOpcodes := by
  unfold bare?
  split <;> simp_all [bareOpcodes]

/-! ## Sizes that opcodes refuse -/

/-- There is no operation of the opcode `c` with this size. -/
inductive Refuses (position : Nat) (c : Char) : Option Nat → Error → Prop
  | missing (hc : c = 'c' ∨ c = 'a') : Refuses position c none (.missingSize c position)
  | integerWidth {bits : Nat} (hc : c = 'i' ∨ c = 'I')
      (h : ∀ w : ByteWidth, bits ≠ w.bytes * 8) :
      Refuses position c (some bits) (.invalidIntegerWidth bits)
  | floatWidth {bits : Nat} (hc : c = 'f') (h : ∀ w : FloatWidth, bits ≠ w.bytes * 8) :
      Refuses position c (some bits) (.invalidFloatWidth bits)
  | prefixWidth {n : Nat} (hc : c = 's' ∨ (c = 'B' ∨ c = 'A') ∧ n ≠ 0)
      (h : ∀ w : ByteWidth, n ≠ w.bytes) :
      Refuses position c (some n) (.invalidPrefixWidth c n)

theorem fixedPrefix_eq_error {opcode : Char} {n : Nat} {err : Error} :
    fixedPrefix opcode n = .error err ↔
      (∀ w : ByteWidth, n ≠ w.bytes) ∧ err = .invalidPrefixWidth opcode n := by
  unfold fixedPrefix
  cases hwidth : ByteWidth.ofNat? n with
  | some w => simp [ByteWidth.ofNat?_eq_some.mp hwidth]
  | none =>
      have hnone : ∀ w : ByteWidth, n ≠ w.bytes := fun w hw => by
        rw [ByteWidth.ofNat?_eq_some.mpr hw] at hwidth
        cases hwidth
      simp [hnone, eq_comm]

theorem optionalPrefix_eq_error {opcode : Char} {size : Option Nat} {err : Error} :
    optionalPrefix opcode size = .error err ↔
      ∃ n, size = some n ∧ n ≠ 0 ∧ (∀ w : ByteWidth, n ≠ w.bytes)
        ∧ err = .invalidPrefixWidth opcode n := by
  unfold optionalPrefix
  split
  · simp
  · simp
  · next n hn => simp [fixedPrefix_eq_error, show n ≠ 0 from hn]

theorem integerOf_eq_error {signed : Bool} {bits : Nat} {err : Error} :
    integerOf signed bits = .error err ↔
      (∀ w : ByteWidth, bits ≠ w.bytes * 8) ∧ err = .invalidIntegerWidth bits := by
  have hcause : ∀ {err}, integerOf signed bits = .error err → err = .invalidIntegerWidth bits := by
    intro err h
    unfold integerOf at h
    split at h
    · split at h <;> cases h
      rfl
    · cases h
      rfl
  constructor
  · intro h
    refine ⟨fun w hw => ?_, hcause h⟩
    rw [integerOf_eq_ok.mpr ⟨w, hw, rfl⟩] at h
    cases h
  · rintro ⟨hnone, rfl⟩
    cases h : integerOf signed bits with
    | ok op =>
        obtain ⟨w, hw, -⟩ := integerOf_eq_ok.mp h
        exact absurd hw (hnone w)
    | error err => rw [hcause h]

theorem floatOf_eq_error {bits : Nat} {err : Error} :
    floatOf bits = .error err ↔
      (∀ w : FloatWidth, bits ≠ w.bytes * 8) ∧ err = .invalidFloatWidth bits := by
  unfold floatOf
  cases hwidth : FloatWidth.ofBits? bits with
  | some w => simp [FloatWidth.ofBits?_eq_some.mp hwidth]
  | none =>
      have hnone : ∀ w : FloatWidth, bits ≠ w.bytes * 8 := fun w hw => by
        rw [FloatWidth.ofBits?_eq_some.mpr hw] at hwidth
        cases hwidth
      simp [hnone, eq_comm]

theorem required_eq_error {opcode : Char} {position : Nat} {size : Option Nat} {err : Error} :
    required opcode position size = .error err ↔
      size = none ∧ err = .missingSize opcode position := by
  cases size with
  | none => simp [required, eq_comm]
  | some n => simp [required]

section
variable {c : Char} {make : Nat → Option Nat → Except Error Operation} {position : Nat}
variable {size : Option Nat} {err : Error}

/-- An opcode that has no size given takes a default that it does not refuse. -/
theorem refuses_of_error (h : sized? c = some make) (herr : make position size = .error err) :
    Refuses position c size err := by
  unfold sized? at h
  split at h <;> cases h
  · cases herr
  · cases herr
  · obtain ⟨n, rfl, hn, hw, rfl⟩ := optionalPrefix_eq_error.mp (except_map_eq_error.mp herr)
    exact .prefixWidth (Or.inr ⟨Or.inl rfl, hn⟩) hw
  · obtain ⟨hw, rfl⟩ := integerOf_eq_error.mp herr
    cases size with
    | none => exact absurd rfl (hw ⟨4, by decide, by decide⟩)
    | some bits => exact .integerWidth (Or.inl rfl) hw
  · obtain ⟨hw, rfl⟩ := integerOf_eq_error.mp herr
    cases size with
    | none => exact absurd rfl (hw ⟨4, by decide, by decide⟩)
    | some bits => exact .integerWidth (Or.inr rfl) hw
  · obtain ⟨hw, rfl⟩ := floatOf_eq_error.mp herr
    cases size with
    | none => exact absurd rfl (hw .single)
    | some bits => exact .floatWidth rfl hw
  · obtain ⟨hw, rfl⟩ := fixedPrefix_eq_error.mp (except_map_eq_error.mp herr)
    cases size with
    | none => exact absurd rfl (hw ⟨4, by decide, by decide⟩)
    | some n => exact .prefixWidth (Or.inl rfl) hw
  · obtain ⟨rfl, rfl⟩ := required_eq_error.mp (except_map_eq_error.mp herr)
    exact .missing (Or.inl rfl)
  · obtain ⟨rfl, rfl⟩ := required_eq_error.mp (except_map_eq_error.mp herr)
    exact .missing (Or.inr rfl)
  · obtain ⟨n, rfl, hn, hw, rfl⟩ := optionalPrefix_eq_error.mp (except_map_eq_error.mp herr)
    exact .prefixWidth (Or.inr ⟨Or.inr rfl, hn⟩) hw

theorem error_of_refuses (h : sized? c = some make) (hrefuses : Refuses position c size err) :
    make position size = .error err := by
  cases hrefuses with
  | missing hc => rcases hc with rfl | rfl <;> cases h <;> rfl
  | integerWidth hc hw =>
      rcases hc with rfl | rfl <;> cases h <;> exact integerOf_eq_error.mpr ⟨hw, rfl⟩
  | floatWidth hc hw =>
      subst hc
      cases h
      exact floatOf_eq_error.mpr ⟨hw, rfl⟩
  | prefixWidth hc hw =>
      rcases hc with rfl | ⟨rfl | rfl, hn⟩ <;> cases h <;> refine except_map_eq_error.mpr ?_
      · exact fixedPrefix_eq_error.mpr ⟨hw, rfl⟩
      · exact optionalPrefix_eq_error.mpr ⟨_, rfl, hn, hw, rfl⟩
      · exact optionalPrefix_eq_error.mpr ⟨_, rfl, hn, hw, rfl⟩

theorem sized?_eq_error (h : sized? c = some make) :
    make position size = .error err ↔ Refuses position c size err :=
  ⟨refuses_of_error h, error_of_refuses h⟩

end

end Operation

namespace Format

/-! ## Numbers that are too large -/

theorem size?_eq_error {position : Nat} {digits : List Char} {err : Error}
    (hdigits : ∀ c ∈ digits, c.isDigit = true) :
    size? position digits = .error err ↔
      ∃ n, Numeral digits n ∧ sizeLimit ≤ n ∧ err = .sizeTooLarge position := by
  unfold size?
  constructor
  · intro h
    split at h
    · cases h
    next hne =>
    split at h
    · next hlarge =>
        cases h
        exact ⟨number digits, numeral_iff.mpr ⟨by simpa using hne, hdigits, rfl⟩, hlarge, rfl⟩
    · cases h
  · rintro ⟨n, hn, hlarge, rfl⟩
    obtain ⟨hne, -, rfl⟩ := numeral_iff.mp hn
    rw [if_neg (by simpa using hne), if_pos hlarge]

/-- The number, unless it is beyond the sizes. -/
def limited (n : Nat) : Option Nat := if n < sizeLimit then some n else none

theorem limited_of_lt {n : Nat} (h : n < sizeLimit) : limited n = some n := if_pos h

theorem limited_of_le {n : Nat} (h : sizeLimit ≤ n) : limited n = none :=
  if_neg (Nat.not_lt.mpr h)

/-- The number of a run of digits, where every product and every sum on the way has
to be within the sizes. -/
def limitedNumber (digits : List Char) : Option Nat :=
  digits.foldlM (fun n c => do
    let tenfold ← limited (10 * n)
    limited (tenfold + (c.toNat - '0'.toNat))) 0

theorem limited_append (n d : Nat) :
    (do
      let tenfold ← limited (10 * (← limited n))
      limited (tenfold + d)) = limited (10 * n + d) := by
  by_cases hn : n < sizeLimit
  · rw [limited_of_lt hn, Option.bind_eq_bind, Option.bind_some]
    by_cases htenfold : 10 * n < sizeLimit
    · rw [limited_of_lt htenfold]
      rfl
    · rw [limited_of_le (show sizeLimit ≤ 10 * n by omega),
        limited_of_le (show sizeLimit ≤ 10 * n + d by omega)]
      rfl
  · rw [limited_of_le (show sizeLimit ≤ n by omega),
      limited_of_le (show sizeLimit ≤ 10 * n + d by omega)]
    rfl

/-- No step on the way to a number within the sizes is beyond them, whatever zeros lead. -/
theorem limitedNumber_eq (digits : List Char) :
    limitedNumber digits = limited (number digits) := by
  induction digits using List.reverseRecOn with
  | nil => rfl
  | append_singleton init c ih =>
      rw [limitedNumber, List.foldlM_append, ← limitedNumber, ih, number_append,
        ← limited_append (number init)]
      simp only [List.foldlM_cons, List.foldlM_nil, bind_pure]

/-- Giving up at the first step that is beyond the sizes finds the same sizes and the
same numbers too large. -/
theorem size?_eq_limitedNumber {position : Nat} {digits : List Char} (h : digits ≠ []) :
    size? position digits
      = (limitedNumber digits).elim (.error (.sizeTooLarge position)) fun n => .ok (some n) := by
  rw [limitedNumber_eq, size?, if_neg (by simpa using h), limited]
  by_cases hlarge : sizeLimit ≤ number digits
  · rw [if_pos hlarge, if_neg (by omega)]
    rfl
  · rw [if_neg hlarge, if_pos (by omega)]
    rfl

/-! ## Faults -/

/-- What is wrong at `position`, where `tail` begins. -/
inductive FaultAt (position : Nat) : (tail : List Char) → Error → Prop
  /-- No operation begins so, and it is no blank. -/
  | unknownOpcode {c : Char} {rest : List Char} (hblank : isBlank c = false)
      (hbare : c ∉ Operation.bareOpcodes) (hsized : c ∉ Operation.sizedOpcodes) :
      FaultAt position (c :: rest) (.unknownOpcode c position)
  /-- All the digits behind the opcode together denote a number beyond the sizes. -/
  | sizeTooLarge {c : Char} {digits rest : List Char} {n : Nat}
      (hc : c ∈ Operation.sizedOpcodes) (hn : Numeral digits n)
      (hends : ∀ d, rest.head? = some d → d.isDigit = false) (hlarge : sizeLimit ≤ n) :
      FaultAt position (c :: (digits ++ rest)) (.sizeTooLarge (position + 1))
  /-- The opcode refuses the number that all the digits behind it denote, or cannot
  do without one. -/
  | refused {c : Char} {digits rest : List Char} {size : Option Nat} {err : Error}
      (hsize : OptionalSize digits size)
      (hends : ∀ d, rest.head? = some d → d.isDigit = false)
      (hrefuses : Operation.Refuses position c size err) :
      FaultAt position (c :: (digits ++ rest)) err

/-- The text, which starts at `position`, spells operations up to a fault. -/
def Fault (position : Nat) (text : List Char) (err : Error) : Prop :=
  ∃ head tail ops, text = head ++ tail ∧ Spells head ops ∧ Separate head tail
    ∧ FaultAt (position + head.length) tail err

section
variable {position : Nat} {text tail : List Char} {err : Error}

theorem FaultAt.fault (h : FaultAt position text err) : Fault position text err :=
  ⟨[], text, [], rfl, .empty, .nil, h⟩

theorem Spells.append {a b : List Char} {f g : List Operation} (ha : Spells a f)
    (hb : Spells b g) : Spells (a ++ b) (f ++ g) := by
  induction ha with
  | empty => exact hb
  | blank hblank _ ih => exact .blank hblank ih
  | token htoken _ ih =>
      rw [List.append_assoc]
      exact .token htoken ih

theorem Token.spells {first : List Char} {op : Operation} (h : Token first op) :
    Spells first [op] := by
  have hspells := Spells.token h .empty
  rwa [List.append_nil] at hspells

theorem Spells.fault_behind {front rest : List Char} {ops : List Operation}
    (hfront : Spells front ops) (hseparate : Separate front rest)
    (h : Fault (position + front.length) rest err) :
    Fault position (front ++ rest) err := by
  obtain ⟨head, tail, more, rfl, hhead, htail, hfault⟩ := h
  refine ⟨front ++ head, tail, ops ++ more, (List.append_assoc ..).symm, hfront.append hhead,
    htail.append ?_, ?_⟩
  · rintro rfl
    exact hseparate
  · rwa [List.length_append, ← Nat.add_assoc]

theorem Separate.of_unsized {c : Char} (hdigit : c.isDigit = false)
    (hsized : ∀ make, Operation.sized? c ≠ some make) : Separate [c] tail := by
  intro _ _ _ d hd
  obtain rfl : c = d := Option.some.inj hd
  exact ⟨hdigit, Operation.sized?_eq_none_iff.mp (Option.eq_none_iff_forall_ne_some.mpr hsized)⟩

theorem sized?_of_refuses {c : Char} {size : Option Nat}
    (h : Operation.Refuses position c size err) : ∃ make, Operation.sized? c = some make := by
  cases h with
  | missing hc => rcases hc with rfl | rfl <;> exact ⟨_, rfl⟩
  | integerWidth hc => rcases hc with rfl | rfl <;> exact ⟨_, rfl⟩
  | floatWidth hc => subst hc; exact ⟨_, rfl⟩
  | prefixWidth hc => rcases hc with rfl | ⟨rfl | rfl, -⟩ <;> exact ⟨_, rfl⟩

theorem parseFrom_of_faultAt (h : FaultAt position tail err) (before : List Operation) :
    parseFrom position before tail = .error err := by
  cases h with
  | unknownOpcode hblank hbare hsized =>
      exact parseFrom_unknown hblank (Operation.bare?_eq_none_iff.mpr hbare)
        (Operation.sized?_eq_none_iff.mpr hsized)
  | @sizeTooLarge c digits rest n hc hn hends hlarge =>
      have hdigits := (numeral_iff.mp hn).2.1
      obtain ⟨make, hsized⟩ := Operation.mem_sizedOpcodes_iff.mp hc
      rw [parseFrom_sized hsized hdigits hends]
      exact except_bind_eq_error.mpr (Or.inl ((size?_eq_error hdigits).mpr ⟨n, hn, hlarge, rfl⟩))
  | @refused c digits rest size err hsize hends hrefuses =>
      obtain ⟨make, hsized⟩ := sized?_of_refuses hrefuses
      rw [parseFrom_sized hsized hsize.isDigit hends]
      refine except_bind_eq_error.mpr (Or.inr ⟨size, (size?_eq_ok hsize.isDigit).mpr hsize, ?_⟩)
      exact except_bind_eq_error.mpr (Or.inl ((Operation.sized?_eq_error hsized).mpr hrefuses))

theorem fault_of_parseFrom (position : Nat) (before : List Operation) (text : List Char)
    (h : parseFrom position before text = .error err) : Fault position text err := by
  fun_induction parseFrom position before text with
  | case1 position before => cases h
  | case2 position before c rest hblank ih =>
      have hfront : Spells [c] [] := .blank hblank .empty
      have hunsized : ∀ make, Operation.sized? c ≠ some make := fun make hsized => by
        rw [not_blank_of_sized hsized] at hblank
        cases hblank
      exact hfront.fault_behind (.of_unsized (not_digit_of_blank hblank) hunsized) (ih h)
  | case3 position before c rest hblank op hbare ih =>
      have htoken := token_of_bare hbare
      have hunsized : ∀ make, Operation.sized? c ≠ some make := fun make hsized => by
        rw [not_bare_of_sized hsized] at hbare
        cases hbare
      exact htoken.spells.fault_behind (.of_unsized htoken.not_digit hunsized) (ih h)
  | case4 position before c rest hblank hbare make hsized digits ih =>
      have hdigits : ∀ d ∈ digits, d.isDigit = true := fun d hd => List.mem_takeWhile_imp hd
      have hends := not_digit_of_dropWhile rest
      have hsplit : c :: rest = c :: (digits ++ rest.dropWhile Char.isDigit) := by
        rw [List.takeWhile_append_dropWhile]
      rw [hsplit]
      -- The number is too large, or the opcode refuses it, or the fault is further on.
      rcases except_bind_eq_error.mp h with hsize | ⟨size, hsize, h⟩
      · obtain ⟨n, hn, hlarge, rfl⟩ := (size?_eq_error hdigits).mp hsize
        have hc := Operation.mem_sizedOpcodes_iff.mpr ⟨make, hsized⟩
        exact (FaultAt.sizeTooLarge hc hn hends hlarge).fault
      have hsize := (size?_eq_ok hdigits).mp hsize
      rcases except_bind_eq_error.mp h with hrefuses | ⟨op, hop, h⟩
      · exact (FaultAt.refused hsize hends
          ((Operation.sized?_eq_error hsized).mp hrefuses)).fault
      · have hfront : Spells (c :: digits) [op] := (token_of_sized hsized hsize hop).spells
        refine hfront.fault_behind (.of_not_digit hends) ?_
        have hfault := ih op h
        rwa [Nat.add_assoc, Nat.add_comm 1] at hfault
  | case5 position before c rest hblank hbare hsized =>
      cases h
      exact (FaultAt.unknownOpcode (by simpa using hblank)
        (Operation.bare?_eq_none_iff.mp hbare) (Operation.sized?_eq_none_iff.mp hsized)).fault

/-- Parsing fails at the first fault, and with no other error. -/
theorem parseFrom_eq_error_iff {before : List Operation} :
    parseFrom position before text = .error err ↔ Fault position text err := by
  constructor
  · exact fault_of_parseFrom position before text
  · rintro ⟨head, tail, ops, rfl, hspells, hseparate, hfault⟩
    rw [parseFrom_append position before head hseparate, parseFrom_of_spells hspells]
    exact parseFrom_of_faultAt hfault _

/-- The place that the error names is the one of the fault, or right behind the opcode there. -/
theorem FaultAt.place (h : FaultAt position tail err) {p : Nat} (hp : err.textPosition? = some p) :
    ∃ front rest, tail = front ++ rest ∧ Utf8.Ascii front ∧ p = position + front.length := by
  cases h with
  | unknownOpcode hblank hbare hsized =>
      cases hp
      exact ⟨[], _, rfl, fun c hc => absurd hc List.not_mem_nil, rfl⟩
  | @sizeTooLarge c digits rest n hc =>
      cases hp
      refine ⟨[c], digits ++ rest, rfl, fun d hd => ?_, rfl⟩
      obtain ⟨make, hsized⟩ := Operation.mem_sizedOpcodes_iff.mp hc
      rw [List.mem_singleton.mp hd]
      exact ascii_of_sized hsized
  | refused _ _ hrefuses =>
      cases hrefuses with
      | missing hc =>
          cases hp
          exact ⟨[], _, rfl, fun c hc => absurd hc List.not_mem_nil, rfl⟩
      | integerWidth | floatWidth | prefixWidth => cases hp

end

theorem parse_eq_error_iff {text : String} {err : Error} :
    parse text = .error err ↔ Fault 0 text.toList err := by
  have hfrom : parseFrom 0 [] text.toList = .error err ↔ Fault 0 text.toList err :=
    parseFrom_eq_error_iff
  rw [← hfrom, parse]
  constructor
  · intro h
    rcases except_bind_eq_error.mp h with h | ⟨ops, -, h⟩
    · exact h
    · cases h
  · exact fun h => except_bind_eq_error.mpr (Or.inl h)

theorem eq_append_of_toList {text : String} {head tail : List Char}
    (h : text.toList = head ++ tail) : text = String.ofList head ++ String.ofList tail := by
  rw [← String.ofList_toList (s := text), h, String.ofList_append]

/-- A text fails to parse exactly if it is right up to a fault, and with the error
of the fault. No digit at the fault belongs to an opcode before it. A place that the
error names is so many bytes, and so many characters, behind the beginning, and all of
these are ASCII. Whether a size is too large can be told digit by digit. -/
theorem parse_fails_at_fault (text : String) (err : Error) :
    (parse text = .error err ↔ ∃ head tail : String, text = head ++ tail
        ∧ (∃ format, parse head = .ok format) ∧ Separate head.toList tail.toList
        ∧ FaultAt (Utf8.bytes head).length tail.toList err)
      ∧ (∀ p, parse text = .error err → err.textPosition? = some p →
        ∃ front rest : String, text = front ++ rest ∧ Utf8.Ascii front.toList
          ∧ (Utf8.bytes front).length = p ∧ front.length = p)
      ∧ ∀ position digits, digits ≠ [] → size? position digits
        = (limitedNumber digits).elim (.error (.sizeTooLarge position)) fun n => .ok (some n) := by
  rw [parse_eq_error_iff]
  refine ⟨⟨?_, ?_⟩, ?_, fun position digits => size?_eq_limitedNumber⟩
  · rintro ⟨head, tail, ops, htext, hspells, hseparate, hfault⟩
    have hlength : (Utf8.bytes (String.ofList head)).length = 0 + head.length := by
      rw [Utf8.bytes, String.toList_ofList, hspells.ascii.length_encode, Nat.zero_add]
    refine ⟨String.ofList head, String.ofList tail, eq_append_of_toList htext, ⟨⟨ops⟩, ?_⟩, ?_, ?_⟩
    · rwa [parse_eq_ok_iff, String.toList_ofList]
    · rwa [String.toList_ofList, String.toList_ofList]
    · rwa [String.toList_ofList, hlength]
  · rintro ⟨head, tail, rfl, ⟨format, hformat⟩, hseparate, hfault⟩
    have hspells := parse_eq_ok_iff.mp hformat
    refine ⟨head.toList, tail.toList, _, String.toList_append, hspells, hseparate, ?_⟩
    rwa [Nat.zero_add, ← hspells.ascii.length_encode]
  · rintro p ⟨head, tail, ops, htext, hspells, -, hfault⟩ hp
    obtain ⟨front, rest, rfl, hfront, rfl⟩ := hfault.place hp
    have hascii : Utf8.Ascii (head ++ front) := by
      intro c hc
      rcases List.mem_append.mp hc with hc | hc
      · exact hspells.ascii c hc
      · exact hfront c hc
    have hlength : (head ++ front).length = 0 + head.length + front.length := by
      rw [List.length_append, Nat.zero_add]
    rw [← List.append_assoc] at htext
    refine ⟨String.ofList (head ++ front), String.ofList rest, eq_append_of_toList htext,
      ?_, ?_, ?_⟩
    · rwa [String.toList_ofList]
    · rw [Utf8.bytes, String.toList_ofList, hascii.length_encode, hlength]
    · rw [String.length_ofList, hlength]

/-- The text before a character that is no opcode parses. -/
theorem parse_fails_at_fault_sample :
    parse "<x07 éb" = .error (.unknownOpcode 'é' 5)
      ∧ ∃ front rest : String, "<x07 éb" = front ++ rest ∧ Utf8.Ascii front.toList
        ∧ (Utf8.bytes front).length = 5 ∧ front.length = 5 := by
  obtain ⟨hfails, hplace, -⟩ := parse_fails_at_fault "<x07 éb" (.unknownOpcode 'é' 5)
  have hhead : parse "<x07 " = .ok ⟨[.byteOrder .little, .padding 7]⟩ := by decide +kernel
  have hfault : FaultAt 5 "éb".toList (.unknownOpcode 'é' 5) :=
    .unknownOpcode (by decide) (by decide) (by decide)
  have hseparate : Separate "<x07 ".toList "éb".toList := .of_not_digit fun c hc => by
    cases hc
    rfl
  have h := hfails.mpr ⟨"<x07 ", "éb", rfl, ⟨_, hhead⟩, hseparate, hfault⟩
  exact ⟨h, hplace 5 h rfl⟩

/-- Leading zeros make no number too large, and the first fault is the one reported. -/
example : parse "x0018446744073709551615" = .ok ⟨[.padding 18446744073709551615]⟩
    ∧ parse "z x18446744073709551616 q" = .error (.sizeTooLarge 3)
    ∧ parse "z i012 q" = .error (.invalidIntegerWidth 12) := by
  decide +kernel

end Format
end PackedRecord
