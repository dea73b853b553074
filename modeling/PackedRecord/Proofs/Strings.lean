import Mathlib.Data.List.DropRight
import PackedRecord.Proofs.Sequences
import PackedRecord.Proofs.Utf8

/-!
# String fields

Reading a string is finding its bytes and reading them as UTF-8, and only
the first half depends on the field. A zero closes a string exactly if none
stands inside it, which for the bytes of a text means that the text has no
zero character. A buffer keeps the longest run of leading characters that
fits (`prefix_fitting_iff`); zeros at its end cannot be told from its
filling, and stripping the zero bytes is stripping the zero characters
(`stripZeros_encode`), because no other character has a zero byte.
-/

namespace PackedRecord.StringField

/-! ## Closed by a zero -/

theorem untilZero_closed {content rest : List UInt8} (h : (0 : UInt8) ∉ content) (p : Nat) :
    Read.untilZero ⟨p, content ++ 0 :: rest⟩
      = .ok (content, true) ⟨p + content.length + 1, rest⟩ := by
  have hne : ∀ b ∈ content, (b != 0) = true := by
    intro b hb
    exact bne_iff_ne.mpr fun h0 => h (h0 ▸ hb)
  simp only [Read.untilZero, List.dropWhile_append_of_pos hne, List.takeWhile_append_of_pos hne]
  simp

theorem untilZero_open {content : List UInt8} (h : (0 : UInt8) ∉ content) (p : Nat) :
    Read.untilZero ⟨p, content⟩ = .ok (content, false) ⟨p + content.length, []⟩ := by
  have hne : ∀ b ∈ content, (b != 0) = true := by
    intro b hb
    exact bne_iff_ne.mpr fun h0 => h (h0 ▸ hb)
  have hdrop : content.dropWhile (· != 0) = [] := List.dropWhile_eq_nil_iff.mpr hne
  have htake : content.takeWhile (· != 0) = content := List.takeWhile_eq_self_iff.mpr hne
  simp only [Read.untilZero, hdrop, htake]

theorem decodeTerminated_closed (options : Options) {content rest : List UInt8}
    (h : (0 : UInt8) ∉ content) (p : Nat) :
    decodeTerminated options ⟨p, content ++ 0 :: rest⟩
      = Read.ofExcept (Utf8.read options.invalidUtf8 p content) ⟨p + content.length + 1, rest⟩ := by
  rw [decodeTerminated, Read.position_bind, bind_of_ok (untilZero_closed h p)]
  rfl

theorem decodeTerminated_open (options : Options) {content : List UInt8}
    (h : (0 : UInt8) ∉ content) (p : Nat) :
    decodeTerminated options ⟨p, content⟩
      = if options.unterminatedStrings = .reject then
          .error (.unterminatedString p) ⟨p + content.length, []⟩
        else Read.ofExcept (Utf8.read options.invalidUtf8 p content) ⟨p + content.length, []⟩ := by
  rw [decodeTerminated, Read.position_bind, bind_of_ok (untilZero_open h p)]
  by_cases hreject : options.unterminatedStrings = .reject
  · simp [hreject, Read.fail]
  · simp [hreject]

theorem reads_decodeTerminated (options : Options) {text : String} (h : '\x00' ∉ text.toList) :
    Read.Reads (decodeTerminated options) (encodeTerminated text) text := by
  have hzero : (0 : UInt8) ∉ Utf8.bytes text := fun hmem => h (Utf8.zero_mem_encode.mp hmem)
  intro p rest
  rw [encodeTerminated, List.append_assoc, List.singleton_append, decodeTerminated_closed _ hzero,
    Utf8.read_bytes]
  simp [Read.ofExcept, Nat.add_assoc]

theorem delimited_decodeTerminated {options : Options}
    (hreject : options.unterminatedStrings = .reject) :
    Read.Delimited (decodeTerminated options) := by
  intro r r' text h
  obtain ⟨p, rest⟩ := r
  by_cases hmem : (0 : UInt8) ∈ rest
  · obtain ⟨content, after, rfl, hcontent⟩ := List.eq_append_cons_of_mem hmem
    rw [decodeTerminated_closed options hcontent] at h
    cases hread : Utf8.read options.invalidUtf8 p content with
    | error e =>
        rw [hread] at h
        cases h
    | ok s =>
        rw [hread] at h
        cases h
        refine ⟨content ++ [0], by simp, by simp [Nat.add_assoc], ?_, ?_⟩
        · intro q suffix
          rw [List.append_assoc, List.singleton_append, decodeTerminated_closed options hcontent,
            Utf8.read_offset q hread]
          simp [Read.ofExcept, Nat.add_assoc]
        · intro q begun missing hsplit hne
          -- What is missing includes the zero, so none is left to be found.
          have hbegun : (0 : UInt8) ∉ begun := by
            intro hin
            obtain ⟨init, last, rfl⟩ := (List.eq_nil_or_concat missing).resolve_left hne
            rw [List.concat_eq_append, ← List.append_assoc] at hsplit
            have hinit := (List.append_inj' hsplit rfl).1
            exact hcontent (hinit ▸ List.mem_append_left _ hin)
          exact ⟨_, _, by rw [decodeTerminated_open options hbegun, if_pos hreject], rfl⟩
  · rw [decodeTerminated_open options hmem, if_pos hreject] at h
    cases h

theorem ofExcept_eq_ok {result : Except Error String} {r r' : Reader} {text : String}
    (h : Read.ofExcept result r = .ok text r') : result = .ok text := by
  cases result with
  | ok s =>
      cases h
      rfl
  | error e => cases h

/-- Whether or not a zero closes it, what is read has none inside. -/
theorem read_of_decodeTerminated {options : Options} {r r' : Reader} {text : String}
    (h : decodeTerminated options r = .ok text r') :
    ∃ content, (0 : UInt8) ∉ content
      ∧ Utf8.read options.invalidUtf8 r.position content = .ok text := by
  obtain ⟨p, rest⟩ := r
  by_cases hmem : (0 : UInt8) ∈ rest
  · obtain ⟨content, after, rfl, hcontent⟩ := List.eq_append_cons_of_mem hmem
    rw [decodeTerminated_closed options hcontent] at h
    exact ⟨content, hcontent, ofExcept_eq_ok h⟩
  · rw [decodeTerminated_open options hmem] at h
    split at h
    · cases h
    · exact ⟨rest, hmem, ofExcept_eq_ok h⟩

theorem zero_not_mem_of_decodeTerminated {options : Options}
    (hstrict : options.invalidUtf8 = .strict) {r r' : Reader} {text : String}
    (h : decodeTerminated options r = .ok text r') :
    '\x00' ∉ text.toList := by
  obtain ⟨content, hcontent, hread⟩ := read_of_decodeTerminated h
  rw [hstrict] at hread
  rw [Utf8.bytes_of_read hread] at hcontent
  exact fun hmem => hcontent (Utf8.zero_mem_encode.mpr hmem)

/-! ## Of a known length

Both the other fields read a number of bytes and then a text from some of
them, `view`; the position of those bytes is for the message only. -/

section
variable {policy : Utf8Policy} {n : Nat} (view : List UInt8 → List UInt8)

theorem reads_text {content : List UInt8} {text : String} (hlength : content.length = n)
    (hview : view content = Utf8.bytes text) :
    Read.Reads (Read.position >>= fun start =>
      Read.bytes n >>= fun content => Read.ofExcept (Utf8.read policy start (view content)))
      content text := by
  refine Read.Reads.position fun start => ?_
  have hread : Read.Reads (Read.ofExcept (Utf8.read policy start (view content))) [] text := by
    rw [hview, Utf8.read_bytes]
    exact Read.Reads.ofExcept text
  have hreads := (Read.Reads.bytes hlength).bind
    (f := fun content => Read.ofExcept (Utf8.read policy start (view content))) hread
  rwa [List.append_nil] at hreads

theorem delimited_text :
    Read.Delimited (Read.position >>= fun start =>
      Read.bytes n >>= fun content => Read.ofExcept (Utf8.read policy start (view content))) := by
  refine Read.Delimited.position ?_ ?_
  · intro start
    exact (Read.Delimited.bytes n).bind fun content => Read.Delimited.ofExcept _
  · intro p q r r' text h
    obtain ⟨content, r₁, hcontent, hread⟩ := bind_eq_ok.mp h
    refine bind_eq_ok.mpr ⟨content, r₁, hcontent, ?_⟩
    have hp := ofExcept_eq_ok hread
    rw [hp] at hread
    rw [Utf8.read_offset q hp]
    exact hread

theorem view_of_text {r r' : Reader} {text : String}
    (h : (Read.position >>= fun start =>
      Read.bytes n >>= fun content => Read.ofExcept (Utf8.read .strict start (view content))) r
        = .ok text r') :
    ∃ content : List UInt8, content.length = n ∧ view content = Utf8.bytes text := by
  rw [Read.position_bind] at h
  obtain ⟨content, r₁, hcontent, hread⟩ := bind_eq_ok.mp h
  exact ⟨content, Read.length_of_bytes hcontent, Utf8.bytes_of_read (ofExcept_eq_ok hread)⟩

end

/-! ## Behind a length -/

theorem encodeCounted_eq (p : LengthPrefix) (order : ByteOrder) (text : String) :
    encodeCounted p order text
      = (p.check (Utf8.bytes text).length).map fun _ =>
        p.field order (Utf8.bytes text).length ++ Utf8.bytes text :=
  Blob.encodeCounted_eq p order (Utf8.bytes text)

theorem reads_decodeCounted {p : LengthPrefix} {text : String} (order : ByteOrder)
    (policy : Utf8Policy) (hcheck : p.check (Utf8.bytes text).length = .ok ())
    (h : (Utf8.bytes text).length < UInt64.size) :
    Read.Reads (decodeCounted p order policy)
      (p.field order (Utf8.bytes text).length ++ Utf8.bytes text) text :=
  (LengthPrefix.reads_decode order hcheck h).bind (reads_text id rfl rfl)

theorem delimited_decodeCounted (p : LengthPrefix) (order : ByteOrder) (policy : Utf8Policy) :
    Read.Delimited (decodeCounted p order policy) :=
  (p.delimited_decode order).bind fun _ => delimited_text id

theorem check_of_decodeCounted {p : LengthPrefix} {order : ByteOrder} {r r' : Reader}
    {text : String} (h : decodeCounted p order .strict r = .ok text r') :
    p.check (Utf8.bytes text).length = .ok () ∧ (Utf8.bytes text).length < UInt64.size := by
  obtain ⟨length, r₁, hlength, htext⟩ := bind_eq_ok.mp h
  obtain ⟨content, hcontent, hview⟩ := view_of_text id htext
  rw [← hview, id, hcontent]
  exact LengthPrefix.check_of_decode hlength

/-! ## In a buffer -/

theorem fittingAfter_eq (before : List Char) (room : Nat) (text : List Char) :
    fittingAfter before room text = before.reverse ++ fitting room text := by
  induction text generalizing before room with
  | nil => simp [fittingAfter, fitting]
  | cons c rest ih =>
      simp only [fitting, fittingAfter]
      split
      · rw [ih, ih [c]]
        simp
      · simp

theorem fitting_cons (room : Nat) (c : Char) (rest : List Char) :
    fitting room (c :: rest) =
      if (Utf8.encodeChar c).length ≤ room then
        c :: fitting (room - (Utf8.encodeChar c).length) rest
      else [] := by
  rw [fitting, fittingAfter]
  split
  · rw [fittingAfter_eq]
    rfl
  · rfl

/-- The buffer keeps the longest run of leading characters that fits: the
runs it could keep are exactly the beginnings of the one it keeps. -/
theorem prefix_fitting_iff {room : Nat} {text t : List Char} :
    t <+: fitting room text ↔ t <+: text ∧ (Utf8.encode t).length ≤ room := by
  induction text generalizing room t with
  | nil =>
      have hnil : fitting room [] = [] := rfl
      rw [hnil]
      constructor
      · intro h
        obtain rfl := List.prefix_nil.mp h
        exact ⟨h, Nat.zero_le room⟩
      · exact fun h => h.1
  | cons c rest ih =>
      rw [fitting_cons]
      cases t with
      | nil => simp [Utf8.encode]
      | cons d t =>
          split
          · next hle =>
              simp only [List.cons_prefix_cons, ih, Utf8.encode_cons, List.length_append]
              constructor
              · rintro ⟨rfl, hpre, hlength⟩
                exact ⟨⟨rfl, hpre⟩, by omega⟩
              · rintro ⟨⟨rfl, hpre⟩, hlength⟩
                exact ⟨rfl, hpre, by omega⟩
          · next hgt =>
              simp only [List.prefix_nil, List.cons_prefix_cons, Utf8.encode_cons,
                List.length_append]
              constructor
              · intro h
                cases h
              · rintro ⟨⟨rfl, hpre⟩, hlength⟩
                omega

theorem length_fitting_le (room : Nat) (text : List Char) :
    (Utf8.encode (fitting room text)).length ≤ room :=
  (prefix_fitting_iff.mp (List.prefix_refl _)).2

theorem fitting_of_length_le {room : Nat} {text : List Char}
    (h : (Utf8.encode text).length ≤ room) :
    fitting room text = text := by
  have hkept := prefix_fitting_iff.mp (List.prefix_refl (fitting room text))
  have hall := prefix_fitting_iff.mpr ⟨List.prefix_refl text, h⟩
  exact hkept.1.eq_of_length (Nat.le_antisymm hkept.1.length_le hall.length_le)

theorem stripZeros_append_zero (content : List UInt8) :
    stripZeros (content ++ [0]) = stripZeros content :=
  List.rdropWhile_concat_pos _ _ _ rfl

theorem stripZeros_append_of_ne {b : UInt8} (h : b ≠ 0) (content : List UInt8) :
    stripZeros (content ++ [b]) = content ++ [b] :=
  List.rdropWhile_concat_neg _ _ _ (by simpa using h)

theorem withoutFinalZeros_append_zero (text : List Char) :
    withoutFinalZeros (text ++ ['\x00']) = withoutFinalZeros text :=
  List.rdropWhile_concat_pos _ _ _ rfl

theorem withoutFinalZeros_append_of_ne {c : Char} (h : c ≠ '\x00') (text : List Char) :
    withoutFinalZeros (text ++ [c]) = text ++ [c] :=
  List.rdropWhile_concat_neg _ _ _ (by simpa using h)

theorem withoutFinalZeros_prefix (text : List Char) : withoutFinalZeros text <+: text :=
  List.rdropWhile_prefix _ text

/-- The filling of a buffer is stripped with the zeros before it. -/
theorem stripZeros_exactly {size : Nat} {content : List UInt8} (h : content.length ≤ size) :
    stripZeros (exactly size 0 content) = stripZeros content := by
  rw [exactly, List.take_of_length_le h]
  induction size - content.length with
  | zero => rw [List.replicate_zero, List.append_nil]
  | succ n ih => rw [List.replicate_succ', ← List.append_assoc, stripZeros_append_zero, ih]

/-- Stripping takes away what filling puts back. -/
theorem exactly_stripZeros (size : Nat) (content : List UInt8) :
    exactly size 0 (stripZeros content) = exactly size 0 content := by
  induction content using List.reverseRecOn with
  | nil => rfl
  | append_singleton init b ih =>
      by_cases hb : b = 0
      · subst hb
        rw [stripZeros_append_zero, ih, exactly_concat_filling]
      · rw [stripZeros_append_of_ne hb]

theorem stripZeros_encode (text : List Char) :
    stripZeros (Utf8.encode text) = Utf8.encode (withoutFinalZeros text) := by
  induction text using List.reverseRecOn with
  | nil => rfl
  | append_singleton init c ih =>
      by_cases hc : c = '\x00'
      · subst hc
        have hzero : Utf8.encode ['\x00'] = [0] := by decide
        rw [Utf8.encode_append, hzero, stripZeros_append_zero, ih, withoutFinalZeros_append_zero]
      · -- The last byte of another character is no zero, so nothing is stripped.
        have hbytes : (0 : UInt8) ∉ Utf8.encode [c] := fun h =>
          hc (List.mem_singleton.mp (Utf8.zero_mem_encode.mp h)).symm
        rw [withoutFinalZeros_append_of_ne hc, Utf8.encode_append]
        rcases List.eq_nil_or_concat (Utf8.encode [c]) with hnil | ⟨most, last, hlast⟩
        · obtain ⟨b, tail, hchar, -⟩ := Utf8.piece_encodeChar c []
          rw [Utf8.encode_cons, hchar] at hnil
          cases hnil
        · rw [List.concat_eq_append] at hlast
          have hne : last ≠ 0 := fun h0 =>
            hbytes (by rw [hlast, h0]; exact List.mem_append_right _ (List.mem_singleton.mpr rfl))
          rw [hlast, ← List.append_assoc, stripZeros_append_of_ne hne]

theorem reads_decodeFixed (size : Nat) (policy : Utf8Policy) (text : String) :
    Read.Reads (decodeFixed size policy) (encodeFixed size text)
      (String.ofList (withoutFinalZeros (fitting size text.toList))) := by
  refine reads_text stripZeros ?_ ?_
  · rw [encodeFixed, Blob.encodeFixed_eq, length_exactly]
  · rw [encodeFixed, Blob.encodeFixed_eq, stripZeros_exactly (length_fitting_le _ _),
      stripZeros_encode, Utf8.bytes_ofList]

theorem delimited_decodeFixed (size : Nat) (policy : Utf8Policy) :
    Read.Delimited (decodeFixed size policy) :=
  delimited_text stripZeros

/-- The buffer of what a buffer keeps is the same buffer. -/
theorem encodeFixed_kept (size : Nat) (text : String) :
    encodeFixed size (String.ofList (withoutFinalZeros (fitting size text.toList)))
      = encodeFixed size text := by
  have hprefix := withoutFinalZeros_prefix (fitting size text.toList)
  have hfits : (Utf8.encode (withoutFinalZeros (fitting size text.toList))).length ≤ size :=
    (prefix_fitting_iff.mp hprefix).2
  rw [encodeFixed, encodeFixed, String.toList_ofList, fitting_of_length_le hfits,
    Blob.encodeFixed_eq, Blob.encodeFixed_eq, ← stripZeros_encode, exactly_stripZeros]

/-- A text that was read from a buffer is what the buffer keeps of it. -/
theorem kept_of_decodeFixed {size : Nat} {r r' : Reader} {text : String}
    (h : decodeFixed size .strict r = .ok text r') :
    String.ofList (withoutFinalZeros (fitting size text.toList)) = text := by
  obtain ⟨content, hlength, hview⟩ := view_of_text stripZeros h
  have hle : (Utf8.bytes text).length ≤ size := by
    rw [← hview, ← hlength]
    exact (List.rdropWhile_prefix _ content).length_le
  have hstripped : stripZeros (Utf8.bytes text) = Utf8.bytes text := by
    rw [← hview]
    exact List.rdropWhile_idempotent _ _
  have hsame : withoutFinalZeros text.toList = text.toList := by
    apply Utf8.encode_injective
    rw [← stripZeros_encode]
    exact hstripped
  rw [fitting_of_length_le hle, hsame, String.ofList_toList]

end PackedRecord.StringField
