import PackedRecord.Proofs.CharacterForms
import PackedRecord.Proofs.TightFields

/-!
# Buffers for text

A buffer of a fixed size keeps whole characters only. Which ones they are can
be found from the bytes alone (`cut?`): cut where the room ends, and if that is
inside a character, go back until a byte begins one. The places where bytes of
a text can be cut are the ends of its beginnings (`isBoundary_encode_iff`), so
the way back stops at the end of the longest beginning that fits, and the first
byte stops it at the latest (`cut?_encode`).

Zeros at the end of what is kept are lost in the filling, and nothing else is:
a text comes back exactly if it fits and does not end in a zero character.
-/

namespace PackedRecord.StringField
open Utf8

/-! ## Where a text can be cut -/

/-- Whether a character begins at `i`, or the bytes end there. -/
def isBoundary (content : List UInt8) (i : Nat) : Bool :=
  match content[i]? with
  | some b => !isContinuation b
  | none => i = content.length

/-- The last boundary that is not behind `i`, looked for downwards. -/
def lastBoundary? (content : List UInt8) : (i : Nat) → Option Nat
  | 0 => if isBoundary content 0 then some 0 else none
  | i + 1 => if isBoundary content (i + 1) then some (i + 1) else lastBoundary? content i

/-- The bytes up to the last boundary that leaves no more than there is room
for; none if the search for it runs below zero. -/
def cut? (room : Nat) (content : List UInt8) : Option (List UInt8) :=
  if content.length ≤ room then some content
  else (lastBoundary? content room).map content.take

theorem lastBoundary?_eq_some {content : List UInt8} {i j : Nat} (hle : j ≤ i)
    (hboundary : isBoundary content j = true)
    (hlast : ∀ m, j < m → m ≤ i → isBoundary content m = false) :
    lastBoundary? content i = some j := by
  induction i with
  | zero =>
      obtain rfl := Nat.le_zero.mp hle
      rw [lastBoundary?, if_pos hboundary]
  | succ i ih =>
      rw [lastBoundary?]
      rcases Nat.lt_or_eq_of_le hle with hlt | rfl
      · rw [hlast (i + 1) hlt (Nat.le_refl _), if_neg Bool.false_ne_true]
        exact ih (Nat.le_of_lt_succ hlt) fun m hm hmi => hlast m hm (Nat.le_succ_of_le hmi)
      · rw [if_pos hboundary]

theorem isBoundary_append (p content : List UInt8) (k : Nat) :
    isBoundary (p ++ content) (p.length + k) = isBoundary content k := by
  have hget : (p ++ content)[p.length + k]? = content[k]? := by
    rw [List.getElem?_append_right (Nat.le_add_right _ _), Nat.add_sub_cancel_left]
  rw [isBoundary, isBoundary, hget, List.length_append]
  cases content[k]? with
  | some b => rfl
  | none => simp

theorem isBoundary_encode_zero (text : List Char) : isBoundary (encode text) 0 = true := by
  cases text with
  | nil => rfl
  | cons c text =>
      obtain ⟨b, tail, hc, hb, -, -⟩ := (form_encodeChar c).first
      rw [encode_cons, hc]
      simp [isBoundary, hb]

/-- A character cannot be cut. -/
theorem isBoundary_inside {c : Char} {i : Nat} (hpos : 0 < i) (hlt : i < (encodeChar c).length)
    (rest : List UInt8) : isBoundary (encodeChar c ++ rest) i = false := by
  obtain ⟨b, tail, hc, -, -, htail⟩ := (form_encodeChar c).first
  have hget : (encodeChar c ++ rest)[i]? = some (encodeChar c)[i] := by
    rw [List.getElem?_append_left hlt, List.getElem?_eq_getElem hlt]
  have hmem : (encodeChar c)[i] ∈ tail := by
    obtain ⟨k, rfl⟩ := Nat.exists_eq_succ_of_ne_zero (Nat.ne_of_gt hpos)
    simp only [hc, List.getElem_cons_succ]
    exact List.getElem_mem _
  rw [isBoundary, hget]
  simp [htail _ hmem]

/-- A beginning that is not empty has the whole first character. -/
theorem exists_prefix_cons_iff {c : Char} {text : List Char} {i : Nat} (hpos : 0 < i) :
    (∃ t, t <+: c :: text ∧ (encode t).length = i)
      ↔ ∃ t, t <+: text ∧ (encodeChar c).length + (encode t).length = i := by
  constructor
  · rintro ⟨t, ht, rfl⟩
    cases t with
    | nil => exact absurd hpos (Nat.lt_irrefl 0)
    | cons d t =>
        obtain ⟨rfl, hrest⟩ := List.cons_prefix_cons.mp ht
        exact ⟨t, hrest, by rw [encode_cons, List.length_append]⟩
  · rintro ⟨t, ht, rfl⟩
    refine ⟨c :: t, List.cons_prefix_cons.mpr ⟨rfl, ht⟩, ?_⟩
    rw [encode_cons, List.length_append]

/-- The bytes of a text can be cut where one of its beginnings ends. -/
theorem isBoundary_encode_iff {text : List Char} {i : Nat} :
    isBoundary (encode text) i = true ↔ ∃ t, t <+: text ∧ (encode t).length = i := by
  induction text generalizing i with
  | nil =>
      constructor
      · intro h
        exact ⟨[], List.prefix_refl _, by simpa [isBoundary, encode, eq_comm] using h⟩
      · rintro ⟨t, ht, rfl⟩
        obtain rfl := List.prefix_nil.mp ht
        rfl
  | cons c text ih =>
      rcases Nat.eq_zero_or_pos i with rfl | hpos
      · exact ⟨fun _ => ⟨[], List.nil_prefix, rfl⟩, fun _ => isBoundary_encode_zero _⟩
      · rw [encode_cons, exists_prefix_cons_iff hpos]
        rcases Nat.lt_or_ge i (encodeChar c).length with hlt | hge
        · rw [isBoundary_inside hpos hlt]
          constructor
          · intro h
            cases h
          · rintro ⟨t, -, hlength⟩
            omega
        · obtain ⟨k, rfl⟩ := Nat.exists_eq_add_of_le hge
          rw [isBoundary_append, ih]
          simp only [Nat.add_left_cancel_iff]

theorem prefix_fitting (room : Nat) (text : List Char) : fitting room text <+: text :=
  (prefix_fitting_iff.mp (List.prefix_refl _)).1

/-- Going back from where the room ends finds what fits. -/
theorem cut?_encode (room : Nat) (text : List Char) :
    cut? room (encode text) = some (encode (fitting room text)) := by
  rw [cut?]
  split
  · next hle => rw [fitting_of_length_le hle]
  · have hfound : lastBoundary? (encode text) room = some (encode (fitting room text)).length := by
      refine lastBoundary?_eq_some (length_fitting_le room text)
        (isBoundary_encode_iff.mpr ⟨_, prefix_fitting room text, rfl⟩) fun m hm hle => ?_
      rw [← Bool.not_eq_true, isBoundary_encode_iff]
      rintro ⟨t, ht, rfl⟩
      have hkept : t <+: fitting room text := prefix_fitting_iff.mpr ⟨ht, hle⟩
      exact Nat.not_le_of_lt hm (prefix_encode hkept).length_le
    have hbegins : encode (fitting room text) <+: encode text :=
      prefix_encode (prefix_fitting room text)
    rw [hfound, Option.map_some, ← List.prefix_iff_eq_take.mp hbegins]

/-! ## What comes back -/

theorem withoutFinalZeros_eq_self_iff {text : List Char} :
    withoutFinalZeros text = text ↔ text.getLast? ≠ some '\x00' := by
  induction text using List.reverseRecOn with
  | nil => exact ⟨fun _ => nofun, fun _ => rfl⟩
  | append_singleton init c _ =>
      rw [List.getLast?_concat]
      by_cases hc : c = '\x00'
      · subst hc
        rw [withoutFinalZeros_append_zero]
        constructor
        · intro h
          have hshorter := withoutFinalZeros_prefix init
          have hle := hshorter.length_le
          rw [h, List.length_append, List.length_singleton] at hle
          omega
        · exact fun h => absurd rfl h
      · rw [withoutFinalZeros_append_of_ne hc]
        exact ⟨fun _ h => hc (Option.some.inj h), fun _ => rfl⟩

/-- A text comes back if there is room for it and no zero at its end. -/
theorem kept_eq_self_iff {size : Nat} {text : String} :
    String.ofList (withoutFinalZeros (fitting size text.toList)) = text
      ↔ (bytes text).length ≤ size ∧ text.toList.getLast? ≠ some '\x00' := by
  constructor
  · intro h
    have hlist : withoutFinalZeros (fitting size text.toList) = text.toList := by
      rw [← String.toList_ofList (l := withoutFinalZeros _), h]
    have hshorter := withoutFinalZeros_prefix (fitting size text.toList)
    have hle := hshorter.length_le
    rw [hlist] at hle
    have hall : fitting size text.toList = text.toList :=
      (prefix_fitting size text.toList).eq_of_length_le hle
    rw [hall] at hlist
    refine ⟨?_, withoutFinalZeros_eq_self_iff.mp hlist⟩
    have hroom := length_fitting_le size text.toList
    rwa [hall] at hroom
  · rintro ⟨hroom, hlast⟩
    rw [fitting_of_length_le hroom, withoutFinalZeros_eq_self_iff.mpr hlast, String.ofList_toList]

theorem encodeFixed_eq (size : Nat) (text : String) :
    encodeFixed size text = encode (fitting size text.toList)
      ++ List.replicate (size - (encode (fitting size text.toList)).length) 0 := by
  rw [encodeFixed, Blob.encodeFixed, List.take_of_length_le (length_fitting_le _ _)]

/-- A buffer that was read as a text is the buffer of that text. -/
theorem encodeFixed_of_decodeFixed {size p : Nat} {buffer behind : List UInt8} {text : String}
    {r' : Reader} (hlength : buffer.length = size)
    (h : decodeFixed size .strict ⟨p, buffer ++ behind⟩ = .ok text r') :
    encodeFixed size text = buffer := by
  obtain ⟨field, hrest, -, rfl⟩ := consumes_decodeFixed size h
  have hsame : (encodeFixed size text).length = buffer.length :=
    (length_encodeFixed size text).trans hlength.symm
  exact (List.append_inj_left hrest.symm hsame)

/-- The buffer is written behind what was written before, if there is room. -/
theorem writeFixed_of_fits {size : Nat} {output : List UInt8}
    (h : output.length + size < UInt64.size) (text : String) :
    writeFixed size text output = .ok () (output ++ encodeFixed size text) := by
  have hput : writeFixed size text output
      = .ok () (Operation.put (.fixedString size) output (encodeFixed size text)) :=
    Blob.writeFixed_eq size _ output rfl
  rw [hput, Operation.put_of_fits]
  rwa [length_encodeFixed]

/-- A buffer holds the longest run of leading characters there is room for,
which is where the search for a boundary stops, and zeros behind it. Reading
it gives that run without the zeros at its end, whatever the policy, and this
is what the buffer keeps. A buffer that reads as a text is the one written for it. -/
theorem buffer_keeps_whole_characters (size : Nat) (text : String) :
    (∀ output : List UInt8, output.length + size < UInt64.size →
        writeFixed size text output = .ok () (output ++ encodeFixed size text))
      ∧ (∃ kept, kept <+: text.toList ∧ (encode kept).length ≤ size
        ∧ (∀ other, other <+: text.toList → (encode other).length ≤ size → other <+: kept)
        ∧ cut? size (bytes text) = some (encode kept)
        ∧ encodeFixed size text
          = encode kept ++ List.replicate (size - (encode kept).length) 0
        ∧ (encodeFixed size text).length = size
        ∧ (∀ policy before behind, ∃ r,
          Reader.start (before ++ (encodeFixed size text ++ behind)) before.length = .ok r
            ∧ decodeFixed size policy r
              = .ok (String.ofList (withoutFinalZeros kept)) ⟨before.length + size, behind⟩)
        ∧ encodeFixed size (String.ofList (withoutFinalZeros kept)) = encodeFixed size text
        ∧ (String.ofList (withoutFinalZeros kept) = text
          ↔ (bytes text).length ≤ size ∧ text.toList.getLast? ≠ some '\x00'))
      ∧ ∀ (buffer behind : List UInt8) (p : Nat) (t : String) (r' : Reader),
        buffer.length = size → decodeFixed size .strict ⟨p, buffer ++ behind⟩ = .ok t r' →
        encodeFixed size t = buffer := by
  refine ⟨fun output h => writeFixed_of_fits h text,
    ⟨fitting size text.toList, prefix_fitting _ _, length_fitting_le _ _, ?_,
      cut?_encode size text.toList, encodeFixed_eq size text, length_encodeFixed size text, ?_,
      encodeFixed_kept size text, kept_eq_self_iff⟩, ?_⟩
  · exact fun other hbegins hroom => prefix_fitting_iff.mpr ⟨hbegins, hroom⟩
  · intro policy before behind
    have hread := reads_decodeFixed size policy text before.length behind
    rw [length_encodeFixed] at hread
    exact ⟨_, Reader.start_append before _, hread⟩
  · exact fun buffer behind p t r' hlength h => encodeFixed_of_decodeFixed hlength h

/-- A letter of two bytes in a buffer that ends inside it, and a buffer with a zero
between its letters. -/
theorem buffer_keeps_whole_characters_sample :
    encodeFixed 2 "aé" = [0x61, 0] ∧ [0x61, 0, 0x62, 0].length = 4
      ∧ decodeFixed 4 .strict ⟨7, [0x61, 0, 0x62, 0] ++ [9]⟩ = .ok "a\x00b" ⟨11, [9]⟩
      ∧ encodeFixed 4 "a\x00b" = [0x61, 0, 0x62, 0] := by
  obtain ⟨-, ⟨kept, -, -, -, hcut, hbytes, -⟩, -⟩ := buffer_keeps_whole_characters 2 "aé"
  obtain ⟨-, -, hback⟩ := buffer_keeps_whole_characters 4 "a"
  have hsearch : cut? 2 (bytes "aé") = some [0x61] := by decide +kernel
  have hkept : encode kept = [0x61] := Option.some.inj (hcut.symm.trans hsearch)
  rw [hkept] at hbytes
  have hreads : Read.Reads (decodeFixed 4 .strict) [0x61, 0, 0x62, 0] "a\x00b" :=
    reads_text stripZeros rfl (by decide +kernel)
  exact ⟨hbytes, rfl, hreads 7 [9], hback _ _ 7 _ _ rfl (hreads 7 [9])⟩

end PackedRecord.StringField
