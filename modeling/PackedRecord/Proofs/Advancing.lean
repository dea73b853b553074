import PackedRecord.Proofs.Records

/-!
# Readings go forward

Whatever a reading does, and whether it succeeds or fails, the reader it
leaves stands behind some bytes of the one it was given: it never goes back,
never goes beyond the data and never mixes up its position with the bytes
left (`Read.Advances`). The property passes through sequences, so the codecs
inherit it from the primitive readings, under every policy.

For a record it means that the next offset is one into the same data, with
exactly the data behind it left (`Format.record_at_next`), so the next record
can be read from there.
-/

namespace PackedRecord

/-- The reader stands behind some of the bytes of the other one. -/
def Reader.Follows (r' r : Reader) : Prop :=
  ∃ consumed, r.rest = consumed ++ r'.rest ∧ r'.position = r.position + consumed.length

namespace Reader.Follows

theorem refl (r : Reader) : Follows r r := ⟨[], rfl, rfl⟩

theorem trans {r r₁ r₂ : Reader} (h₂ : Follows r₂ r₁) (h₁ : Follows r₁ r) : Follows r₂ r := by
  obtain ⟨u, hu, hup⟩ := h₁
  obtain ⟨w, hw, hwp⟩ := h₂
  refine ⟨u ++ w, ?_, ?_⟩
  · rw [hu, hw, List.append_assoc]
  · rw [hwp, hup, List.length_append, Nat.add_assoc]

/-- A reader into data only moves to other places of the same data. -/
theorem eq_drop {data : List UInt8} {offset : Nat} {r : Reader} (hoffset : offset ≤ data.length)
    (h : Follows r ⟨offset, data.drop offset⟩) :
    offset ≤ r.position ∧ r.position ≤ data.length ∧ r.rest = data.drop r.position := by
  obtain ⟨consumed, hrest, hposition⟩ := h
  have hrest : data.drop offset = consumed ++ r.rest := hrest
  have hposition : r.position = offset + consumed.length := hposition
  have hlength := congrArg List.length hrest
  rw [List.length_drop, List.length_append] at hlength
  refine ⟨by omega, by omega, ?_⟩
  rw [hposition, ← List.drop_drop, hrest, List.drop_left]

end Reader.Follows

namespace Read

variable {α β : Type}

/-- The reader that a reading leaves, whatever comes of it. -/
def after (x : Read α) (r : Reader) : Reader :=
  match x r with
  | .ok _ r' | .error _ r' => r'

theorem after_of_ok {x : Read α} {r r' : Reader} {a : α} (h : x r = .ok a r') :
    after x r = r' := by
  rw [after, h]

theorem after_of_error {x : Read α} {r r' : Reader} {err : Error} (h : x r = .error err r') :
    after x r = r' := by
  rw [after, h]

/-- The reading leaves a reader behind the one it was given. -/
def Advances (x : Read α) : Prop := ∀ r, (after x r).Follows r

namespace Advances

theorem pure (a : α) : Advances (Pure.pure a : Read α) := Reader.Follows.refl

theorem fail (err : Error) : Advances (Read.fail err : Read α) := Reader.Follows.refl

theorem ofExcept (result : Except Error α) : Advances (Read.ofExcept result) := by
  cases result with
  | ok a => exact pure a
  | error err => exact fail err

theorem bind {x : Read α} {f : α → Read β} (hx : Advances x) (hf : ∀ a, Advances (f a)) :
    Advances (x >>= f) := by
  intro r
  have hfirst := hx r
  cases h : x r with
  | error err r₁ =>
      rw [after_of_error h] at hfirst
      rw [after_of_error (bind_of_error h)]
      exact hfirst
  | ok a r₁ =>
      rw [after_of_ok h] at hfirst
      rw [after, bind_of_ok h]
      exact (hf a r₁).trans hfirst

theorem map {x : Read α} (hx : Advances x) (g : α → β) :
    Advances (x >>= fun a => Pure.pure (g a)) :=
  hx.bind fun a => pure (g a)

theorem position : Advances Read.position := Reader.Follows.refl

theorem byte : Advances Read.byte := by
  rintro ⟨p, rest⟩
  cases rest with
  | nil => exact .refl _
  | cons b rest => exact ⟨[b], rfl, rfl⟩

/-- Both readings of a known length stay where they are or move by it. -/
private theorem of_length {x : Read α} {n : Nat} (g : List UInt8 → α)
    (hx : ∀ r, x r =
      if r.rest.length < n then .error (.unexpectedEnd r.position n r.rest.length) r
      else .ok (g (r.rest.take n)) ⟨r.position + n, r.rest.drop n⟩) : Advances x := by
  intro r
  by_cases h : r.rest.length < n
  · rw [after_of_error ((hx r).trans (if_pos h))]
    exact .refl r
  · rw [after_of_ok ((hx r).trans (if_neg h))]
    refine ⟨r.rest.take n, (List.take_append_drop n r.rest).symm, ?_⟩
    rw [List.length_take, Nat.min_eq_left (Nat.le_of_not_lt h)]

theorem bytes (n : Nat) : Advances (Read.bytes n) := of_length id (bytes_eq n)

theorem skip (n : Nat) : Advances (Read.skip n) := of_length (fun _ => ()) (skip_eq n)

theorem untilZero : Advances Read.untilZero := by
  intro r
  have hsplit := List.takeWhile_append_dropWhile (p := (· != 0)) (l := r.rest)
  unfold after Read.untilZero
  cases hrest : r.rest.dropWhile (· != 0) with
  | nil =>
      rw [hrest] at hsplit
      exact ⟨_, hsplit.symm, rfl⟩
  | cons zero rest =>
      rw [hrest] at hsplit
      refine ⟨r.rest.takeWhile (· != 0) ++ [zero], ?_, ?_⟩
      · rw [List.append_assoc, List.singleton_append, hsplit]
      · rw [List.length_append, List.length_singleton]
        rfl

end Advances
end Read

open Read (Advances)

/-! ## Fields -/

namespace Varint

theorem advances_decode : Advances decode := by
  rintro ⟨p, bytes⟩
  rcases decode_outcome p bytes with ⟨field, rest, hsplit, -, -, -, hread⟩ |
    ⟨opened, last, rest, hsplit, -, hlength, -, hread⟩ | ⟨-, -, hread⟩
  · rw [Read.after_of_ok hread]
    exact ⟨field, hsplit, rfl⟩
  · rw [Read.after_of_error hread]
    refine ⟨opened ++ [last], hsplit.trans (by simp), ?_⟩
    rw [List.length_append, hlength]
    rfl
  · rw [Read.after_of_error hread]
    exact ⟨bytes, (List.append_nil bytes).symm, rfl⟩

end Varint

theorem LengthPrefix.advances_decode (p : LengthPrefix) (order : ByteOrder) :
    Advances (p.decode order) := by
  cases p with
  | varint => exact Varint.advances_decode
  | fixed width => exact .map (.bytes width.bytes) _

theorem TaggedFloat.advances_decode : Advances decode := by
  refine .bind .position fun start => .bind .byte fun t => ?_
  split
  · exact .fail _
  · exact .pure 0
  · exact .map (.bytes _) _

namespace StringField

theorem advances_decodeTerminated (options : Options) : Advances (decodeTerminated options) := by
  refine .bind .position fun start => .bind .untilZero fun ⟨content, terminated⟩ => ?_
  simp only
  split
  · exact .fail _
  · exact .ofExcept _

theorem advances_decodeCounted (p : LengthPrefix) (order : ByteOrder) (policy : Utf8Policy) :
    Advances (decodeCounted p order policy) :=
  (p.advances_decode order).bind fun length => .bind .position fun _ =>
    .bind (.bytes length) fun _ => .ofExcept _

theorem advances_decodeFixed (size : Nat) (policy : Utf8Policy) :
    Advances (decodeFixed size policy) :=
  .bind .position fun _ => .bind (.bytes size) fun _ => .ofExcept _

end StringField

/-! ## Records -/

namespace Decoder

theorem advances_field (options : Options) (order : ByteOrder) (op : Operation) :
    Advances (field options order op) := by
  cases op with
  | byteOrder next => exact .pure none
  | padding n => exact .map (.skip n) fun _ => none
  | bool => exact .map (.map .byte _) _
  | bitArray count => exact .map (.map (.bytes _) _) _
  | countedBits p =>
      exact .map (.bind (p.advances_decode order) fun count => .map (.bytes _) _) _
  | integer width signed => exact .map (.map (.map (.bytes _) _) _) _
  | float width => exact .map (.map (.bytes _) _) _
  | taggedFloat => exact .map TaggedFloat.advances_decode _
  | signedVarint => exact .map (.map Varint.advances_decode _) _
  | unsignedVarint => exact .map Varint.advances_decode _
  | terminatedString => exact .map (StringField.advances_decodeTerminated options) _
  | countedString p => exact .map (StringField.advances_decodeCounted p order _) _
  | fixedString size => exact .map (StringField.advances_decodeFixed size _) _
  | fixedBytes size => exact .map (.bytes size) _
  | countedBytes p => exact .map (.bind (p.advances_decode order) fun length => .bytes length) _

theorem advances_record (options : Options) : ∀ (order : ByteOrder) (ops : List Operation),
    Advances (record options order ops)
  | _, [] => .pure []
  | order, op :: ops =>
      (advances_field options order op).bind fun v? =>
        .map (advances_record options (op.orderAfter order) ops) fun values => v?.toList ++ values

end Decoder

/-- Behind a record stands the reader that starts at its end. -/
theorem Format.record_at_next {format : Format} {data : List UInt8} {offset next : Nat}
    {options : Options} {values : List Value}
    (h : format.unpack data offset options = .ok ⟨values, next⟩) :
    offset ≤ data.length ∧ next ≤ data.length
      ∧ Decoder.record options .little format.operations ⟨offset, data.drop offset⟩
        = .ok values ⟨next, data.drop next⟩ := by
  obtain ⟨hoffset, rest, hrecord⟩ := unpack_eq_ok_iff.mp h
  have hfollows :=
    Decoder.advances_record options .little format.operations ⟨offset, data.drop offset⟩
  rw [Read.after_of_ok hrecord] at hfollows
  obtain ⟨-, hnext, hrest⟩ := hfollows.eq_drop hoffset
  have hnext : next ≤ data.length := hnext
  have hrest : rest = data.drop next := hrest
  exact ⟨hoffset, hnext, hrest ▸ hrecord⟩

end PackedRecord
