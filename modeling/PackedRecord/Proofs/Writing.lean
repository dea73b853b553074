import PackedRecord.Encoder
import PackedRecord.Proofs.Reading

/-!
# What a step of the encoder writes

A step writes its field piece by piece: a length, then what it is the length of;
a content, then the zeros that fill it up. This file puts the pieces together.
`Encoder.field` is the field as such, with its value taken, and a step either
puts the whole of it behind the output, or fails with the output as it was
(`Encoder.step_of_field`, `Encoder.step_of_field_error`): the one writing that
can fail is that of a length, and it comes first (`Write.Adds`).

Putting a field is not always appending it. Zeros move the end of the output to
a 64-bit number, so a field that ends with zeros is cut together with the output
where the sum of their lengths wraps (`Write.resize_eq`, `Operation.put`). As
long as the sum fits, it is appended like any other (`Operation.put_of_fits`).
-/

namespace PackedRecord

/-! ## Writings -/

namespace Write

/-- Moving the end by no more than `n` bytes is writing `n` zeros and cutting the rest. -/
theorem resize_eq {size n : Nat} {output : List UInt8} (h : size ≤ output.length + n) :
    resize size output = (output ++ List.replicate n 0).take size := by
  unfold resize
  split
  · next hlt =>
      have hzeros : min (size - output.length) n = size - output.length := by omega
      rw [List.take_append, List.take_of_length_le (Nat.le_of_lt hlt), List.take_replicate, hzeros]
  · next hge => rw [List.take_append_of_le_length (Nat.le_of_not_lt hge)]

theorem zeros_eq (n : Nat) (output : List UInt8) :
    zeros n output = .ok ()
      ((output ++ List.replicate n 0).take ((output.length + n) % UInt64.size)) := by
  rw [zeros, resize_eq (Nat.mod_le _ _)]

/-- The writing adds the field, if there is one, and fails as it was otherwise. -/
structure Adds (x : Write Unit) (result : Except Error (List UInt8)) : Prop where
  ok : ∀ field output, result = .ok field → x output = .ok () (output ++ field)
  error : ∀ err output, result = .error err → x output = .error err output

/-- A length is checked before anything is written. -/
theorem Adds.counted (p : LengthPrefix) (order : ByteOrder) (length : Nat)
    (content : List UInt8) :
    Adds (p.write order length >>= fun _ => Write.bytes content)
      (p.encode order length >>= fun field => .ok (field ++ content)) where
  ok := by
    intro field output h
    cases hlength : p.encode order length with
    | error err =>
        rw [hlength] at h
        cases h
    | ok number =>
        rw [hlength] at h
        cases h
        have hwrite : p.write order length output = .ok () (output ++ number) := by
          rw [LengthPrefix.write, hlength]
          rfl
        rw [bind_of_ok hwrite, ← List.append_assoc]
        rfl
  error := by
    intro err output h
    cases hlength : p.encode order length with
    | error err' =>
        rw [hlength] at h
        cases h
        have hwrite : p.write order length output = .error err output := by
          rw [LengthPrefix.write, hlength]
          rfl
        exact bind_of_error hwrite
    | ok number =>
        rw [hlength] at h
        cases h

end Write

theorem TaggedFloat.write_eq (pattern : UInt64) (output : List UInt8) :
    write pattern output = .ok () (output ++ encode pattern) := by
  unfold write encode
  cases width? pattern.toNat with
  | none => rfl
  | some width =>
      show EStateM.Result.ok () ((output ++ [tag (some width)]) ++ _) = _
      rw [List.append_assoc]
      rfl

theorem StringField.writeTerminated_eq (text : String) (output : List UInt8) :
    writeTerminated text output = .ok () (output ++ encodeTerminated text) := by
  rw [encodeTerminated, ← List.append_assoc]
  rfl

/-! ## Putting a field behind the output -/

namespace Operation

/-- The field ends with as many zeros as it has room for. -/
def fills : Operation → Bool
  | .padding _ | .fixedString _ | .fixedBytes _ => true
  | _ => false

/-- The output with a field behind it. If the field ends with zeros, the output ends
where the two lengths come to as a 64-bit number. -/
def put (op : Operation) (output field : List UInt8) : List UInt8 :=
  if op.fills then (output ++ field).take ((output.length + field.length) % UInt64.size)
  else output ++ field

variable (op : Operation) {output field : List UInt8}

theorem put_of_fits (h : output.length + field.length < UInt64.size) :
    op.put output field = output ++ field := by
  unfold put
  split
  · rw [Nat.mod_eq_of_lt h, ← List.length_append, List.take_length]
  · rfl

theorem put_of_not_fills {op : Operation} (h : op.fills = false) :
    op.put output field = output ++ field := by
  rw [put, h]
  rfl

end Operation

theorem Blob.writeFixed_eq (size : Nat) (content output : List UInt8) {op : Operation}
    (hop : op.fills = true) :
    writeFixed size content output = .ok () (op.put output (encodeFixed size content)) := by
  have hzeros := Write.zeros_eq (size - (content.take size).length) (output ++ content.take size)
  rw [Operation.put, hop, if_pos rfl, encodeFixed, List.length_append, List.length_replicate,
    ← List.append_assoc, ← Nat.add_assoc, ← List.length_append]
  exact hzeros

/-! ## Fields -/

namespace Encoder

/-- The bytes of one field, with its value taken. -/
def field (order : ByteOrder) (op : Operation) : Taking (List UInt8) :=
  match op with
  | .byteOrder _ => return []
  | .padding n => return List.replicate n 0
  | .bool => return SingleBool.encode (← Arguments.takeBool op)
  | .bitArray count => return Bits.encode count (← Arguments.takeBools op)
  | .countedBits p => do
    Arguments.ofExcept (Bits.encodeCounted p order (← Arguments.takeBools op))
  | .integer width _ =>
    return FixedInt.encode order width (← Arguments.takeInt op).toUInt64.toNat
  | .float width => return FloatField.encode order width (← Arguments.takeFloat op)
  | .taggedFloat => return TaggedFloat.encode (← Arguments.takeFloat op)
  | .signedVarint => return Zigzag.encode (← Arguments.takeInt op)
  | .unsignedVarint => return Varint.encode (← Arguments.takeInt op).toUInt64.toNat
  | .terminatedString => return StringField.encodeTerminated (← Arguments.takeStr op)
  | .countedString p => do
    Arguments.ofExcept (StringField.encodeCounted p order (← Arguments.takeStr op))
  | .fixedString size => return StringField.encodeFixed size (← Arguments.takeStr op)
  | .fixedBytes size => return Blob.encodeFixed size (← Arguments.takeBytes op)
  | .countedBytes p => do
    Arguments.ofExcept (Blob.encodeCounted p order (← Arguments.takeBytes op))

/-! ## Steps -/

section
variable {α : Type} {x : Taking α} {write : ByteOrder → α → Write Unit} {order : ByteOrder}
variable {args args' : Arguments} {output output' written : List UInt8} {a : α} {err : Error}

theorem put_of_ok (hx : x args = .ok a args') (hwrite : write order a output = .ok () output') :
    put x write ⟨order, args, output⟩ = .ok () ⟨order, args', output'⟩ := by
  have htake : taking x ⟨order, args, output⟩ = .ok a ⟨order, args', output⟩ := by
    simp only [taking, hx]
  rw [put, bind_of_ok htake]
  show writing (write order a) ⟨order, args', output⟩ = _
  simp only [writing, hwrite]

theorem put_of_error (hx : x args = .ok a args')
    (hwrite : write order a output = .error err output') :
    put x write ⟨order, args, output⟩ = .error err ⟨order, args', output'⟩ := by
  have htake : taking x ⟨order, args, output⟩ = .ok a ⟨order, args', output⟩ := by
    simp only [taking, hx]
  rw [put, bind_of_ok htake]
  show writing (write order a) ⟨order, args', output⟩ = _
  simp only [writing, hwrite]

theorem put_of_taking_error (hx : x args = .error err args') :
    put x write ⟨order, args, output⟩ = .error err ⟨order, args', output⟩ := by
  have htake : taking x ⟨order, args, output⟩ = .error err ⟨order, args', output⟩ := by
    simp only [taking, hx]
  rw [put, bind_of_error htake]

end

variable {order : ByteOrder} {op : Operation} {args args' : Arguments} {written : List UInt8}
  {err : Error} (output : List UInt8)

/-- A field that is made of what is taken, and that nothing is wrong with. -/
theorem put_of_field {α : Type} {x : Taking α} {write : ByteOrder → α → Write Unit}
    {encode : α → List UInt8}
    (hwrite : ∀ a, write order a output = .ok () (op.put output (encode a)))
    (h : (x >>= fun a => pure (encode a)) args = .ok written args') :
    put x write ⟨order, args, output⟩ = .ok () ⟨order, args', op.put output written⟩ := by
  obtain ⟨a, args₁, hx, hpure⟩ := bind_eq_ok.mp h
  cases hpure
  exact put_of_ok hx (hwrite a)

theorem put_of_field_error {α β : Type} {x : Taking α} {write : ByteOrder → α → Write Unit}
    {encode : α → β} (h : (x >>= fun a => pure (encode a)) args = .error err args') :
    put x write ⟨order, args, output⟩ = .error err ⟨order, args', output⟩ := by
  rcases bind_eq_error.mp h with hx | ⟨a, args₁, -, hpure⟩
  · exact put_of_taking_error hx
  · cases hpure

theorem put_of_checked {α : Type} {x : Taking α} {write : ByteOrder → α → Write Unit}
    {encode : α → Except Error (List UInt8)} (hwrite : ∀ a, (write order a).Adds (encode a))
    (h : (x >>= fun a => Arguments.ofExcept (encode a)) args = .ok written args') :
    put x write ⟨order, args, output⟩ = .ok () ⟨order, args', output ++ written⟩ := by
  obtain ⟨a, args₁, hx, hchecked⟩ := bind_eq_ok.mp h
  cases hencode : encode a with
  | error err =>
      rw [hencode] at hchecked
      cases hchecked
  | ok field =>
      rw [hencode] at hchecked
      cases hchecked
      exact put_of_ok hx ((hwrite a).ok _ output hencode)

theorem put_of_checked_error {α : Type} {x : Taking α} {write : ByteOrder → α → Write Unit}
    {encode : α → Except Error (List UInt8)} (hwrite : ∀ a, (write order a).Adds (encode a))
    (h : (x >>= fun a => Arguments.ofExcept (encode a)) args = .error err args') :
    put x write ⟨order, args, output⟩ = .error err ⟨order, args', output⟩ := by
  rcases bind_eq_error.mp h with hx | ⟨a, args₁, hx, hchecked⟩
  · exact put_of_taking_error hx
  · cases hencode : encode a with
    | error err' =>
        rw [hencode] at hchecked
        cases hchecked
        exact put_of_error hx ((hwrite a).error _ output hencode)
    | ok field =>
        rw [hencode] at hchecked
        cases hchecked

/-- A step puts the field behind the output, and sets the byte order if it is there for that. -/
theorem step_of_field (h : field order op args = .ok written args') :
    step op ⟨order, args, output⟩
      = .ok () ⟨op.orderAfter order, args', op.put output written⟩ := by
  cases op with
  | byteOrder next =>
      cases h
      exact congrArg (fun kept => EStateM.Result.ok () (Encoder.mk next args kept))
        (List.append_nil output).symm
  | padding n =>
      cases h
      have hzeros := Write.zeros_eq n output
      rw [step]
      simp only [writing, hzeros, Operation.put, Operation.fills, if_true, List.length_replicate]
      rfl
  | countedBits p =>
      rw [step]
      exact put_of_checked output
        (fun bits => .counted p order bits.length (Bits.encode bits.length bits)) h
  | countedString p =>
      rw [step]
      exact put_of_checked output
        (fun text => .counted p order (Utf8.bytes text).length (Utf8.bytes text)) h
  | countedBytes p =>
      rw [step]
      exact put_of_checked output (fun content => .counted p order content.length content) h
  | taggedFloat =>
      rw [step]
      exact put_of_field output (fun x => TaggedFloat.write_eq x output) h
  | terminatedString =>
      rw [step]
      exact put_of_field output (fun text => StringField.writeTerminated_eq text output) h
  | fixedString size =>
      rw [step]
      exact put_of_field output (fun text => Blob.writeFixed_eq size _ output rfl) h
  | fixedBytes size =>
      rw [step]
      exact put_of_field output (fun content => Blob.writeFixed_eq size content output rfl) h
  | _ =>
      rw [step]
      exact put_of_field output (fun _ => rfl) h

/-- A step that fails has written nothing. -/
theorem step_of_field_error (h : field order op args = .error err args') :
    step op ⟨order, args, output⟩ = .error err ⟨order, args', output⟩ := by
  cases op with
  | byteOrder next => cases h
  | padding n => cases h
  | countedBits p =>
      rw [step]
      exact put_of_checked_error output
        (fun bits => .counted p order bits.length (Bits.encode bits.length bits)) h
  | countedString p =>
      rw [step]
      exact put_of_checked_error output
        (fun text => .counted p order (Utf8.bytes text).length (Utf8.bytes text)) h
  | countedBytes p =>
      rw [step]
      exact put_of_checked_error output
        (fun content => .counted p order content.length content) h
  | _ =>
      rw [step]
      exact put_of_field_error output h

theorem step_eq_ok {e e' : Encoder} :
    step op e = .ok () e' ↔ ∃ written args, field e.order op e.arguments = .ok written args
      ∧ e' = ⟨op.orderAfter e.order, args, op.put e.output written⟩ := by
  constructor
  · intro h
    cases hfield : field e.order op e.arguments with
    | ok written args =>
        cases (step_of_field e.output hfield).symm.trans h
        exact ⟨written, args, rfl, rfl⟩
    | error err args => cases (step_of_field_error e.output hfield).symm.trans h
  · rintro ⟨written, args, hfield, rfl⟩
    exact step_of_field e.output hfield

theorem step_eq_error {e e' : Encoder} :
    step op e = .error err e' ↔
      ∃ args, field e.order op e.arguments = .error err args ∧ e' = ⟨e.order, args, e.output⟩ := by
  constructor
  · intro h
    cases hfield : field e.order op e.arguments with
    | ok written args => cases (step_of_field e.output hfield).symm.trans h
    | error err' args =>
        cases (step_of_field_error e.output hfield).symm.trans h
        exact ⟨args, rfl, rfl⟩
  · rintro ⟨args, hfield, rfl⟩
    exact step_of_field_error e.output hfield

end Encoder

/-! ## Records -/

/-- The byte order after some operations. -/
def ByteOrder.after (order : ByteOrder) (ops : List Operation) : ByteOrder :=
  ops.foldl Operation.orderAfter order

namespace Encoder

/-- The fields of a record, one for each operation, with their values taken. -/
def fields : ByteOrder → List Operation → Taking (List (List UInt8))
  | _, [] => return []
  | order, op :: ops => do
    let written ← field order op
    let rest ← fields (op.orderAfter order) ops
    return written :: rest

end Encoder

namespace Operation

/-- The output with one field after another put behind it. -/
def putAll : List Operation → List (List UInt8) → List UInt8 → List UInt8
  | op :: ops, written :: rest, output => putAll ops rest (op.put output written)
  | _, _, output => output

/-- Fields that fit behind the output are appended. -/
theorem putAll_of_fits : ∀ {ops : List Operation} {fields : List (List UInt8)}
    {output : List UInt8}, fields.length = ops.length →
    output.length + fields.flatten.length < UInt64.size →
    putAll ops fields output = output ++ fields.flatten
  | [], [], output, _, _ => (List.append_nil output).symm
  | op :: ops, written :: rest, output, hlength, hfits => by
      rw [List.flatten_cons, List.length_append, ← Nat.add_assoc] at hfits
      have hhead : output.length + written.length < UInt64.size := Nat.lt_of_add_right_lt hfits
      have hrest : (output ++ written).length + rest.flatten.length < UInt64.size := by
        rwa [List.length_append]
      rw [putAll, put_of_fits op hhead, putAll_of_fits (Nat.succ.inj hlength) hrest,
        List.flatten_cons, List.append_assoc]

end Operation

namespace Encoder

variable {args args' : Arguments} {written : List (List UInt8)} {err : Error}

theorem length_fields : ∀ {ops : List Operation} {order : ByteOrder} {args : Arguments}
    {written : List (List UInt8)}, fields order ops args = .ok written args' →
    written.length = ops.length
  | [], _, _, _, h => by
      cases h
      rfl
  | op :: ops, order, args, written, h => by
      obtain ⟨head, args₁, -, htail⟩ := bind_eq_ok.mp h
      obtain ⟨rest, args₂, hrest, hpure⟩ := bind_eq_ok.mp htail
      cases hpure
      exact congrArg Nat.succ (length_fields hrest)

/-- A run puts the fields behind the output one after another. -/
theorem run_of_fields : ∀ {ops : List Operation} {order : ByteOrder} {args : Arguments}
    {written : List (List UInt8)} (output : List UInt8),
    fields order ops args = .ok written args' →
    run ops ⟨order, args, output⟩
      = .ok () ⟨order.after ops, args', Operation.putAll ops written output⟩
  | [], _, _, _, _, h => by
      cases h
      rfl
  | op :: ops, order, args, written, output, h => by
      obtain ⟨head, args₁, hhead, htail⟩ := bind_eq_ok.mp h
      obtain ⟨rest, args₂, hrest, hpure⟩ := bind_eq_ok.mp htail
      cases hpure
      rw [run, bind_of_ok (step_of_field output hhead), run_of_fields _ hrest]
      rfl

theorem run_of_fields_error : ∀ {ops : List Operation} {order : ByteOrder} {args : Arguments}
    (output : List UInt8), fields order ops args = .error err args' →
    ∃ e, run ops ⟨order, args, output⟩ = .error err e ∧ e.arguments = args'
  | [], _, _, _, h => by cases h
  | op :: ops, order, args, output, h => by
      rcases bind_eq_error.mp h with hhead | ⟨head, args₁, hhead, htail⟩
      · exact ⟨_, by rw [run, bind_of_error (step_of_field_error output hhead)], rfl⟩
      · rcases bind_eq_error.mp htail with hrest | ⟨rest, args₂, -, hpure⟩
        · obtain ⟨e, hrun, hargs⟩ := run_of_fields_error (op.put output head) hrest
          exact ⟨e, by rw [run, bind_of_ok (step_of_field output hhead), hrun], hargs⟩
        · cases hpure

end Encoder

namespace Format

/-- The fields of the record that holds `values`, if the policy allows for those left over. -/
def fields (format : Format) (values : List Value) (options : Options) :
    Except Error (List (List UInt8)) :=
  match Encoder.fields .little format.operations (.ofValues values) with
  | .ok written args => (args.finish options).map fun _ => written
  | .error err _ => .error err

/-- The fields of the record that holds `values` have a 64-bit number of bytes in all. -/
def Fits (format : Format) (values : List Value) : Prop :=
  ∀ written args, Encoder.fields .little format.operations (.ofValues values) = .ok written args →
    written.flatten.length < UInt64.size

variable {format : Format} {values : List Value} {options : Options}
  {written : List (List UInt8)}

theorem fields_eq_ok : format.fields values options = .ok written ↔
    ∃ args, Encoder.fields .little format.operations (.ofValues values) = .ok written args
      ∧ args.finish options = .ok () := by
  rw [fields]
  cases hfields : Encoder.fields .little format.operations (.ofValues values) with
  | error err args => exact ⟨fun h => (by cases h), fun ⟨_, h, _⟩ => (by cases h)⟩
  | ok written' args =>
      constructor
      · intro h
        cases hfinish : args.finish options with
        | error err => simp only [hfinish] at h; cases h
        | ok _ =>
            simp only [hfinish] at h
            cases h
            exact ⟨args, rfl, hfinish⟩
      · rintro ⟨_, ⟨⟩, hfinish⟩
        simp only [hfinish]
        rfl

theorem length_of_fields (h : format.fields values options = .ok written) :
    written.length = format.operations.length := by
  obtain ⟨args, hfields, -⟩ := fields_eq_ok.mp h
  exact Encoder.length_fields hfields

theorem fits_of_fields {args : Arguments}
    (h : Encoder.fields .little format.operations (.ofValues values) = .ok written args)
    (hlength : written.flatten.length < UInt64.size) : format.Fits values := by
  intro written' args' h'
  cases h.symm.trans h'
  exact hlength

theorem length_lt_of_fits (hfits : format.Fits values)
    (h : format.fields values options = .ok written) :
    written.flatten.length < UInt64.size := by
  obtain ⟨args, hfields, -⟩ := fields_eq_ok.mp h
  exact hfits _ _ hfields

theorem putAll_of_fields (hfits : format.Fits values)
    (h : format.fields values options = .ok written) :
    Operation.putAll format.operations written [] = written.flatten :=
  Operation.putAll_of_fits (length_of_fields h)
    (by rw [List.length_nil, Nat.zero_add]; exact length_lt_of_fits hfits h)

end Format
end PackedRecord
