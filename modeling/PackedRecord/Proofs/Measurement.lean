import PackedRecord.Proofs.Floats
import PackedRecord.Proofs.Strings
import PackedRecord.Proofs.Writing

/-!
# Measuring is packing without the bytes

A measurement takes the same values as the encoder, makes the same checks and
counts what the encoder writes. For one operation this is an equation between
two computations (`Size.ofOperation_eq`): the size is the length of the
field, and where the field fails the size fails alike, with the same values
taken. So it is for a whole run, where the lengths are added up
(`Size.ofOperations_eq`).

What follows is that the two passes of packing agree. Both are made of the
fields of the record: the one adds up their lengths (`Format.measure_eq`), the
other puts them one behind the other (`Format.pack_eq`). The second one never
fails and never leaves values over that the first one did not allow, so that
packing is the encoder's own run and end (`Format.packStepwise_eq_pack`). They
give the same length as long as it is a 64-bit number (`Format.Fits`): beyond
that the measurement stops at the largest one, and zeros that are put behind
the output cut it.
-/

namespace PackedRecord

/-- Packing by hand: all operations one after another, then the end. -/
def Format.packStepwise (format : Format) (values : List Value) (options : Options) :
    Except Error (List UInt8) :=
  match Encoder.run format.operations (.ofValues values) with
  | .ok _ e => e.finish options
  | .error err _ => .error err

/-! ## Lengths of fields -/

namespace StringField

theorem length_encodeTerminated (text : String) :
    (encodeTerminated text).length = terminatedLength text := by
  rw [encodeTerminated, List.length_append, List.length_singleton, terminatedLength]

theorem length_encodeFixed (size : Nat) (text : String) :
    (encodeFixed size text).length = size := by
  rw [encodeFixed, Blob.encodeFixed_eq, length_exactly]

end StringField

namespace Arguments

theorem ofExcept_map {α β : Type} (result : Except Error α) (g : α → β) :
    ofExcept (result.map g) = ofExcept result >>= fun a => pure (g a) := by
  cases result <;> rfl

/-- What is made of what was taken may be made in two steps. -/
theorem map_taken {α β γ : Type} {x : Taking α} {f : α → β} {g : β → γ} {result : α → γ}
    (h : ∀ a, g (f a) = result a) :
    (x >>= fun a => pure (result a))
      = (x >>= fun a => pure (f a)) >>= fun b => pure (g b) := by
  rw [bind_assoc]
  congr 1
  funext a
  rw [pure_bind, h]

end Arguments

namespace Size

/-! ## One operation -/

section
variable {α : Type} {x : Taking α}

/-- A field that is written behind a length, if the length fits. -/
theorem of_counted {p : LengthPrefix} {count : α → Nat} (size : Nat → Nat)
    {encode : α → Except Error (List UInt8)} {write : α → List UInt8}
    (hencode : ∀ a, encode a = (p.check (count a)).map fun _ => write a)
    (hlength : ∀ a, (write a).length = size (count a)) :
    (x >>= fun a => Arguments.ofExcept (p.check (count a)) >>= fun _ => pure (size (count a)))
      = (x >>= fun a => Arguments.ofExcept (encode a)) >>= fun field => pure field.length := by
  rw [bind_assoc]
  congr 1
  funext a
  rw [hencode, Arguments.ofExcept_map, bind_assoc]
  congr 1
  funext _
  rw [pure_bind, hlength]

end

/-- The size of a field is its length, whatever the byte order. -/
theorem ofOperation_eq (order : ByteOrder) (op : Operation) :
    ofOperation op = Encoder.field order op >>= fun field => pure field.length := by
  cases op with
  | byteOrder next => rfl
  | padding n =>
      rw [Encoder.field, pure_bind, List.length_replicate, ofOperation]
  | bool => exact Arguments.map_taken fun _ => rfl
  | bitArray count => exact Arguments.map_taken (Bits.length_encode count)
  | countedBits p =>
      refine of_counted (Bits.countedLength p) (Bits.encodeCounted_eq p order) fun bits => ?_
      rw [List.length_append, p.length_field, Bits.length_encode, Bits.countedLength]
  | integer width signed => exact Arguments.map_taken fun _ => FixedInt.length_encode order width _
  | float width => exact Arguments.map_taken (FloatField.length_encode order width)
  | taggedFloat => exact Arguments.map_taken TaggedFloat.length_encode
  | signedVarint => exact Arguments.map_taken fun _ => Varint.length_encode _
  | unsignedVarint => exact Arguments.map_taken fun _ => Varint.length_encode _
  | terminatedString => exact Arguments.map_taken StringField.length_encodeTerminated
  | countedString p =>
      refine of_counted (Blob.countedLength p) (StringField.encodeCounted_eq p order)
        fun text => ?_
      rw [List.length_append, p.length_field, Blob.countedLength]
  | fixedString size => exact Arguments.map_taken (StringField.length_encodeFixed size)
  | fixedBytes size =>
      refine Arguments.map_taken fun content => ?_
      rw [Blob.encodeFixed_eq, length_exactly]
  | countedBytes p =>
      refine of_counted (Blob.countedLength p) (Blob.encodeCounted_eq p order)
        fun content => ?_
      rw [List.length_append, p.length_field, Blob.countedLength]

end Size

/-! ## Runs -/

namespace Size

/-- The size of a record is the sum of the lengths of its fields, as far as it goes. -/
theorem ofOperations_eq : ∀ (ops : List Operation) (order : ByteOrder) {total : Nat},
    total ≤ most →
    ofOperations total ops
      = Encoder.fields order ops >>= fun written =>
        pure (min (total + written.flatten.length) most)
  | [], _, total, htotal => by
      rw [Encoder.fields, pure_bind, List.flatten_nil, List.length_nil, Nat.add_zero,
        Nat.min_eq_left htotal, ofOperations]
  | op :: ops, order, total, htotal => by
      rw [ofOperations, ofOperation_eq order, Encoder.fields, bind_assoc, bind_assoc]
      congr 1
      funext head
      have hadd : add total head.length ≤ most := Nat.min_le_right _ _
      rw [pure_bind, ofOperations_eq ops (op.orderAfter order) hadd, bind_assoc]
      congr 1
      funext rest
      have hsum : min (add total head.length + rest.flatten.length) most
          = min (total + (head :: rest).flatten.length) most := by
        rw [add, List.flatten_cons, List.length_append]
        omega
      rw [pure_bind, hsum]

end Size

/-! ## Records -/

/-- What is made of a result fails as the result does. -/
theorem map_eq_error {ε α β : Type} {x : Except ε α} {f : α → β} {e : ε} :
    x.map f = .error e ↔ x = .error e := by
  cases x with
  | ok a => exact ⟨fun h => (by cases h), fun h => (by cases h)⟩
  | error e' => exact ⟨fun h => (by cases h; rfl), fun h => (by cases h; rfl)⟩

theorem Encoder.finish_eq (options : Options) (e : Encoder) :
    e.finish options = (e.arguments.finish options).map fun _ => e.output := by
  rw [finish]
  cases e.arguments.finish options <;> rfl

namespace Format

variable (format : Format) (values : List Value) (options : Options)

/-- Measuring adds up the lengths of the fields. -/
theorem measure_eq :
    Size.measure format values options
      = (format.fields values options).map fun written =>
        min written.flatten.length Size.most := by
  rw [Size.measure, Size.ofOperations_eq format.operations .little (Nat.zero_le _), fields]
  cases hfields : Encoder.fields .little format.operations (.ofValues values) with
  | ok written args =>
      rw [bind_of_ok hfields, Nat.zero_add]
      show (args.finish options >>= fun _ => _)
        = ((args.finish options).map fun _ => written).map _
      cases args.finish options <;> rfl
  | error err args =>
      rw [bind_of_error hfields]
      rfl

/-- Packing by hand puts the fields one behind the other. -/
theorem packStepwise_eq :
    format.packStepwise values options
      = (format.fields values options).map fun written =>
        Operation.putAll format.operations written [] := by
  rw [packStepwise, fields, Encoder.ofValues]
  cases hfields : Encoder.fields .little format.operations (.ofValues values) with
  | ok written args =>
      rw [Encoder.run_of_fields [] hfields]
      simp only [Encoder.finish_eq]
      cases args.finish options <;> rfl
  | error err args =>
      obtain ⟨e, hrun, -⟩ := Encoder.run_of_fields_error [] hfields
      rw [hrun]
      rfl

/-- So does packing. -/
theorem pack_eq :
    format.pack values options
      = (format.fields values options).map fun written =>
        Operation.putAll format.operations written [] := by
  rw [pack, measure_eq, Encoder.ofValues, fields]
  cases hfields : Encoder.fields .little format.operations (.ofValues values) with
  | ok written args =>
      simp only [Encoder.run_of_fields [] hfields]
      cases args.finish options <;> rfl
  | error err args => rfl

/-- The second pass of packing adds no failure, and has no values left over to look at. -/
theorem packStepwise_eq_pack :
    format.packStepwise values options = format.pack values options := by
  rw [packStepwise_eq, pack_eq]

variable {format values}

/-- A record of a 64-bit number of bytes is its fields one after another. -/
theorem pack_of_fits (hfits : format.Fits values) :
    format.pack values options = (format.fields values options).map List.flatten := by
  rw [pack_eq]
  cases hfields : format.fields values options with
  | error err => rfl
  | ok written => exact congrArg Except.ok (putAll_of_fields hfits hfields)

variable (format values)

/-- Measuring, packing and packing by hand agree on every list of values. -/
theorem measure_pack_agree :
    (∀ err, Size.measure format values options = .error err
        ↔ format.pack values options = .error err)
      ∧ (format.Fits values → ∀ packed, format.pack values options = .ok packed →
        Size.measure format values options = .ok packed.length)
      ∧ format.packStepwise values options = format.pack values options
      ∧ (∀ size, Size.measure format values options = .ok size →
        ∃ e, Encoder.run format.operations (.ofValues values) = .ok () e
          ∧ e.arguments.finish options = .ok ()) := by
  refine ⟨fun err => ?_, fun hfits packed hpack => ?_,
    packStepwise_eq_pack format values options, fun size hsize => ?_⟩
  · rw [measure_eq, pack_eq, map_eq_error, map_eq_error]
  · rw [pack_of_fits options hfits] at hpack
    rw [measure_eq]
    cases hfields : format.fields values options with
    | error err =>
        rw [hfields] at hpack
        cases hpack
    | ok written =>
        rw [hfields] at hpack
        cases hpack
        have hmost : written.flatten.length ≤ Size.most :=
          Nat.le_sub_one_of_lt (length_lt_of_fits hfits hfields)
        exact congrArg Except.ok (Nat.min_eq_left hmost)
  · rw [measure_eq] at hsize
    cases hfields : format.fields values options with
    | error err =>
        rw [hfields] at hsize
        cases hsize
    | ok written =>
        obtain ⟨args, htaken, hfinish⟩ := fields_eq_ok.mp hfields
        exact ⟨_, Encoder.run_of_fields [] htaken, hfinish⟩

/-- A record of a switched byte order, a number, a text and a value too many. -/
theorem measure_pack_agree_sample :
    Size.measure ⟨[.byteOrder .big, .integer ⟨2, by decide, by decide⟩ false, .terminatedString]⟩
      [.int 258, .str "hi", .bool true] ⟨.ignore, .reject, .strict⟩ = .ok 5 :=
  (measure_pack_agree _ _ _).2.1 (fits_of_fields rfl (by decide)) [1, 2, 104, 105, 0] (by decide)

end Format
end PackedRecord
