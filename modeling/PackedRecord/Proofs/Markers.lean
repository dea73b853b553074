import PackedRecord.Proofs.Composition
import PackedRecord.Proofs.EncoderHistory

/-!
# What a byte order reaches

A field depends on the byte order in one place at most, the number of a fixed
width that it begins with: an integer, a float, or the length of what follows.
Writing in another order turns these leading bytes around and nothing else
(`Encoder.field_eq_turn`), and a number of one byte, or none at all, stays as
it is. So a record is made of the fields that its operations make in
little-endian order, each turned by the marker last before it (`Writes.fields`).

Where no number is wider than a byte, fields are written and read alike in all
orders, and markers can be taken out of a format: a marker takes no value,
writes nothing and reads nothing. That is an equation between readings
(`Decoder.record_unmarked`) and one between what is put behind an output
(`Encoder.putAll_unmarked`). A size takes no notice of the order to begin with
(`Size.ofOperations_unmarked`).
-/

namespace PackedRecord

/-- A field in this order, given in little-endian order: the number of `width`
bytes that it begins with is turned around. -/
def ByteOrder.turn (order : ByteOrder) (width : Nat) (field : List UInt8) : List UInt8 :=
  if order.isLittle then field else (field.take width).reverse ++ field.drop width

namespace Operation

/-- The width of the number that the field begins with, 0 if it does not begin
with a number of a fixed width. -/
def orderedWidth : Operation → Nat
  | .integer width _ => width.bytes
  | .float width => width.bytes
  | .countedBits p | .countedString p | .countedBytes p => p.sizeParameter
  | _ => 0

/-- The byte order that is set last. -/
def lastMarker? (ops : List Operation) : Option ByteOrder := (ops.filterMap marker?).getLast?

/-- The operations but for those that set the byte order. -/
def unmarked (ops : List Operation) : List Operation := ops.filter fun op => op.marker?.isNone

theorem eq_byteOrder_of_marker {op : Operation} {next : ByteOrder}
    (h : op.marker? = some next) : op = .byteOrder next := by
  cases op <;> cases h
  rfl

section
variable {op : Operation} {ops : List Operation}

theorem unmarked_marker (next : ByteOrder) : unmarked (.byteOrder next :: ops) = unmarked ops := rfl

theorem unmarked_cons (h : op.marker? = none) : unmarked (op :: ops) = op :: unmarked ops := by
  simp [unmarked, h]

end
end Operation

theorem ByteOrder.after_eq (order : ByteOrder) (ops : List Operation) :
    order.after ops = (Operation.lastMarker? ops).getD order := by
  induction ops generalizing order with
  | nil => rfl
  | cons op ops ih =>
      rw [after, List.foldl_cons, ← after, ih, Operation.orderAfter_eq, Operation.lastMarker?,
        Operation.lastMarker?]
      cases hmarker : op.marker? with
      | none => rw [List.filterMap_cons_none hmarker, Option.getD_none]
      | some next =>
          rw [List.filterMap_cons_some hmarker, List.getLast?_cons, Option.getD_some,
            Option.getD_some]

/-! ## Turning the leading number -/

namespace ByteOrder

variable (order : ByteOrder) {width : Nat} (number content : List UInt8)

theorem turn_append (h : number.length = width) :
    order.turn width (number ++ content) = order.arrange number ++ content := by
  rw [turn, arrange, List.take_left' h, List.drop_left' h]
  split <;> rfl

theorem turn_number (h : number.length = width) :
    order.turn width number = order.arrange number := by
  rw [← List.append_nil number, turn_append order number [] h, List.append_nil, List.append_nil]

/-- A single byte has no order. -/
theorem reverse_of_length_le_one {bytes : List UInt8} (h : bytes.length ≤ 1) :
    bytes.reverse = bytes := by
  match bytes, h with
  | [], _ => rfl
  | [_], _ => rfl

theorem arrange_of_length_le_one {bytes : List UInt8} (h : bytes.length ≤ 1) :
    order.arrange bytes = bytes := by
  rw [arrange, reverse_of_length_le_one h, ite_self]

theorem turn_of_le_one (h : width ≤ 1) : order.turn width content = content := by
  have hshort : (content.take width).length ≤ 1 := by
    rw [List.length_take]
    omega
  rw [turn, reverse_of_length_le_one hshort, List.take_append_drop, ite_self]

end ByteOrder

theorem LengthPrefix.turn_field (p : LengthPrefix) (order : ByteOrder) (length : Nat)
    (content : List UInt8) :
    order.turn p.sizeParameter (p.field .little length ++ content)
      = p.field order length ++ content := by
  cases p with
  | varint => exact order.turn_of_le_one _ (Nat.zero_le 1)
  | fixed width => exact order.turn_append _ content (length_lowBytes width.bytes length)

namespace Encoder

/-- A field of a counted kind, its length turned. -/
theorem turn_counted {p : LengthPrefix} {order : ByteOrder} {count : Nat} {content : List UInt8}
    {encode : ByteOrder → Except Error (List UInt8)}
    (h : ∀ order, encode order = (p.check count).map fun _ => p.field order count ++ content) :
    encode order = (encode .little).map (order.turn p.sizeParameter) := by
  rw [h, h .little]
  cases p.check count with
  | error err => rfl
  | ok _ => exact congrArg Except.ok (p.turn_field order count content).symm

/-- In another byte order the number at the beginning of a field is turned
around, and nothing else changes. -/
theorem field_eq_turn (order : ByteOrder) (op : Operation) :
    field order op
      = field .little op >>= fun written => pure (order.turn op.orderedWidth written) := by
  have hsame : op.orderedWidth = 0 → field order op = field .little op →
      field order op
        = field .little op >>= fun written => pure (order.turn op.orderedWidth written) := by
    intro hwidth hfield
    rw [hfield, hwidth]
    simp only [order.turn_of_le_one _ (Nat.zero_le 1), bind_pure]
  have hchecked : ∀ {α : Type} {x : Taking α} {encode : ByteOrder → α → Except Error (List UInt8)}
      {p : LengthPrefix},
      (∀ a, encode order a = (encode .little a).map (order.turn p.sizeParameter)) →
      (x >>= fun a => Arguments.ofExcept (encode order a))
        = (x >>= fun a => Arguments.ofExcept (encode .little a))
          >>= fun written => pure (order.turn p.sizeParameter written) := by
    intro α x encode p h
    rw [bind_assoc]
    congr 1
    funext a
    rw [h, Arguments.ofExcept_map]
  cases op with
  | integer width signed =>
      exact Arguments.map_taken fun word => order.turn_number _ (length_lowBytes width.bytes _)
  | float width =>
      exact Arguments.map_taken fun pattern => order.turn_number _ (length_lowBytes width.bytes _)
  | countedBits p =>
      exact hchecked fun bits => turn_counted fun order => Bits.encodeCounted_eq p order bits
  | countedString p =>
      exact hchecked fun text => turn_counted fun order => StringField.encodeCounted_eq p order text
  | countedBytes p =>
      exact hchecked fun content => turn_counted fun order => Blob.encodeCounted_eq p order content
  | _ => exact hsame rfl rfl

theorem field_native (op : Operation) : field .native op = field .little op := by
  rw [field_eq_turn]
  exact bind_pure _

theorem field_of_narrow {op : Operation} (h : op.orderedWidth ≤ 1) (order order' : ByteOrder) :
    field order op = field order' op := by
  rw [field_eq_turn order, field_eq_turn order']
  simp only [ByteOrder.turn_of_le_one _ _ h]

end Encoder

/-! ## The fields of a record -/

/-- The fields of a record are those that its operations make in little-endian
order, each turned to the byte order that was set last. -/
theorem Writes.fields {order : ByteOrder} {ops : List Operation} {taken : List Value}
    {fields : List (List UInt8)} (h : Writes order ops taken fields) {values left : List Value}
    {n : Nat} (hvalues : values.drop n = taken ++ left) :
    fields.length = ops.length ∧ ∀ i op, ops[i]? = some op → ∃ written args,
      Encoder.field .little op
          (.behind values (n + (Operation.takers (ops.take i)).length)) = .ok written args
        ∧ fields[i]? = some ((order.after (ops.take i)).turn op.orderedWidth written) := by
  induction h generalizing n with
  | nil order =>
      refine ⟨rfl, fun i op hop => ?_⟩
      cases hop
  | @cons order op v? field ops values' fields head _ ih =>
      have hcount : v?.toList.length = (Operation.takers [op]).length := by
        have hkind := head.isSome_kind
        cases v? with
        | none => simp [Operation.takers, Option.isSome_eq_false_iff.mp hkind]
        | some v => simp [Operation.takers, hkind]
      have hdrop : values.drop (n + v?.toList.length) = values' ++ left := by
        rw [← List.drop_drop, hvalues, List.append_assoc, List.drop_left]
      obtain ⟨hlength, hfields⟩ := ih hdrop
      refine ⟨congrArg Nat.succ hlength, fun i op' hop => ?_⟩
      cases i with
      | zero =>
          cases hop
          have hfield := Encoder.field_of_stores head n (values' ++ left)
          rw [Encoder.field_eq_turn] at hfield
          obtain ⟨written, args, hwritten, hturn⟩ := bind_eq_ok.mp hfield
          cases hturn
          refine ⟨written, ⟨n + v?.toList.length, values' ++ left⟩, ?_, rfl⟩
          rw [← List.append_assoc, ← hvalues] at hwritten
          exact hwritten
      | succ i =>
          obtain ⟨written, args, hwritten, hturn⟩ := hfields i op' hop
          refine ⟨written, args, ?_, hturn⟩
          rw [List.take_succ_cons, ← List.singleton_append, Operation.takers_append,
            List.length_append, ← hcount, ← Nat.add_assoc]
          exact hwritten

/-! ## Markers taken out of a format -/

theorem Read.bytes_bind_congr {α : Type} {n : Nat} {f g : List UInt8 → Read α}
    (h : ∀ content : List UInt8, content.length = n → f content = g content) :
    (bytes n >>= f) = (bytes n >>= g) := by
  funext r
  cases hread : bytes n r with
  | ok content r' => rw [bind_of_ok hread, bind_of_ok hread, h content (length_of_bytes hread)]
  | error err r' => rw [bind_of_error hread, bind_of_error hread]

theorem FixedInt.decodeUnsigned_of_narrow {width : ByteWidth} (h : width.bytes ≤ 1)
    (order order' : ByteOrder) : decodeUnsigned order width = decodeUnsigned order' width :=
  Read.bytes_bind_congr fun field hlength => by
    rw [order.arrange_of_length_le_one (hlength ▸ h), order'.arrange_of_length_le_one (hlength ▸ h)]

theorem LengthPrefix.decode_of_narrow {p : LengthPrefix} (h : p.sizeParameter ≤ 1)
    (order order' : ByteOrder) : p.decode order = p.decode order' := by
  cases p with
  | varint => rfl
  | fixed width => exact FixedInt.decodeUnsigned_of_narrow h order order'

namespace Decoder

variable {options : Options}

theorem field_of_narrow {op : Operation} (h : op.orderedWidth ≤ 1) (order order' : ByteOrder) :
    field options order op = field options order' op := by
  cases op with
  | integer width signed =>
      rw [field, FixedInt.decode, FixedInt.decodeUnsigned_of_narrow h order order']
      rfl
  | float width => cases width <;> exact absurd h (by decide)
  | countedBits p =>
      rw [field, Bits.decodeCounted, p.decode_of_narrow h order order']
      rfl
  | countedString p =>
      rw [field, StringField.decodeCounted, p.decode_of_narrow h order order']
      rfl
  | countedBytes p =>
      rw [field, Blob.decodeCounted, p.decode_of_narrow h order order']
      rfl
  | _ => rfl

theorem record_unmarked : ∀ {ops : List Operation}, (∀ op ∈ ops, op.orderedWidth ≤ 1) →
    ∀ order order', record options order ops = record options order' (Operation.unmarked ops)
  | [], _, _, _ => rfl
  | op :: ops, h, order, order' => by
      have hrest := record_unmarked fun op hop => h op (List.mem_cons_of_mem _ hop)
      cases hmarker : op.marker? with
      | some next =>
          obtain rfl := Operation.eq_byteOrder_of_marker hmarker
          rw [Operation.unmarked_marker, ← hrest next order']
          simp [record, field, Operation.orderAfter]
      | none =>
          rw [Operation.unmarked_cons hmarker, record, record,
            field_of_narrow (h op List.mem_cons_self) order order',
            hrest (op.orderAfter order) (op.orderAfter order')]

end Decoder

/-- A size does not depend on the markers. -/
theorem Size.ofOperations_unmarked : ∀ (ops : List Operation) {total : Nat}, total ≤ most →
    ofOperations total ops = ofOperations total (Operation.unmarked ops)
  | [], _, _ => rfl
  | op :: ops, total, htotal => by
      cases hmarker : op.marker? with
      | some next =>
          obtain rfl := Operation.eq_byteOrder_of_marker hmarker
          have hadd : add total 0 = total := Nat.min_eq_left htotal
          rw [Operation.unmarked_marker, ← ofOperations_unmarked ops htotal, ofOperations,
            ofOperation, pure_bind, hadd]
      | none =>
          rw [Operation.unmarked_cons hmarker, ofOperations, ofOperations]
          congr 1
          funext size
          exact ofOperations_unmarked ops (Nat.min_le_right _ _)

/-- Nothing is put behind an output for a marker, and the rest is alike in all orders. -/
theorem Encoder.putAll_unmarked : ∀ {ops : List Operation}, (∀ op ∈ ops, op.orderedWidth ≤ 1) →
    ∀ (order order' : ByteOrder) (output : List UInt8),
      (fields order ops >>= fun written => pure (Operation.putAll ops written output))
        = fields order' (Operation.unmarked ops) >>= fun written =>
          pure (Operation.putAll (Operation.unmarked ops) written output)
  | [], _, _, _, _ => rfl
  | op :: ops, h, order, order', output => by
      have hrest := putAll_unmarked fun op hop => h op (List.mem_cons_of_mem _ hop)
      cases hmarker : op.marker? with
      | some next =>
          obtain rfl := Operation.eq_byteOrder_of_marker hmarker
          have hput : (Operation.byteOrder next).put output [] = output := List.append_nil output
          rw [Operation.unmarked_marker, ← hrest next order']
          simp only [fields, field, pure_bind, bind_assoc, Operation.putAll, hput,
            Operation.orderAfter]
      | none =>
          rw [Operation.unmarked_cons hmarker]
          simp only [fields, bind_assoc, pure_bind, Operation.putAll]
          rw [field_of_narrow (h op List.mem_cons_self) order order']
          congr 1
          funext head
          exact hrest (op.orderAfter order) (op.orderAfter order') (op.put output head)

namespace Format

/-- Packing puts the fields behind nothing, then looks at the values left over. -/
theorem pack_eq_put (format : Format) (values : List Value) (options : Options) :
    format.pack values options =
      match (Encoder.fields .little format.operations >>= fun written =>
        pure (Operation.putAll format.operations written [])) (.ofValues values) with
      | .ok packed args => (args.finish options).map fun _ => packed
      | .error err _ => .error err := by
  rw [pack_eq, fields]
  cases hfields : Encoder.fields .little format.operations (.ofValues values) with
  | ok written args =>
      rw [bind_of_ok hfields]
      show ((args.finish options).map fun _ => written).map _
        = (args.finish options).map fun _ => _
      cases args.finish options <;> rfl
  | error err args =>
      rw [bind_of_error hfields]
      rfl

section
variable {f g : Format} (hops : Operation.unmarked f.operations = Operation.unmarked g.operations)
include hops

theorem measure_of_unmarked (values : List Value) (options : Options) :
    Size.measure f values options = Size.measure g values options := by
  rw [Size.measure, Size.measure, Size.ofOperations_unmarked f.operations (Nat.zero_le _), hops,
    ← Size.ofOperations_unmarked g.operations (Nat.zero_le _)]

theorem narrow_of_unmarked (h : ∀ op ∈ f.operations, op.orderedWidth ≤ 1) :
    ∀ op ∈ g.operations, op.orderedWidth ≤ 1 := by
  intro op hop
  cases hmarker : op.marker? with
  | some next =>
      obtain rfl := Operation.eq_byteOrder_of_marker hmarker
      exact Nat.zero_le 1
  | none =>
      have hmem : op ∈ Operation.unmarked g.operations :=
        List.mem_filter.mpr ⟨hop, by rw [hmarker]; rfl⟩
      rw [← hops] at hmem
      exact h op (List.mem_filter.mp hmem).1

theorem pack_of_unmarked (h : ∀ op ∈ f.operations, op.orderedWidth ≤ 1) (values : List Value)
    (options : Options) : f.pack values options = g.pack values options := by
  rw [pack_eq_put, pack_eq_put, Encoder.putAll_unmarked h .little .little, hops,
    ← Encoder.putAll_unmarked (narrow_of_unmarked hops h) .little .little]

theorem unpack_of_unmarked (h : ∀ op ∈ f.operations, op.orderedWidth ≤ 1) (data : List UInt8)
    (offset : Nat) (options : Options) :
    f.unpack data offset options = g.unpack data offset options := by
  rcases Nat.lt_or_ge data.length offset with hlt | hoffset
  · rw [unpack_of_beyond hlt, unpack_of_beyond hlt]
  · rw [unpack_eq_record hoffset, unpack_eq_record hoffset,
      Decoder.record_unmarked h .little .little, hops,
      ← Decoder.record_unmarked (narrow_of_unmarked hops h) .little .little]

end

/-- The byte order turns the number that a field begins with. Nothing else in
a record depends on it, no size does, and where no number is wider than a byte
nothing does at all. -/
theorem markers_turn_numbers :
    (∀ op, Encoder.field .native op = Encoder.field .little op
        ∧ ∀ order, Encoder.field order op = do
          let written ← Encoder.field .little op
          return order.turn op.orderedWidth written)
      ∧ (∀ (format : Format) values options packed, format.pack values options = .ok packed →
        ∃ fields : List (List UInt8), packed = Operation.putAll format.operations fields []
          ∧ (format.Fits values → packed = fields.flatten)
          ∧ fields.length = format.operations.length
          ∧ ∀ i op, format.operations[i]? = some op → ∃ written args,
            Encoder.field .little op
                (.behind values (Operation.takers (format.operations.take i)).length)
              = .ok written args
            ∧ fields[i]? = some
              (((Operation.lastMarker? (format.operations.take i)).getD .little).turn
                op.orderedWidth written))
      ∧ ∀ f g : Format, Operation.unmarked f.operations = Operation.unmarked g.operations →
        (∀ values options, Size.measure f values options = Size.measure g values options)
          ∧ ((∀ op ∈ f.operations, op.orderedWidth ≤ 1) →
            (∀ values options, f.pack values options = g.pack values options)
              ∧ ∀ data offset options,
                f.unpack data offset options = g.unpack data offset options) := by
  refine ⟨fun op => ⟨Encoder.field_native op, fun order => Encoder.field_eq_turn order op⟩, ?_,
    fun f g hops => ⟨measure_of_unmarked hops, fun h =>
      ⟨pack_of_unmarked hops h, unpack_of_unmarked hops h⟩⟩⟩
  intro format values options packed hpack
  obtain ⟨taken, left, fields, hvalues, hwrites, -, hpacked⟩ := pack_eq_ok_iff.mp hpack
  have hdrop : values.drop 0 = taken ++ left := hvalues
  obtain ⟨hlength, hfields⟩ := hwrites.fields hdrop
  refine ⟨fields, hpacked, fun hfits => ?_, hlength, fun i op hop => ?_⟩
  · rw [hvalues] at hfits
    rw [hpacked, Operation.putAll_of_fits hlength]
    · rfl
    · rw [List.length_nil, Nat.zero_add]
      exact (fits_iff hwrites left).mp hfits
  obtain ⟨written, args, hwritten, hturn⟩ := hfields i op hop
  rw [Nat.zero_add] at hwritten
  rw [ByteOrder.after_eq] at hturn
  exact ⟨written, args, hwritten, hturn⟩

/-- A big-endian length before a text, and a byte and a tagged float among markers. -/
theorem markers_turn_numbers_sample :
    (∃ fields : List (List UInt8), [1, 2, 0, 1, 0x68, 5, 0] = fields.flatten
        ∧ ∃ written args,
          Encoder.field .little (.countedString (.fixed ⟨2, by decide, by decide⟩))
              (.behind [.int 258, .str "h", .int 5] 1) = .ok written args
            ∧ fields[2]? = some (ByteOrder.big.turn 2 written))
      ∧ unpack ⟨[.byteOrder .big, .integer ⟨1, by decide, by decide⟩ true, .taggedFloat]⟩
          [9, 5, 1, 0, 0x3C] 1 .strict
        = unpack ⟨[.integer ⟨1, by decide, by decide⟩ true, .byteOrder .native, .taggedFloat,
          .byteOrder .big]⟩ [9, 5, 1, 0, 0x3C] 1 .strict := by
  obtain ⟨-, hfields, hmarkers⟩ := markers_turn_numbers
  constructor
  · obtain ⟨fields, -, hpacked, -, hfield⟩ := hfields
      ⟨[.byteOrder .big, .integer ⟨2, by decide, by decide⟩ true,
        .countedString (.fixed ⟨2, by decide, by decide⟩), .byteOrder .little,
        .integer ⟨2, by decide, by decide⟩ false]⟩
      [.int 258, .str "h", .int 5] .strict [1, 2, 0, 1, 0x68, 5, 0] (by decide +kernel)
    obtain ⟨written, args, hwritten, hturn⟩ := hfield 2 _ rfl
    exact ⟨fields, hpacked (fits_of_fields rfl (by decide +kernel)), written, args, hwritten,
      hturn⟩
  · exact ((hmarkers _ _ (by decide)).2 (by decide)).2 _ _ _

end Format
end PackedRecord
