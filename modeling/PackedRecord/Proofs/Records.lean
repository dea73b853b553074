import PackedRecord.Decoder
import PackedRecord.Proofs.Measurement
import PackedRecord.Proofs.Reading

/-!
# Records as derivations

The encoder threads values, byte order and output through a run, the decoder
byte order and position. This file says what a run amounts to once those
threads are taken out.

`Operation.Stores` relates an operation to a value and the field it makes of
it, one rule for each operation, and `Writes` chains fields to a record under
the byte order of the moment. The encoder makes fields exactly when there is
such a derivation (`Encoder.writes_of_fields`, `Encoder.fields_of_writes`), so
packing succeeds just then (`Format.pack_eq_ok_iff`), and a proof about packed
records is an induction over `Writes` with no state in it.

On the side of the decoder, `Decoder.record` is the run as a single reading,
which is what the closure properties of `Reading` apply to.
-/

namespace PackedRecord

/-! ## Taking values -/

namespace Arguments

theorem take_eq_ok {α : Type} {op : Operation} {kind : Kind} {view : Value → Option α}
    {args args' : Arguments} {a : α} :
    take op kind view args = .ok a args' ↔
      ∃ v, args.rest = v :: args'.rest ∧ args'.taken = args.taken + 1 ∧ view v = some a := by
  obtain ⟨taken, rest⟩ := args
  obtain ⟨taken', rest'⟩ := args'
  rw [take]
  constructor
  · intro h
    cases rest with
    | nil => cases h
    | cons v rest =>
        cases hview : view v with
        | none => simp only [hview] at h; cases h
        | some b =>
            simp only [hview] at h
            cases h
            exact ⟨v, rfl, rfl, hview⟩
  · rintro ⟨v, hrest, htaken, hview⟩
    have hrest : rest = v :: rest' := hrest
    have htaken : taken' = taken + 1 := htaken
    simp only [hrest, htaken, hview]

theorem ofExcept_eq_ok {α : Type} {result : Except Error α} {args args' : Arguments} {a : α} :
    ofExcept result args = .ok a args' ↔ result = .ok a ∧ args' = args := by
  cases result with
  | ok b =>
      constructor
      · intro h
        cases h
        exact ⟨rfl, rfl⟩
      · rintro ⟨h, rfl⟩
        cases h
        rfl
  | error e => exact ⟨fun h => (by cases h), fun h => (by cases h.1)⟩

end Arguments

/-! ## The byte order -/

namespace Operation

/-- The byte order that the operation sets, if it sets one. -/
def marker? : Operation → Option ByteOrder
  | .byteOrder order => some order
  | _ => none

theorem orderAfter_eq (order : ByteOrder) (op : Operation) :
    op.orderAfter order = op.marker?.getD order := by
  cases op <;> rfl

end Operation

/-! ## Fields -/

/-- The operation makes this field of the value it takes, if it takes one. -/
inductive Operation.Stores (order : ByteOrder) :
    Operation → Option Value → List UInt8 → Prop where
  | byteOrder (next : ByteOrder) : Stores order (.byteOrder next) none []
  | padding (n : Nat) : Stores order (.padding n) none (List.replicate n 0)
  | bool (b : Bool) : Stores order .bool (some (.bool b)) (SingleBool.encode b)
  | bitArray (count : Nat) (bits : List Bool) :
      Stores order (.bitArray count) (some (.bools bits)) (Bits.encode count bits)
  | countedBits {p : LengthPrefix} {bits : List Bool} {field : List UInt8}
      (h : Bits.encodeCounted p order bits = .ok field) :
      Stores order (.countedBits p) (some (.bools bits)) field
  | integer (width : ByteWidth) (signed : Bool) (word : Int64) :
      Stores order (.integer width signed) (some (.int word))
        (FixedInt.encode order width word.toUInt64.toNat)
  | float (width : FloatWidth) (pattern : UInt64) :
      Stores order (.float width) (some (.float pattern)) (FloatField.encode order width pattern)
  | taggedFloat (pattern : UInt64) :
      Stores order .taggedFloat (some (.float pattern)) (TaggedFloat.encode pattern)
  | signedVarint (word : Int64) :
      Stores order .signedVarint (some (.int word)) (Zigzag.encode word)
  | unsignedVarint (word : Int64) :
      Stores order .unsignedVarint (some (.int word)) (Varint.encode word.toUInt64.toNat)
  | terminatedString (text : String) :
      Stores order .terminatedString (some (.str text)) (StringField.encodeTerminated text)
  | countedString {p : LengthPrefix} {text : String} {field : List UInt8}
      (h : StringField.encodeCounted p order text = .ok field) :
      Stores order (.countedString p) (some (.str text)) field
  | fixedString (size : Nat) (text : String) :
      Stores order (.fixedString size) (some (.str text)) (StringField.encodeFixed size text)
  | fixedBytes (size : Nat) (content : List UInt8) :
      Stores order (.fixedBytes size) (some (.bytes content)) (Blob.encodeFixed size content)
  | countedBytes {p : LengthPrefix} {content field : List UInt8}
      (h : Blob.encodeCounted p order content = .ok field) :
      Stores order (.countedBytes p) (some (.bytes content)) field

namespace Encoder

/-- The encoder makes the field of a value that is next. -/
theorem field_of_stores {order : ByteOrder} {op : Operation} {v? : Option Value}
    {written : List UInt8} (h : op.Stores order v? written) (taken : Nat) (rest : List Value) :
    field order op ⟨taken, v?.toList ++ rest⟩ = .ok written ⟨taken + v?.toList.length, rest⟩ := by
  cases h with
  | countedBits h | countedString h | countedBytes h =>
      have hok : Arguments.ofExcept _ ⟨taken + 1, rest⟩ = .ok written ⟨taken + 1, rest⟩ :=
        Arguments.ofExcept_eq_ok.mpr ⟨h, rfl⟩
      exact hok
  | _ => rfl

/-- A field made from what was taken. -/
theorem eq_of_taken {α : Type} {op : Operation} {kind : Kind} {view : Value → Option α}
    {encode : α → List UInt8} {args args' : Arguments} {written : List UInt8}
    (h : (Arguments.take op kind view >>= fun a => pure (encode a)) args = .ok written args') :
    ∃ v a, view v = some a ∧ args.rest = v :: args'.rest ∧ args'.taken = args.taken + 1
      ∧ encode a = written := by
  obtain ⟨a, args₁, htake, hpure⟩ := bind_eq_ok.mp h
  obtain ⟨v, hrest, htaken, hview⟩ := Arguments.take_eq_ok.mp htake
  cases hpure
  exact ⟨v, a, hview, hrest, htaken, rfl⟩

theorem eq_of_checked {α : Type} {op : Operation} {kind : Kind} {view : Value → Option α}
    {encode : α → Except Error (List UInt8)} {args args' : Arguments} {written : List UInt8}
    (h : (Arguments.take op kind view >>= fun a => Arguments.ofExcept (encode a)) args
      = .ok written args') :
    ∃ v a, view v = some a ∧ args.rest = v :: args'.rest ∧ args'.taken = args.taken + 1
      ∧ encode a = .ok written := by
  obtain ⟨a, args₁, htake, hencode⟩ := bind_eq_ok.mp h
  obtain ⟨v, hrest, htaken, hview⟩ := Arguments.take_eq_ok.mp htake
  obtain ⟨hwritten, rfl⟩ := Arguments.ofExcept_eq_ok.mp hencode
  exact ⟨v, a, hview, hrest, htaken, hwritten⟩

theorem stores_of_field {order : ByteOrder} {op : Operation} {args args' : Arguments}
    {written : List UInt8} (h : field order op args = .ok written args') :
    ∃ v?, op.Stores order v? written ∧ args.rest = v?.toList ++ args'.rest
      ∧ args'.taken = args.taken + v?.toList.length := by
  cases op with
  | byteOrder next =>
      cases h
      exact ⟨none, .byteOrder next, rfl, rfl⟩
  | padding n =>
      cases h
      exact ⟨none, .padding n, rfl, rfl⟩
  | bool =>
      obtain ⟨v, b, hview, hrest, htaken, rfl⟩ := eq_of_taken h
      cases v <;> cases hview
      exact ⟨some (.bool b), .bool b, hrest, htaken⟩
  | bitArray count =>
      obtain ⟨v, bits, hview, hrest, htaken, rfl⟩ := eq_of_taken h
      cases v <;> cases hview
      exact ⟨some (.bools bits), .bitArray count bits, hrest, htaken⟩
  | countedBits p =>
      obtain ⟨v, bits, hview, hrest, htaken, hencode⟩ := eq_of_checked h
      cases v <;> cases hview
      exact ⟨some (.bools bits), .countedBits hencode, hrest, htaken⟩
  | integer width signed =>
      obtain ⟨v, word, hview, hrest, htaken, rfl⟩ := eq_of_taken h
      cases v <;> cases hview
      exact ⟨some (.int word), .integer width signed word, hrest, htaken⟩
  | float width =>
      obtain ⟨v, pattern, hview, hrest, htaken, rfl⟩ := eq_of_taken h
      cases v <;> cases hview
      exact ⟨some (.float pattern), .float width pattern, hrest, htaken⟩
  | taggedFloat =>
      obtain ⟨v, pattern, hview, hrest, htaken, rfl⟩ := eq_of_taken h
      cases v <;> cases hview
      exact ⟨some (.float pattern), .taggedFloat pattern, hrest, htaken⟩
  | signedVarint =>
      obtain ⟨v, word, hview, hrest, htaken, rfl⟩ := eq_of_taken h
      cases v <;> cases hview
      exact ⟨some (.int word), .signedVarint word, hrest, htaken⟩
  | unsignedVarint =>
      obtain ⟨v, word, hview, hrest, htaken, rfl⟩ := eq_of_taken h
      cases v <;> cases hview
      exact ⟨some (.int word), .unsignedVarint word, hrest, htaken⟩
  | terminatedString =>
      obtain ⟨v, text, hview, hrest, htaken, rfl⟩ := eq_of_taken h
      cases v <;> cases hview
      exact ⟨some (.str text), .terminatedString text, hrest, htaken⟩
  | countedString p =>
      obtain ⟨v, text, hview, hrest, htaken, hencode⟩ := eq_of_checked h
      cases v <;> cases hview
      exact ⟨some (.str text), .countedString hencode, hrest, htaken⟩
  | fixedString size =>
      obtain ⟨v, text, hview, hrest, htaken, rfl⟩ := eq_of_taken h
      cases v <;> cases hview
      exact ⟨some (.str text), .fixedString size text, hrest, htaken⟩
  | fixedBytes size =>
      obtain ⟨v, content, hview, hrest, htaken, rfl⟩ := eq_of_taken h
      cases v <;> cases hview
      exact ⟨some (.bytes content), .fixedBytes size content, hrest, htaken⟩
  | countedBytes p =>
      obtain ⟨v, content, hview, hrest, htaken, hencode⟩ := eq_of_checked h
      cases v <;> cases hview
      exact ⟨some (.bytes content), .countedBytes hencode, hrest, htaken⟩

end Encoder

/-! ## Records -/

/-- The operations make these fields of these values, from a byte order on. -/
inductive Writes : ByteOrder → List Operation → List Value → List (List UInt8) → Prop where
  | nil (order : ByteOrder) : Writes order [] [] []
  | cons {order : ByteOrder} {op : Operation} {v? : Option Value} {field : List UInt8}
      {ops : List Operation} {values : List Value} {fields : List (List UInt8)}
      (head : op.Stores order v? field) (tail : Writes (op.orderAfter order) ops values fields) :
      Writes order (op :: ops) (v?.toList ++ values) (field :: fields)

namespace Encoder

theorem writes_of_fields : ∀ {ops : List Operation} {order : ByteOrder} {args args' : Arguments}
    {written : List (List UInt8)}, fields order ops args = .ok written args' →
    ∃ values, Writes order ops values written ∧ args.rest = values ++ args'.rest
  | [], order, args, args', written, h => by
      cases h
      exact ⟨[], .nil order, rfl⟩
  | op :: ops, order, args, args', written, h => by
      obtain ⟨head, args₁, hhead, htail⟩ := bind_eq_ok.mp h
      obtain ⟨rest, args₂, hrest, hpure⟩ := bind_eq_ok.mp htail
      cases hpure
      obtain ⟨v?, hstores, hvalue, -⟩ := stores_of_field hhead
      obtain ⟨values, hwrites, hvalues⟩ := writes_of_fields hrest
      refine ⟨v?.toList ++ values, .cons hstores hwrites, ?_⟩
      rw [hvalue, hvalues, List.append_assoc]

theorem fields_of_writes {order : ByteOrder} {ops : List Operation} {values : List Value}
    {written : List (List UInt8)} (h : Writes order ops values written) (taken : Nat)
    (left : List Value) :
    fields order ops ⟨taken, values ++ left⟩ = .ok written ⟨taken + values.length, left⟩ := by
  induction h generalizing taken with
  | nil order => rfl
  | @cons order op v? field ops values rest head _ ih =>
      rw [List.append_assoc, fields, bind_of_ok (field_of_stores head taken (values ++ left)),
        bind_of_ok (ih (taken + v?.toList.length)), List.length_append, Nat.add_assoc]
      rfl

end Encoder

namespace Arguments

theorem finish_eq_ok {options : Options} {args : Arguments} :
    args.finish options = .ok () ↔ args.rest = [] ∨ options.extraValues = .ignore := by
  rw [finish]
  cases hrest : args.rest with
  | nil => exact ⟨fun _ => Or.inl rfl, fun _ => rfl⟩
  | cons v rest =>
      cases hextra : options.extraValues with
      | ignore => exact ⟨fun _ => Or.inr rfl, fun _ => rfl⟩
      | reject =>
          constructor
          · intro h
            cases h
          · rintro (h | h) <;> cases h

end Arguments

namespace Format

variable {format : Format} {values taken : List Value} {options : Options}
  {written : List (List UInt8)} {packed : List UInt8}

/-- Fields are made of the values of a record and what the policy allows behind them. -/
theorem fields_eq_ok_iff :
    format.fields values options = .ok written ↔
      ∃ taken left, values = taken ++ left ∧ Writes .little format.operations taken written
        ∧ (left = [] ∨ options.extraValues = .ignore) := by
  rw [fields_eq_ok]
  constructor
  · rintro ⟨args, hfields, hfinish⟩
    obtain ⟨taken, hwrites, hvalues⟩ := Encoder.writes_of_fields hfields
    exact ⟨taken, args.rest, hvalues, hwrites, Arguments.finish_eq_ok.mp hfinish⟩
  · rintro ⟨taken, left, rfl, hwrites, hleft⟩
    exact ⟨_, Encoder.fields_of_writes hwrites 0 left, Arguments.finish_eq_ok.mpr hleft⟩

/-- Packing succeeds exactly on the values of a record and what the policy allows
behind them, and puts the fields one behind the other. -/
theorem pack_eq_ok_iff :
    format.pack values options = .ok packed ↔
      ∃ taken left written, values = taken ++ left
        ∧ Writes .little format.operations taken written
        ∧ (left = [] ∨ options.extraValues = .ignore)
        ∧ packed = Operation.putAll format.operations written [] := by
  rw [pack_eq]
  constructor
  · intro h
    cases hfields : format.fields values options with
    | error err =>
        rw [hfields] at h
        cases h
    | ok written =>
        rw [hfields] at h
        cases h
        obtain ⟨taken, left, hvalues, hwrites, hleft⟩ := fields_eq_ok_iff.mp hfields
        exact ⟨taken, left, written, hvalues, hwrites, hleft, rfl⟩
  · rintro ⟨taken, left, written, hvalues, hwrites, hleft, rfl⟩
    rw [fields_eq_ok_iff.mpr ⟨taken, left, hvalues, hwrites, hleft⟩]
    rfl

/-- Whether a record fits is a matter of the fields that its values make. -/
theorem fits_iff (h : Writes .little format.operations taken written) (left : List Value) :
    format.Fits (taken ++ left) ↔ written.flatten.length < UInt64.size := by
  have hfields := Encoder.fields_of_writes h 0 left
  exact ⟨fun hfits => hfits _ _ hfields, fits_of_fields hfields⟩

/-- A record that fits is its fields one after another. -/
theorem pack_of_writes (h : Writes .little format.operations taken written)
    (hlength : written.flatten.length < UInt64.size) (options : Options) :
    format.pack taken options = .ok written.flatten := by
  have hvalues := (List.append_nil taken).symm
  have hfits : format.Fits taken := hvalues ▸ (fits_iff h []).mpr hlength
  rw [pack_of_fits options hfits, fields_eq_ok_iff.mpr ⟨taken, [], hvalues, h, Or.inl rfl⟩]
  rfl

/-- What was packed of values that fit are the fields of a record of them. -/
theorem writes_of_pack_of_fits (hfits : format.Fits values)
    (hpack : format.pack values options = .ok packed) :
    ∃ taken left written, values = taken ++ left
      ∧ Writes .little format.operations taken written
      ∧ packed = written.flatten ∧ written.flatten.length < UInt64.size := by
  rw [pack_of_fits options hfits] at hpack
  cases hfields : format.fields values options with
  | error err =>
      rw [hfields] at hpack
      cases hpack
  | ok written =>
      rw [hfields] at hpack
      cases hpack
      obtain ⟨taken, left, hvalues, hwrites, -⟩ := fields_eq_ok_iff.mp hfields
      exact ⟨taken, left, written, hvalues, hwrites, rfl, length_lt_of_fits hfits hfields⟩

end Format

/-! ## Reading a record -/

/-- The values of a record, as one reading. -/
def Decoder.record (options : Options) : ByteOrder → List Operation → Read (List Value)
  | _, [] => return []
  | order, op :: ops => do
    let v? ← field options order op
    let values ← record options (op.orderAfter order) ops
    return v?.toList ++ values

namespace Decoder

variable {options : Options}

theorem runAfter_of_ok : ∀ {ops : List Operation} (before : List Value) {values : List Value}
    {order : ByteOrder} {r r' : Reader}, record options order ops r = .ok values r' →
    ∃ last, runAfter options before ops ⟨order, r⟩ = .ok (before.reverse ++ values) ⟨last, r'⟩
  | [], before, values, order, r, r', h => by
      cases h
      exact ⟨order, by rw [List.append_nil]; rfl⟩
  | op :: ops, before, values, order, r, r', h => by
      obtain ⟨v?, r₁, hfield, htail⟩ := bind_eq_ok.mp h
      obtain ⟨values', r₂, hrecord, hpure⟩ := bind_eq_ok.mp htail
      cases hpure
      obtain ⟨last, hrun⟩ := runAfter_of_ok (v?.toList ++ before) hrecord
      have hstep : step options op ⟨order, r⟩ = .ok v? ⟨op.orderAfter order, r₁⟩ := by
        simp only [step, hfield]
      have hsingle : v?.toList.reverse = v?.toList := by cases v? <;> rfl
      refine ⟨last, ?_⟩
      rw [runAfter, bind_of_ok hstep, hrun, List.reverse_append, hsingle, List.append_assoc]

theorem runAfter_of_error : ∀ {ops : List Operation} (before : List Value) {order : ByteOrder}
    {r r' : Reader} {err : Error}, record options order ops r = .error err r' →
    ∃ d, runAfter options before ops ⟨order, r⟩ = .error err d
  | [], _, _, _, _, _, h => by cases h
  | op :: ops, before, order, r, r', err, h => by
      rcases bind_eq_error.mp h with hfield | ⟨v?, r₁, hfield, htail⟩
      · have hstep : step options op ⟨order, r⟩ = .error err ⟨order, r'⟩ := by
          simp only [step, hfield]
        exact ⟨_, by rw [runAfter, bind_of_error hstep]⟩
      · have hstep : step options op ⟨order, r⟩ = .ok v? ⟨op.orderAfter order, r₁⟩ := by
          simp only [step, hfield]
        rcases bind_eq_error.mp htail with hrecord | ⟨values, r₂, -, hpure⟩
        · obtain ⟨d, hrun⟩ := runAfter_of_error (v?.toList ++ before) hrecord
          exact ⟨d, by rw [runAfter, bind_of_ok hstep, hrun]⟩
        · cases hpure

end Decoder

namespace Format

variable {format : Format} {data : List UInt8} {offset : Nat} {options : Options}

theorem unpack_eq (hoffset : offset ≤ data.length) :
    format.unpack data offset options =
      match Decoder.runAfter options [] format.operations ⟨.little, ⟨offset, data.drop offset⟩⟩ with
      | .ok values d => .ok ⟨values, d.reader.position⟩
      | .error err _ => .error err := by
  have hstart : Decoder.start data offset = .ok ⟨.little, ⟨offset, data.drop offset⟩⟩ := by
    rw [Decoder.start, Reader.start, if_neg (Nat.not_lt.mpr hoffset)]
    rfl
  rw [unpack, hstart]
  rfl

theorem unpack_of_ok {values : List Value} {r : Reader} (hoffset : offset ≤ data.length)
    (h : Decoder.record options .little format.operations ⟨offset, data.drop offset⟩
      = .ok values r) :
    format.unpack data offset options = .ok ⟨values, r.position⟩ := by
  obtain ⟨last, hrun⟩ := Decoder.runAfter_of_ok [] h
  rw [unpack_eq hoffset, hrun]
  rfl

theorem unpack_of_error {err : Error} {r : Reader} (hoffset : offset ≤ data.length)
    (h : Decoder.record options .little format.operations ⟨offset, data.drop offset⟩
      = .error err r) :
    format.unpack data offset options = .error err := by
  obtain ⟨d, hrun⟩ := Decoder.runAfter_of_error [] h
  rw [unpack_eq hoffset, hrun]

theorem unpack_of_beyond (h : data.length < offset) :
    format.unpack data offset options = .error (.offsetOutOfRange offset data.length) := by
  rw [unpack, Decoder.start, Reader.start, if_pos h]
  rfl

theorem unpack_eq_record (hoffset : offset ≤ data.length) :
    format.unpack data offset options =
      match Decoder.record options .little format.operations ⟨offset, data.drop offset⟩ with
      | .ok values r => .ok ⟨values, r.position⟩
      | .error err _ => .error err := by
  cases hrecord : Decoder.record options .little format.operations ⟨offset, data.drop offset⟩ with
  | ok values r => exact unpack_of_ok hoffset hrecord
  | error err r => exact unpack_of_error hoffset hrecord

theorem unpack_eq_ok_iff {values : List Value} {next : Nat} :
    format.unpack data offset options = .ok ⟨values, next⟩ ↔
      offset ≤ data.length ∧ ∃ rest,
        Decoder.record options .little format.operations ⟨offset, data.drop offset⟩
          = .ok values ⟨next, rest⟩ := by
  constructor
  · intro h
    rcases Nat.lt_or_ge data.length offset with hlt | hoffset
    · rw [unpack_of_beyond hlt] at h
      cases h
    · refine ⟨hoffset, ?_⟩
      rw [unpack_eq_record hoffset] at h
      cases hrecord :
          Decoder.record options .little format.operations ⟨offset, data.drop offset⟩ with
      | ok values' r =>
          rw [hrecord] at h
          cases h
          exact ⟨r.rest, rfl⟩
      | error err r =>
          rw [hrecord] at h
          cases h
  · rintro ⟨hoffset, rest, hrecord⟩
    exact unpack_of_ok hoffset hrecord

end Format
end PackedRecord
