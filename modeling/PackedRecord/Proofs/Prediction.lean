import PackedRecord.Proofs.TightFields

/-!
# Predictions bound every record

What a format says about sizes is said three times over: in the table of fixed
sizes that a prediction adds up, in the bytes that packing writes for a field,
and in those that unpacking takes for one. `Operation.CanTake` is what they
have in common, that a field has its fixed size if there is one and otherwise
takes at least a byte. Packing keeps to it (`Operation.Stores.canTake`) and so
does unpacking, whatever the bytes are (`Decoder.consumes_canTake`).

The length of a record is then a sum of such sizes (`Takes`), and a prediction
covers every one of these sums (`Size.Prediction.Covers`), since it grows with
each operation by what that operation takes at least. The invariant is about
the sum as it is. That predictions stop at the largest size only weakens the
bound, and shows in an exact prediction as in a measurement of the same record.
-/

namespace PackedRecord

/-- The sizes that a field can have: one if the size is fixed, else all but zero. -/
def Operation.CanTake (op : Operation) (size : Nat) : Prop :=
  match op.fixedSize? with
  | some n => size = n
  | none => 0 < size

/-- The sizes that a record of these operations can have. -/
inductive Takes : List Operation → Nat → Prop
  | nil : Takes [] 0
  | cons {op : Operation} {ops : List Operation} {n size : Nat} (head : op.CanTake n)
      (tail : Takes ops size) : Takes (op :: ops) (n + size)

/-! ## Writing -/

theorem Varint.length_pos (n : Nat) : 0 < length n := by
  rw [length]
  omega

theorem LengthPrefix.encodedLength_pos (p : LengthPrefix) (length : Nat) :
    0 < p.encodedLength length := by
  cases p with
  | varint => exact Varint.length_pos length
  | fixed width => exact width.pos

section
variable {p : LengthPrefix} {order : ByteOrder} {count : Nat} {content field : List UInt8}

theorem LengthPrefix.length_of_counted
    (h : (p.check count).map (fun _ => p.field order count ++ content) = .ok field) :
    field.length = p.encodedLength count + content.length := by
  obtain ⟨-, rfl⟩ := map_check_eq_ok.mp h
  rw [List.length_append, length_field]

theorem LengthPrefix.length_pos_of_counted
    (h : (p.check count).map (fun _ => p.field order count ++ content) = .ok field) :
    0 < field.length := by
  rw [length_of_counted h]
  exact Nat.add_pos_left (p.encodedLength_pos count) _

end

theorem Operation.Stores.canTake {order : ByteOrder} {op : Operation} {v? : Option Value}
    {field : List UInt8} (h : op.Stores order v? field) : op.CanTake field.length := by
  cases h with
  | byteOrder next => rfl
  | padding n => exact List.length_replicate
  | bool b => rfl
  | bitArray count bits => exact Bits.length_encode count bits
  | integer width signed word => exact FixedInt.length_encode order width _
  | float width pattern => exact FloatField.length_encode order width pattern
  | fixedString size text => exact StringField.length_encodeFixed size text
  | fixedBytes size content =>
      rw [Blob.encodeFixed_eq]
      exact length_exactly size 0 content
  | countedBits h =>
      rw [Bits.encodeCounted_eq] at h
      exact LengthPrefix.length_pos_of_counted h
  | countedString h =>
      rw [StringField.encodeCounted_eq] at h
      exact LengthPrefix.length_pos_of_counted h
  | countedBytes h =>
      rw [Blob.encodeCounted_eq] at h
      exact LengthPrefix.length_pos_of_counted h
  | taggedFloat pattern => exact Nat.succ_pos _
  | signedVarint word =>
      rw [Zigzag.encode, Varint.length_encode]
      exact Varint.length_pos _
  | unsignedVarint word =>
      rw [Varint.length_encode]
      exact Varint.length_pos _
  | terminatedString text =>
      rw [StringField.length_encodeTerminated]
      exact Nat.succ_pos _

theorem Writes.takes {order : ByteOrder} {ops : List Operation} {values : List Value}
    {fields : List (List UInt8)} (h : Writes order ops values fields) :
    Takes ops fields.flatten.length := by
  induction h with
  | nil order => exact .nil
  | cons head _ ih =>
      rw [List.flatten_cons, List.length_append]
      exact .cons head.canTake ih

/-! ## Reading -/

namespace Read

variable {α : Type}

/-- The reading fails where no data is left. -/
def NeedsData (x : Read α) : Prop := ∀ position, ∃ err r, x ⟨position, []⟩ = .error err r

theorem NeedsData.bind {β : Type} {x : Read α} (h : NeedsData x) (f : α → Read β) :
    NeedsData (x >>= f) := by
  intro position
  obtain ⟨err, r, herr⟩ := h position
  exact ⟨err, r, bind_of_error herr⟩

theorem NeedsData.bytes {n : Nat} (h : 0 < n) : NeedsData (Read.bytes n) :=
  fun position => ⟨_, _, (bytes_eq n ⟨position, []⟩).trans (if_pos h)⟩

/-- A field that needs data and is read alike before anything is not empty. -/
theorem Delimited.consumes_pos {x : Read α} (hx : Delimited x) (h : NeedsData x) :
    Consumes x fun _ field => 0 < field.length := by
  intro r r' a hr
  obtain ⟨field, hrest, hposition, hreads, -⟩ := hx hr
  refine ⟨field, hrest, hposition, List.length_pos_iff.mpr ?_⟩
  rintro rfl
  obtain ⟨err, r₁, herr⟩ := h 0
  cases herr.symm.trans (hreads 0 [])

end Read

namespace Read.Consumes

variable {α β : Type} {x : Read α} {n : Nat}

theorem map_length (hx : Consumes x fun _ taken => taken.length = n) (g : α → β) :
    Consumes (x >>= fun a => Pure.pure (g a)) fun _ taken => taken.length = n :=
  hx.map fun _ _ hlength => hlength

theorem byte_length : Consumes Read.byte fun _ taken => taken.length = 1 :=
  byte.imp fun _ _ htaken => congrArg List.length htaken

theorem bytes_length (n : Nat) : Consumes (Read.bytes n) fun _ taken => taken.length = n :=
  (bytes n).imp fun _ _ ⟨hlength, hsame⟩ => hsame ▸ hlength

end Read.Consumes

theorem StringField.consumes_size (size : Nat) (policy : Utf8Policy) :
    Read.Consumes (decodeFixed size policy) fun _ taken => taken.length = size := by
  refine .position fun start => ?_
  refine (Read.Consumes.bytes_length size).bind fun content taken hlength => ?_
  refine Read.Consumes.ofExcept.imp ?_
  rintro text _ ⟨-, rfl⟩
  rw [List.append_nil]
  exact hlength

theorem Varint.needsData_decode : Read.NeedsData decode := fun _ => ⟨_, _, rfl⟩

theorem LengthPrefix.needsData_decode (p : LengthPrefix) (order : ByteOrder) :
    Read.NeedsData (p.decode order) := by
  cases p with
  | varint => exact Varint.needsData_decode
  | fixed width => exact (Read.NeedsData.bytes width.pos).bind _

theorem StringField.needsData_decodeTerminated {options : Options}
    (hreject : options.unterminatedStrings = .reject) :
    Read.NeedsData (decodeTerminated options) :=
  fun position => ⟨.unterminatedString position, ⟨position + 0, []⟩,
    (decodeTerminated_open options List.not_mem_nil position).trans (if_pos hreject)⟩

namespace Decoder

variable {options : Options}

theorem consumes_canTake (hreject : options.unterminatedStrings = .reject) (order : ByteOrder)
    (op : Operation) :
    Read.Consumes (field options order op) fun _ taken => op.CanTake taken.length := by
  -- What is not of a fixed size reads something first that fails where nothing is left.
  have hvariable : op.fixedSize? = none → Read.NeedsData (field options order op) →
      Read.Consumes (field options order op) fun _ taken => op.CanTake taken.length := by
    intro hnone hneeds
    refine ((delimited_field hreject order op).consumes_pos hneeds).imp fun _ taken hpos => ?_
    rw [Operation.CanTake, hnone]
    exact hpos
  cases op with
  | byteOrder next => exact .pure rfl
  | padding n => exact (Read.Consumes.skip n).map_length _
  | bool => exact (Read.Consumes.byte_length.map_length _).map_length _
  | bitArray count => exact ((Read.Consumes.bytes_length _).map_length _).map_length _
  | integer width signed =>
      exact (((Read.Consumes.bytes_length _).map_length _).map_length _).map_length _
  | float width => exact ((Read.Consumes.bytes_length _).map_length _).map_length _
  | fixedString size => exact (StringField.consumes_size size _).map_length _
  | fixedBytes size => exact (Read.Consumes.bytes_length size).map_length _
  | countedBits p => exact hvariable rfl (((p.needsData_decode order).bind _).bind _)
  | taggedFloat => exact hvariable rfl fun _ => ⟨_, _, rfl⟩
  | signedVarint => exact hvariable rfl ((Varint.needsData_decode.bind _).bind _)
  | unsignedVarint => exact hvariable rfl (Varint.needsData_decode.bind _)
  | terminatedString =>
      exact hvariable rfl ((StringField.needsData_decodeTerminated hreject).bind _)
  | countedString p => exact hvariable rfl (((p.needsData_decode order).bind _).bind _)
  | countedBytes p => exact hvariable rfl (((p.needsData_decode order).bind _).bind _)

theorem consumes_takes (hreject : options.unterminatedStrings = .reject) :
    ∀ (order : ByteOrder) (ops : List Operation),
      Read.Consumes (record options order ops) fun _ taken => Takes ops taken.length
  | _, [] => .pure .nil
  | order, op :: ops =>
      (consumes_canTake hreject order op).bind fun v? field hhead =>
        (consumes_takes hreject (op.orderAfter order) ops).map fun values fields htail => by
          rw [List.length_append]
          exact .cons hhead htail

end Decoder

/-! ## Predictions -/

namespace Size

/-- The prediction is right about a record of this size: it is a lower bound,
and nothing but the limit of sizes keeps it apart from an exact one. -/
structure Prediction.Covers (p : Prediction) (size : Nat) : Prop where
  le : p.fixedBytes + p.variableFields ≤ size
  eq : p.variableFields = 0 → p.fixedBytes = min size most

theorem Prediction.Covers.extend {p : Prediction} {size n : Nat} {op : Operation}
    (h : p.Covers size) (hn : op.CanTake n) : (p.extend op).Covers (size + n) := by
  obtain ⟨hle, heq⟩ := h
  rw [Operation.CanTake] at hn
  rw [Prediction.extend]
  cases hfixed : op.fixedSize? with
  | some m =>
      rw [hfixed] at hn
      have hn : n = m := hn
      refine ⟨?_, fun hnone => ?_⟩
      · simp only [add]
        omega
      · have heq := heq hnone
        simp only [add]
        omega
  | none =>
      rw [hfixed] at hn
      have hn : 0 < n := hn
      refine ⟨?_, fun hnone => absurd hnone (Nat.succ_ne_zero _)⟩
      simp only
      omega

theorem Prediction.Covers.run {ops : List Operation} {size : Nat} (h : Takes ops size)
    {p : Prediction} {before : Nat} (hp : p.Covers before) :
    (ops.foldl Prediction.extend p).Covers (before + size) := by
  induction h generalizing p before with
  | nil => exact hp
  | cons head _ ih =>
      rw [List.foldl_cons, ← Nat.add_assoc]
      exact ih (hp.extend head)

theorem covers_predict {format : Format} {size : Nat} (h : Takes format.operations size) :
    (predict format).Covers size := by
  have hnothing : Prediction.Covers ⟨0, 0⟩ 0 := ⟨Nat.le_refl 0, fun _ => rfl⟩
  have hcovers := Prediction.Covers.run h hnothing
  rwa [Nat.zero_add] at hcovers

theorem Prediction.eq_some_iff {p : Prediction} {size : Nat} :
    p.exact? = some size ↔ p.variableFields = 0 ∧ p.fixedBytes = size := by
  unfold Prediction.exact?
  split
  · next hnone => simp [hnone]
  · next hsome => simp [hsome]

/-- A record takes no fewer bytes than were predicted for its format, whether
it is measured or read, and as many if the prediction is exact. Sums stop at the
largest 64-bit number in a measured size and in a prediction, but not in the data, so
that an exact size can only be read off data whose own length fits 64 bits. -/
theorem predict_bounds (format : Format) :
    let p := predict format
    (p.variableFields = 0 ↔ ∃ exact, p.exact? = some exact)
      ∧ (∀ values options size, measure format values options = .ok size →
        min most (p.fixedBytes + p.variableFields) ≤ size
        ∧ ∀ exact, p.exact? = some exact → size = p.fixedBytes)
      ∧ ∀ data offset options values next, options.unterminatedStrings = .reject →
        format.unpack data offset options = .ok ⟨values, next⟩ →
        offset + (p.fixedBytes + p.variableFields) ≤ next
        ∧ ∀ exact, p.exact? = some exact → data.length < UInt64.size → next = offset + exact := by
  intro p
  refine ⟨⟨fun hnone => ⟨_, Prediction.eq_some_iff.mpr ⟨hnone, rfl⟩⟩,
    fun ⟨_, hexact⟩ => (Prediction.eq_some_iff.mp hexact).1⟩, ?_, ?_⟩
  · intro values options size hmeasure
    rw [Format.measure_eq] at hmeasure
    cases hfields : format.fields values options with
    | error err =>
        rw [hfields] at hmeasure
        cases hmeasure
    | ok written =>
        rw [hfields] at hmeasure
        cases hmeasure
        obtain ⟨taken, left, -, hwrites, -⟩ := Format.fields_eq_ok_iff.mp hfields
        obtain ⟨hle, heq⟩ : p.Covers written.flatten.length := covers_predict hwrites.takes
        refine ⟨?_, fun exact hexact => (heq (Prediction.eq_some_iff.mp hexact).1).symm⟩
        show _ ≤ min written.flatten.length most
        omega
  · intro data offset options values next hreject hunpack
    obtain ⟨hoffset, rest, hrecord⟩ := Format.unpack_eq_ok_iff.mp hunpack
    obtain ⟨field, hsplit, hnext, htakes⟩ :=
      Decoder.consumes_takes hreject .little format.operations hrecord
    have hsplit : data.drop offset = field ++ rest := hsplit
    have hnext : next = offset + field.length := hnext
    obtain ⟨hle, heq⟩ : p.Covers field.length := covers_predict htakes
    refine ⟨by omega, fun exact hexact hdata => ?_⟩
    obtain ⟨hnone, rfl⟩ := Prediction.eq_some_iff.mp hexact
    have hlength := congrArg List.length hsplit
    rw [List.length_drop, List.length_append] at hlength
    have hmost : field.length ≤ most := Nat.le_sub_one_of_lt (by omega)
    rw [heq hnone, Nat.min_eq_left hmost, hnext]

/-- Sizes beyond 64 bits that are exact all the same, a text behind a number, and
a text in a buffer. -/
theorem predict_bounds_sample :
    (measure ⟨[.padding 18446744073709551615, .fixedBytes 3, .bool]⟩ [.bytes [7], .bool true]
        .strict = .ok 18446744073709551615
      ∧ 18446744073709551615
        = (predict ⟨[.padding 18446744073709551615, .fixedBytes 3, .bool]⟩).fixedBytes)
      ∧ 1 + ((predict ⟨[.integer ⟨2, by decide, by decide⟩ true, .terminatedString]⟩).fixedBytes
        + (predict ⟨[.integer ⟨2, by decide, by decide⟩ true, .terminatedString]⟩).variableFields)
        ≤ 5
      ∧ 3 = 1 + 2 := by
  have hmeasure : measure ⟨[.padding 18446744073709551615, .fixedBytes 3, .bool]⟩
      [.bytes [7], .bool true] .strict = .ok 18446744073709551615 := by decide +kernel
  obtain ⟨-, hmeasured, -⟩ :=
    predict_bounds ⟨[.padding 18446744073709551615, .fixedBytes 3, .bool]⟩
  obtain ⟨-, -, hread⟩ :=
    predict_bounds ⟨[.integer ⟨2, by decide, by decide⟩ true, .terminatedString]⟩
  obtain ⟨-, -, hexact⟩ := predict_bounds ⟨[.byteOrder .big, .fixedString 2]⟩
  refine ⟨⟨hmeasure, (hmeasured _ _ _ hmeasure).2 _ rfl⟩, ?_, ?_⟩
  · exact (hread [9, 1, 2, 0x68, 0, 7] 1 .strict [.int 513, .str "h"] 5 rfl (by decide +kernel)).1
  · have hunpack : Format.unpack ⟨[.byteOrder .big, .fixedString 2]⟩ [9, 0x68, 0, 7] 1 .strict
        = .ok ⟨[.str "h"], 3⟩ := by decide +kernel
    exact (hexact _ _ _ _ _ rfl hunpack).2 2 rfl (by decide)

end Size
end PackedRecord
