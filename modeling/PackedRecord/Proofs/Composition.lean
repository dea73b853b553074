import PackedRecord.Proofs.Advancing
import PackedRecord.Proofs.Misfits

/-!
# One format after another

Two formats make a third whose records are a record of the first with one of
the second behind it. Three things carry over from the first part to the
second: the place in the data, the place among the values, and the byte
order. The places only show in offsets and in the indices of errors. The byte
order would change the second part, so the format behind has to begin with a
byte order of its own (`Format.SetsOrder`).

Reading is then a sequence of two readings (`Decoder.record_append`,
`Format.unpack_append`). For packing, the derivation of the whole record is
the two derivations put together (`Writes.append`), and the misfits of the
whole are those of the first part followed by those of the second one with
their indices moved (`Format.misfit?_append_left`, `Format.misfit?_append_right`).

The fields of the whole are then those of the one and the other
(`Format.fields_append`). They are put behind the first record as they are
behind nothing, zeros included, as long as no number for the end of the output
wraps that did not wrap before (`Operation.putAll_behind`, `Format.HasRoom`).
-/

namespace PackedRecord

namespace Format

/-- The format of the records that consist of a record of each. -/
def append (f g : Format) : Format := ⟨f.operations ++ g.operations⟩

instance : Append Format := ⟨append⟩

theorem operations_append (f g : Format) : (f ++ g).operations = f.operations ++ g.operations := rfl

/-- The format begins with a byte order. -/
def SetsOrder (format : Format) : Prop :=
  ∃ order ops, format.operations = .byteOrder order :: ops

/-- Whatever was written on the way to a record of these values, it is a 64-bit number of
bytes with `before` more in front of it. There is room wherever the bytes in front and
each of the others can be held in memory, which has less than half of that. -/
def HasRoom (format : Format) (values : List Value) (before : Nat) : Prop :=
  ∀ done rest e, format.operations = done ++ rest →
    Encoder.run done (.ofValues values) = .ok () e → before + e.output.length < UInt64.size

end Format

/-- The error with indices and counts that start `n` values earlier. -/
def Error.shifted (n : Nat) : Error → Error
  | .typeMismatch index opcode expected found => .typeMismatch (index + n) opcode expected found
  | .missingArgument index opcode => .missingArgument (index + n) opcode
  | .extraArguments expected supplied => .extraArguments (expected + n) (supplied + n)
  | err => err

/-! ## Reading -/

namespace Decoder

variable {options : Options}

theorem record_append (order : ByteOrder) (f g : List Operation) :
    record options order (f ++ g) = do
      let u ← record options order f
      let w ← record options (order.after f) g
      return u ++ w := by
  induction f generalizing order with
  | nil => simp [record, ByteOrder.after]
  | cons op f ih =>
      simp only [List.cons_append, record, ih, bind_assoc, pure_bind, List.append_assoc]
      rfl

/-- A byte order in front makes the one before it irrelevant. -/
theorem record_setsOrder {ops : List Operation} (h : Format.SetsOrder ⟨ops⟩)
    (order order' : ByteOrder) : record options order ops = record options order' ops := by
  obtain ⟨next, ops', hops⟩ := h
  have hops : ops = .byteOrder next :: ops' := hops
  subst hops
  rfl

end Decoder

namespace Format

variable {f g : Format} {options : Options}

theorem unpack_append (hg : g.SetsOrder) (data : List UInt8) (offset : Nat) (options : Options) :
    (f ++ g).unpack data offset options = do
      let first ← f.unpack data offset options
      let second ← g.unpack data first.nextOffset options
      return ⟨first.values ++ second.values, second.nextOffset⟩ := by
  rcases Nat.lt_or_ge data.length offset with hlt | hoffset
  · rw [unpack_of_beyond hlt, unpack_of_beyond hlt]
    rfl
  · have hrecord : Decoder.record options .little (f ++ g).operations ⟨offset, data.drop offset⟩
        = (do
          let u ← Decoder.record options .little f.operations
          let w ← Decoder.record options .little g.operations
          return u ++ w : Read (List Value)) ⟨offset, data.drop offset⟩ := by
      rw [operations_append, Decoder.record_append,
        Decoder.record_setsOrder hg (ByteOrder.after .little f.operations) .little]
    cases hf : f.unpack data offset options with
    | error err =>
        rw [unpack_eq_record hoffset, hrecord]
        rw [unpack_eq_record hoffset] at hf
        split at hf
        · cases hf
        · next hfirst =>
            cases hf
            rw [bind_of_error hfirst]
            rfl
    | ok first =>
        obtain ⟨u, next⟩ := first
        obtain ⟨-, hnext, hfirst⟩ := record_at_next hf
        rw [unpack_eq_record hoffset, hrecord, bind_of_ok hfirst]
        show _ = (g.unpack data next options >>= fun second => _)
        rw [unpack_eq_record hnext]
        cases hsecond : Decoder.record options .little g.operations ⟨next, data.drop next⟩ with
        | ok w r => rw [bind_of_ok hsecond]; rfl
        | error err r => rw [bind_of_error hsecond]; rfl

end Format

/-! ## Packing -/

namespace Writes

variable {order : ByteOrder} {f g : List Operation} {u w : List Value}
  {a b : List (List UInt8)}

theorem append (hf : Writes order f u a) (hg : Writes (order.after f) g w b) :
    Writes order (f ++ g) (u ++ w) (a ++ b) := by
  induction hf with
  | nil order => exact hg
  | cons head _ ih =>
      rw [List.append_assoc]
      exact .cons head (ih hg)

theorem setsOrder (hops : Format.SetsOrder ⟨g⟩) (h : Writes order g w b) (order' : ByteOrder) :
    Writes order' g w b := by
  obtain ⟨next, ops, heq⟩ := hops
  have heq : g = .byteOrder next :: ops := heq
  subst heq
  cases h with
  | cons head tail =>
      cases head
      exact .cons (.byteOrder next) tail

end Writes

/-! ## Putting fields behind a record -/

namespace Operation

variable {before output field : List UInt8}

/-- A field is put behind more than the output just as behind the output, if there is room. -/
theorem put_behind (op : Operation)
    (h : before.length + (op.put output field).length < UInt64.size) :
    op.put (before ++ output) field = before ++ op.put output field := by
  cases hfills : op.fills with
  | false => rw [put_of_not_fills hfills, put_of_not_fills hfills, List.append_assoc]
  | true =>
      simp only [put, hfills, if_true] at h ⊢
      rw [List.length_take, List.length_append, Nat.min_eq_left (Nat.mod_le _ _)] at h
      have hend : ((before ++ output).length + field.length) % UInt64.size
          = before.length + (output.length + field.length) % UInt64.size := by
        rw [List.length_append, Nat.add_assoc, ← Nat.add_mod_mod, Nat.mod_eq_of_lt h]
      rw [hend, List.append_assoc, List.take_length_add_append]

theorem length_put_le (op : Operation) (output field : List UInt8) :
    (op.put output field).length ≤ output.length + field.length := by
  rw [put, ← List.length_append]
  split
  · exact List.length_take_le' _ _
  · exact Nat.le_refl _

theorem length_putAll_le : ∀ (ops : List Operation) (fields : List (List UInt8))
    (output : List UInt8),
    (putAll ops fields output).length ≤ output.length + fields.flatten.length
  | [], _, output => Nat.le_add_right _ _
  | _ :: _, [], output => Nat.le_add_right _ _
  | op :: ops, written :: rest, output => by
      have hhead := length_put_le op output written
      have hrest := length_putAll_le ops rest (op.put output written)
      rw [putAll, List.flatten_cons, List.length_append]
      omega

theorem putAll_append : ∀ {f : List Operation} {a : List (List UInt8)},
    a.length = f.length → ∀ (g : List Operation) (b : List (List UInt8)) (output : List UInt8),
    putAll (f ++ g) (a ++ b) output = putAll g b (putAll f a output)
  | [], [], _, _, _, _ => rfl
  | op :: f, written :: a, h, g, b, output => by
      rw [List.cons_append, List.cons_append, putAll, putAll,
        putAll_append (Nat.succ.inj h) g b]

theorem putAll_behind : ∀ {ops : List Operation} {fields : List (List UInt8)}
    {output : List UInt8},
    (∀ done rest, ops = done ++ rest →
      before.length + (putAll done fields output).length < UInt64.size) →
    putAll ops fields (before ++ output) = before ++ putAll ops fields output
  | [], _, _, _ => rfl
  | _ :: _, [], _, _ => rfl
  | op :: ops, written :: rest, output, h => by
      rw [putAll, putAll, put_behind op (h [op] ops rfl)]
      exact putAll_behind fun done left hops => h (op :: done) left (by rw [hops]; rfl)

end Operation

namespace Encoder

/-- The first fields of a record are put behind the output by a run up to the last of them. -/
theorem run_of_first_fields {args' : Arguments} {rest : List Operation} :
    ∀ {done : List Operation} {order : ByteOrder} {args : Arguments}
      {written : List (List UInt8)} (output : List UInt8),
    fields order (done ++ rest) args = .ok written args' →
    ∃ args₁, run done ⟨order, args, output⟩
      = .ok () ⟨order.after done, args₁, Operation.putAll done written output⟩
  | [], _, args, _, _, _ => ⟨args, rfl⟩
  | op :: done, order, args, written, output, h => by
      obtain ⟨head, args₁, hhead, htail⟩ := bind_eq_ok.mp h
      obtain ⟨left, args₂, hleft, hpure⟩ := bind_eq_ok.mp htail
      cases hpure
      obtain ⟨args₃, hrun⟩ := run_of_first_fields (op.put output head) hleft
      exact ⟨args₃, by rw [run, bind_of_ok (step_of_field output hhead), hrun]; rfl⟩

end Encoder

/-! ## Misfits -/

theorem Operation.takers_append (f g : List Operation) :
    takers (f ++ g) = takers f ++ takers g :=
  List.filter_append ..

/-- The same value further back is wrong in the same way. -/
theorem Operation.misfit?_shifted (op : Operation) (index n : Nat) (v? : Option Value) :
    op.misfit? (index + n) v? = (op.misfit? index v?).map (Error.shifted n) := by
  cases v? with
  | none => rfl
  | some v =>
      rw [misfit?, misfit?]
      cases op.kind? with
      | none => rfl
      | some kind =>
          simp only
          split
          · rfl
          · cases op.lengthWidth? with
            | none => rfl
            | some width =>
                simp only
                split <;> rfl

namespace Format

variable {f g : Format} {u w : List Value} {options : Options}

theorem valueCount_append (f g : Format) :
    (f ++ g).valueCount = f.valueCount + g.valueCount := by
  simp only [valueCount_eq_length_takers, operations_append, Operation.takers_append,
    List.length_append]

theorem misfit?_append_left (hu : u.length = f.valueCount) {i : Nat} (hi : i < u.length) :
    (f ++ g).misfit? (u ++ w) i = f.misfit? u i := by
  have htakers : i < (Operation.takers f.operations).length := by
    rwa [← valueCount_eq_length_takers, ← hu]
  rw [misfit?, misfitAfter?, operations_append, Operation.takers_append,
    List.getElem?_append_left htakers, List.getElem?_append_left hi]
  rfl

theorem misfit?_append_right (hu : u.length = f.valueCount) (i : Nat) :
    (f ++ g).misfit? (u ++ w) (u.length + i)
      = (g.misfit? w i).map (Error.shifted u.length) := by
  have hlength : (Operation.takers f.operations).length = u.length := by
    rw [hu, valueCount_eq_length_takers]
  rw [misfit?, misfitAfter?, operations_append, Operation.takers_append,
    List.getElem?_append_right (by omega), List.getElem?_append_right (by omega), hlength,
    Nat.add_sub_cancel_left, misfit?, misfitAfter?, Option.map_bind]
  simp only [Function.comp_def, ← Operation.misfit?_shifted]
  rw [Nat.add_right_comm, Nat.add_assoc]

/-- Values beyond those that are taken are no misfits, and neither are those of a record. -/
theorem misfit?_of_fields {written : List (List UInt8)}
    (h : f.fields u options = .ok written) (i : Nat) : f.misfit? u i = none := by
  obtain ⟨args, hfields, -⟩ := fields_eq_ok.mp h
  rcases Encoder.fields_outcome f.operations .little 0 u with
    ⟨k, err, args, -, -, herror⟩ | ⟨hfits, -⟩
  · cases hfields.symm.trans herror
  · exact hfits i

/-- A record of the first format alone has no values left over. -/
theorem writes_of_fields {written : List (List UInt8)} (hu : u.length = f.valueCount)
    (h : f.fields u options = .ok written) : Writes .little f.operations u written := by
  obtain ⟨taken, left, rfl, hwrites, -⟩ := fields_eq_ok_iff.mp h
  have hlength : taken.length = f.valueCount := by
    rw [valueCount, kinds, ← hwrites.kinds, List.length_map]
  rw [List.length_append, hlength] at hu
  have hleft : left = [] := List.eq_nil_of_length_eq_zero (by omega)
  rwa [hleft, List.append_nil]

theorem rejects_append_left {err : Error} (hu : u.length = f.valueCount)
    (h : f.Rejects u options err) : (f ++ g).Rejects (u ++ w) options err := by
  rcases h with ⟨i, hi, hfirst⟩ | ⟨-, hlt, -⟩
  · have hlt : i < u.length := by
      by_contra hge
      rw [hu, valueCount_eq_length_takers] at hge
      rw [misfit?, misfitAfter?, List.getElem?_eq_none (Nat.le_of_not_lt hge)] at hi
      cases hi
    refine Or.inl ⟨i, (misfit?_append_left hu hlt).trans hi, fun j hj => ?_⟩
    rw [misfit?_append_left hu (by omega), hfirst j hj]
  · omega

theorem rejects_append_right {err : Error} (hu : u.length = f.valueCount)
    (hfits : ∀ i, f.misfit? u i = none) (h : g.Rejects w options err) :
    (f ++ g).Rejects (u ++ w) options (err.shifted u.length) := by
  have hleft : ∀ j < u.length, (f ++ g).misfit? (u ++ w) j = none := fun j hj => by
    rw [misfit?_append_left hu hj, hfits]
  have hright : ∀ j, u.length ≤ j → g.misfit? w (j - u.length) = none →
      (f ++ g).misfit? (u ++ w) j = none := by
    intro j hle hnone
    obtain ⟨k, rfl⟩ := Nat.exists_eq_add_of_le hle
    rw [Nat.add_sub_cancel_left] at hnone
    rw [misfit?_append_right hu, hnone]
    rfl
  rcases h with ⟨i, hi, hfirst⟩ | ⟨hnone, hlt, hreject, rfl⟩
  · refine Or.inl ⟨u.length + i, ?_, fun j hj => ?_⟩
    · rw [misfit?_append_right hu, hi]
      rfl
    · rcases Nat.lt_or_ge j u.length with hj' | hle
      · exact hleft j hj'
      · exact hright j hle (hfirst _ (by omega))
  · refine Or.inr ⟨fun j => ?_, ?_, hreject, ?_⟩
    · rcases Nat.lt_or_ge j u.length with hj | hle
      · exact hleft j hj
      · exact hright j hle (hnone _)
    · rw [valueCount_append, List.length_append]
      omega
    · rw [valueCount_append, List.length_append, Error.shifted, hu, Nat.add_comm,
        Nat.add_comm w.length]

/-- The fields of both formats, one after the other. -/
theorem fields_append (hg : g.SetsOrder) (hu : u.length = f.valueCount) (w : List Value)
    (options : Options) :
    (f ++ g).fields (u ++ w) options = do
      let first ← f.fields u options
      let second ← (g.fields w options).mapError (Error.shifted u.length)
      return first ++ second := by
  cases hf : f.fields u options with
  | error err =>
      exact fields_eq_error_iff.mpr (rejects_append_left hu (fields_eq_error_iff.mp hf))
  | ok first =>
      cases hfields : g.fields w options with
      | error err =>
          exact fields_eq_error_iff.mpr
            (rejects_append_right hu (misfit?_of_fields hf) (fields_eq_error_iff.mp hfields))
      | ok second =>
          obtain ⟨taken, left, rfl, hwrites, hleft⟩ := fields_eq_ok_iff.mp hfields
          refine fields_eq_ok_iff.mpr ⟨u ++ taken, left, (List.append_assoc ..).symm, ?_, hleft⟩
          exact (writes_of_fields hu hf).append (hwrites.setsOrder hg _)

theorem measure_append (hg : g.SetsOrder) (hu : u.length = f.valueCount) (w : List Value)
    (options : Options) :
    Size.measure (f ++ g) (u ++ w) options = do
      let first ← Size.measure f u options
      let second ← (Size.measure g w options).mapError (Error.shifted u.length)
      return Size.add first second := by
  simp only [measure_eq, fields_append hg hu]
  cases f.fields u options with
  | error err => rfl
  | ok first =>
      cases g.fields w options with
      | error err => rfl
      | ok second =>
          have hsum : min (first ++ second).flatten.length Size.most
              = Size.add (min first.flatten.length Size.most)
                (min second.flatten.length Size.most) := by
            rw [List.flatten_append, List.length_append, Size.add]
            omega
          exact congrArg Except.ok hsum

theorem pack_append_error (hg : g.SetsOrder) (hu : u.length = f.valueCount) {err : Error}
    (h : f.pack u options = .error err) : (f ++ g).pack (u ++ w) options = .error err := by
  rw [pack_eq, map_eq_error] at h ⊢
  rw [fields_append hg hu, h]
  rfl

theorem pack_append_error_right (hg : g.SetsOrder) (hu : u.length = f.valueCount) {err : Error}
    {first : List UInt8} (hf : f.pack u options = .ok first)
    (h : g.pack w options = .error err) :
    (f ++ g).pack (u ++ w) options = .error (err.shifted u.length) := by
  rw [pack_eq, map_eq_error] at h ⊢
  cases hfields : f.fields u options with
  | error err' =>
      rw [pack_eq, hfields] at hf
      cases hf
  | ok written =>
      rw [fields_append hg hu, hfields, h]
      rfl

/-- There is room if the sizes add up to less than the largest one. -/
theorem hasRoom_of_measure {before size : Nat} (h : Size.measure g w options = .ok size)
    (hsum : before + size < Size.most) : g.HasRoom w before := by
  intro done rest e hops hrun
  rw [measure_eq] at h
  cases hfields : g.fields w options with
  | error err =>
      rw [hfields] at h
      cases h
  | ok written =>
      rw [hfields] at h
      have hsize : min written.flatten.length Size.most = size := Except.ok.inj h
      obtain ⟨args, htaken, -⟩ := fields_eq_ok.mp hfields
      rw [hops] at htaken
      obtain ⟨args₁, hfirst⟩ := Encoder.run_of_first_fields [] htaken
      cases hrun.symm.trans hfirst
      have hlength := Operation.length_putAll_le done written []
      rw [List.length_nil] at hlength
      simp only [Size.most] at hsize hsum
      show before + (Operation.putAll done written []).length < UInt64.size
      omega

/-- Behind a record of the first format the second makes the record that it makes alone. -/
theorem pack_append_ok (hg : g.SetsOrder) (hu : u.length = f.valueCount)
    {first second : List UInt8} (hf : f.pack u options = .ok first)
    (h : g.pack w options = .ok second) (hroom : g.HasRoom w first.length) :
    (f ++ g).pack (u ++ w) options = .ok (first ++ second) := by
  rw [pack_eq] at hf h ⊢
  cases hfields : f.fields u options with
  | error err =>
      rw [hfields] at hf
      cases hf
  | ok written =>
      cases hfields' : g.fields w options with
      | error err =>
          rw [hfields'] at h
          cases h
      | ok written' =>
          rw [hfields] at hf
          rw [hfields'] at h
          cases hf
          cases h
          obtain ⟨args, htaken, -⟩ := fields_eq_ok.mp hfields'
          have hbehind : Operation.putAll g.operations written'
              (Operation.putAll f.operations written [])
              = Operation.putAll f.operations written []
                ++ Operation.putAll g.operations written' [] := by
            conv_lhs => rw [← List.append_nil (Operation.putAll f.operations written [])]
            refine Operation.putAll_behind fun done rest hops => ?_
            rw [hops] at htaken
            obtain ⟨args₁, hrun⟩ := Encoder.run_of_first_fields [] htaken
            exact hroom done rest _ hops hrun
          have hput : Operation.putAll (f ++ g).operations (written ++ written') []
              = Operation.putAll f.operations written []
                ++ Operation.putAll g.operations written' [] := by
            rw [operations_append, Operation.putAll_append (length_of_fields hfields), hbehind]
          rw [fields_append hg hu, hfields, hfields']
          exact congrArg Except.ok hput

/-- A format with another one behind it that begins with a byte order reads,
packs and measures as the two do one after the other. -/
theorem append_composes (f g : Format) (hg : g.SetsOrder) (options : Options) :
    (∀ data offset, (f ++ g).unpack data offset options = do
        let first ← f.unpack data offset options
        let second ← g.unpack data first.nextOffset options
        return ⟨first.values ++ second.values, second.nextOffset⟩)
      ∧ ∀ u w : List Value, u.length = f.valueCount →
        (∀ err, f.pack u options = .error err → (f ++ g).pack (u ++ w) options = .error err)
        ∧ (∀ first, f.pack u options = .ok first →
          (∀ err, g.pack w options = .error err →
            (f ++ g).pack (u ++ w) options = .error (err.shifted u.length))
          ∧ (∀ size, Size.measure g w options = .ok size → first.length + size < Size.most →
            g.HasRoom w first.length)
          ∧ ∀ second, g.pack w options = .ok second → g.HasRoom w first.length →
            (f ++ g).pack (u ++ w) options = .ok (first ++ second))
        ∧ (Size.measure (f ++ g) (u ++ w) options = do
          let first ← Size.measure f u options
          let second ← (Size.measure g w options).mapError (Error.shifted u.length)
          return Size.add first second) :=
  ⟨fun data offset => unpack_append hg data offset options,
    fun _ w hu => ⟨fun _ => pack_append_error hg hu, fun _ hf =>
      ⟨fun _ => pack_append_error_right hg hu hf, fun _ => hasRoom_of_measure,
        fun _ => pack_append_ok hg hu hf⟩,
      measure_append hg hu w options⟩⟩

/-- A big-endian number before a little-endian one and a text, read and written, and the
same with a boolean in place of the text. -/
theorem append_composes_sample :
    (⟨[.byteOrder .big, .integer ⟨2, by decide, by decide⟩ true]⟩
        ++ ⟨[.byteOrder .little, .integer ⟨2, by decide, by decide⟩ true, .terminatedString]⟩
        : Format).unpack [9, 1, 2, 1, 2, 0x68, 0] 1 .strict
        = .ok ⟨[.int 258, .int 513, .str "h"], 7⟩
      ∧ (⟨[.byteOrder .big, .integer ⟨2, by decide, by decide⟩ true]⟩
        ++ ⟨[.byteOrder .little, .integer ⟨2, by decide, by decide⟩ true, .terminatedString]⟩
        : Format).pack ([.int 258] ++ [.int 513, .str "h"]) .strict
        = .ok ([1, 2] ++ [1, 2, 0x68, 0])
      ∧ (⟨[.byteOrder .big, .integer ⟨2, by decide, by decide⟩ true]⟩
        ++ ⟨[.byteOrder .little, .integer ⟨2, by decide, by decide⟩ true, .terminatedString]⟩
        : Format).pack ([.int 258] ++ [.int 513, .bool true]) .strict
        = .error (.typeMismatch 2 'z' .str .bool) := by
  obtain ⟨hunpack, hpack⟩ := append_composes
    ⟨[.byteOrder .big, .integer ⟨2, by decide, by decide⟩ true]⟩
    ⟨[.byteOrder .little, .integer ⟨2, by decide, by decide⟩ true, .terminatedString]⟩
    ⟨.little, _, rfl⟩ .strict
  refine ⟨?_, ?_, ?_⟩
  · rw [hunpack]
    decide +kernel
  · obtain ⟨-, hbehind, -⟩ := hpack [.int 258] [.int 513, .str "h"] rfl
    obtain ⟨-, hroom, hboth⟩ := hbehind [1, 2] (by decide +kernel)
    exact hboth [1, 2, 0x68, 0] (by decide +kernel)
      (hroom 4 (by decide +kernel) (by decide +kernel))
  · obtain ⟨-, hbehind, -⟩ := hpack [.int 258] [.int 513, .bool true] rfl
    exact (hbehind [1, 2] (by decide +kernel)).1 (.typeMismatch 1 'z' .str .bool)
      (by decide +kernel)

end Format
end PackedRecord
