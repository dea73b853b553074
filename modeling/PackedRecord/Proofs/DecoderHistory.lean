import PackedRecord.Proofs.ErrorPlaces

/-!
# What a decoder has been called for

A decoder may be called for one operation after another, and a caller may go
on after a failure with whatever the failed call left. Its state is then a
function of its history: the reader stands somewhere in the data, not before
the place where it began (`Decoder.in_after`), and the byte order is the one
set last (`Decoder.order_after`), since no other call changes it and setting it
never fails. Both are kept by a call and so by a sequence of calls.

From such a state every error can be believed (`Error.TrueOf`), and a run over
a list of operations is the calls for them, up to the first that fails
(`Decoder.runAfter_eq_ok`, `Decoder.runAfter_eq_error`).
-/

namespace PackedRecord

namespace Decoder

/-! ## Histories -/

/-- The decoder that a call for one operation leaves, whatever comes of it. -/
def called (options : Options) (d : Decoder) (op : Operation) : Decoder :=
  match step options op d with
  | .ok _ d' | .error _ d' => d'

/-- The decoder after calls for one operation after another. -/
def after (options : Options) (d : Decoder) (ops : List Operation) : Decoder :=
  ops.foldl (called options) d

variable {options : Options} {op : Operation} {d d' : Decoder}

theorem called_of_ok {v? : Option Value} (h : step options op d = .ok v? d') :
    d.called options op = d' := by
  rw [called, h]

theorem called_of_error {err : Error} (h : step options op d = .error err d') :
    d.called options op = d' := by
  rw [called, h]

theorem step_of_field {v? : Option Value} {r : Reader}
    (h : field options d.order op d.reader = .ok v? r) :
    step options op d = .ok v? ⟨op.orderAfter d.order, r⟩ := by
  rw [step, h]

theorem step_of_field_error {err : Error} {r : Reader}
    (h : field options d.order op d.reader = .error err r) :
    step options op d = .error err ⟨d.order, r⟩ := by
  rw [step, h]

theorem step_eq_ok {v? : Option Value} (h : step options op d = .ok v? d') :
    field options d.order op d.reader = .ok v? d'.reader ∧ d'.order = op.orderAfter d.order := by
  cases hfield : field options d.order op d.reader with
  | ok v'? r =>
      rw [step_of_field hfield] at h
      cases h
      exact ⟨rfl, rfl⟩
  | error err r =>
      rw [step_of_field_error hfield] at h
      cases h

theorem step_eq_error {err : Error} (h : step options op d = .error err d') :
    field options d.order op d.reader = .error err d'.reader ∧ d'.order = d.order := by
  cases hfield : field options d.order op d.reader with
  | ok v? r =>
      rw [step_of_field hfield] at h
      cases h
  | error err' r =>
      rw [step_of_field_error hfield] at h
      cases h
      exact ⟨rfl, rfl⟩

/-! ## The reader -/

theorem start_of_le {data : List UInt8} {offset : Nat} (h : offset ≤ data.length) :
    ∃ first, start data offset = .ok first ∧ first.reader.In data
      ∧ first.reader.position = offset ∧ first.order = .little := by
  have hreader : Reader.start data offset = .ok ⟨offset, data.drop offset⟩ := by
    rw [Reader.start, if_neg (Nat.not_lt.mpr h)]
  refine ⟨⟨.little, ⟨offset, data.drop offset⟩⟩, ?_, Reader.in_drop h, rfl, rfl⟩
  rw [start, hreader]
  rfl

theorem reader_called (options : Options) (d : Decoder) (op : Operation) :
    (d.called options op).reader = Read.after (field options d.order op) d.reader := by
  cases hfield : field options d.order op d.reader with
  | ok v? r => rw [called_of_ok (step_of_field hfield), Read.after_of_ok hfield]
  | error err r => rw [called_of_error (step_of_field_error hfield), Read.after_of_error hfield]

theorem follows_called (options : Options) (d : Decoder) (op : Operation) :
    (d.called options op).reader.Follows d.reader := by
  rw [reader_called]
  exact advances_field options d.order op d.reader

theorem follows_after (options : Options) (d : Decoder) (ops : List Operation) :
    (d.after options ops).reader.Follows d.reader := by
  induction ops generalizing d with
  | nil => exact .refl d.reader
  | cons op ops ih => exact (ih (d.called options op)).trans (follows_called options d op)

theorem in_after {data : List UInt8} (h : d.reader.In data) (options : Options)
    (ops : List Operation) : (d.after options ops).reader.In data :=
  h.follows (follows_after options d ops)

/-! ## The byte order -/

/-- Only a marker changes the byte order, and a marker never fails. -/
theorem order_called (options : Options) (d : Decoder) (op : Operation) :
    (d.called options op).order = op.marker?.getD d.order := by
  cases hstep : step options op d with
  | ok v? d' => rw [called_of_ok hstep, (step_eq_ok hstep).2, Operation.orderAfter_eq]
  | error err d' =>
      rw [called_of_error hstep, (step_eq_error hstep).2]
      cases op with
      | byteOrder next => cases hstep
      | _ => rfl

theorem order_after (options : Options) (d : Decoder) (ops : List Operation) :
    (d.after options ops).order = (ops.filterMap Operation.marker?).getLast?.getD d.order := by
  induction ops generalizing d with
  | nil => rfl
  | cons op ops ih =>
      have hrest := ih (d.called options op)
      rw [order_called] at hrest
      refine hrest.trans ?_
      cases hmarker : op.marker? with
      | none => rw [List.filterMap_cons_none hmarker, Option.getD_none]
      | some order =>
          rw [List.filterMap_cons_some hmarker, List.getLast?_cons, Option.getD_some,
            Option.getD_some]

/-! ## Calls that fail -/

theorem trueOf_step {data : List UInt8} {err : Error} (hd : d.reader.In data)
    (h : step options op d = .error err d') :
    err.TrueOf data d.reader.position d'.reader.position :=
  truthful_field options d.order op hd (step_eq_error h).1

/-- The same call goes on where bytes are no text if it may replace them. -/
theorem step_lossy {p : Nat} (h : step options op d = .error (.invalidUtf8 p) d') :
    ∃ v?, step { options with invalidUtf8 := .lossy } op d = .ok v? d' := by
  obtain ⟨hfield, horder⟩ := step_eq_error h
  obtain ⟨v?, hlossy⟩ := recovers_field options d.order op hfield
  refine ⟨v?, (step_of_field hlossy).trans ?_⟩
  have hkept : op.orderAfter d.order = d'.order := by
    cases op with
    | byteOrder next => cases h
    | _ => exact horder.symm
  rw [hkept]

/-! ## Runs -/

theorem kind_of_mapped {α : Type} {x : Read α} {wrap : α → Value} {kind : Kind} {r r' : Reader}
    {v? : Option Value} (h : (x >>= fun a => pure (some (wrap a))) r = .ok v? r')
    (hkind : ∀ a, (wrap a).kind = kind) : v?.map Value.kind = some kind := by
  obtain ⟨a, r₁, -, hpure⟩ := bind_eq_ok.mp h
  cases hpure
  exact congrArg some (hkind a)

/-- A field is read as a value of the kind that its operation stands for. -/
theorem kind_of_field {order : ByteOrder} {r r' : Reader} {v? : Option Value}
    (h : field options order op r = .ok v? r') : v?.map Value.kind = op.kind? := by
  cases op with
  | byteOrder next =>
      cases h
      rfl
  | padding n =>
      obtain ⟨⟨⟩, r₁, -, hpure⟩ := bind_eq_ok.mp h
      cases hpure
      rfl
  | _ => exact kind_of_mapped h fun _ => rfl

theorem runAfter_eq_ok : ∀ {ops : List Operation} {before values : List Value} {d d' : Decoder},
    runAfter options before ops d = .ok values d' →
    values.map Value.kind = before.reverse.map Value.kind ++ ops.filterMap Operation.kind?
      ∧ d' = d.after options ops
  | [], before, values, d, d', h => by
      cases h
      exact ⟨(List.append_nil _).symm, rfl⟩
  | op :: ops, before, values, d, d', h => by
      obtain ⟨v?, d₁, hstep, hrun⟩ := bind_eq_ok.mp h
      obtain ⟨hkinds, hlast⟩ := runAfter_eq_ok hrun
      have hkind := kind_of_field (step_eq_ok hstep).1
      refine ⟨?_, by rw [hlast, ← called_of_ok hstep]; rfl⟩
      cases v? with
      | none => rw [hkinds, List.filterMap_cons_none hkind.symm]; rfl
      | some v =>
          rw [hkinds, List.filterMap_cons_some hkind.symm]
          simp

/-- A run stops in the first call that fails, and in what that call leaves. -/
theorem runAfter_eq_error : ∀ {ops : List Operation} {before : List Value} {d d' : Decoder}
    {err : Error}, runAfter options before ops d = .error err d' →
    ∃ done op rest, ops = done ++ op :: rest
      ∧ (∀ before', ∃ values,
        runAfter options before' done d = .ok values (d.after options done))
      ∧ step options op (d.after options done) = .error err d'
  | [], _, _, _, _, h => by cases h
  | op :: ops, before, d, d', err, h => by
      rcases bind_eq_error.mp h with hstep | ⟨v?, d₁, hstep, hrun⟩
      · exact ⟨[], op, ops, rfl, fun before' => ⟨before'.reverse, rfl⟩, hstep⟩
      · obtain ⟨done, op', rest, rfl, hdone, hfail⟩ := runAfter_eq_error hrun
        obtain rfl := called_of_ok hstep
        refine ⟨op :: done, op', rest, rfl, fun before' => ?_, hfail⟩
        obtain ⟨values, hvalues⟩ := hdone (v?.toList ++ before')
        exact ⟨values, (bind_of_ok hstep).trans hvalues⟩

/-! ## Whole histories -/

/-- Wherever calls have led a decoder, it stands in the data in the byte order
set last, goes forward, and says the truth about what is wrong; and a run is
the calls for its operations, up to the first that fails. -/
theorem history_is_truthful {data : List UInt8} {offset : Nat} (hoffset : offset ≤ data.length)
    (options : Options) (calls : List Operation) :
    ∃ first d, start data offset = .ok first ∧ d = first.after options calls
      ∧ (offset ≤ d.reader.position ∧ d.reader.position ≤ data.length
        ∧ d.order = (calls.filterMap Operation.marker?).getLast?.getD .little)
      ∧ (∀ op, d.reader.position ≤ (d.called options op).reader.position
        ∧ (d.called options op).reader.position ≤ data.length)
      ∧ (∀ op err d', step options op d = .error err d' →
        err.TrueOf data d.reader.position d'.reader.position
          ∧ ∀ p, err = .invalidUtf8 p →
            ∃ v?, step { options with invalidUtf8 := .lossy } op d = .ok v? d')
      ∧ (∀ ops values d', run options ops d = .ok values d' →
        values.length = Format.valueCount ⟨ops⟩ ∧ values.map Value.kind = Format.kinds ⟨ops⟩
          ∧ d' = d.after options ops)
      ∧ ∀ ops err d', run options ops d = .error err d' →
        ∃ done op rest, ops = done ++ op :: rest
          ∧ (∃ values, run options done d = .ok values (d.after options done))
          ∧ step options op (d.after options done) = .error err d' := by
  obtain ⟨first, hstart, hfirst, hposition, horder⟩ := start_of_le hoffset
  have hfollows := follows_after options first calls
  have hin := in_after hfirst options calls
  refine ⟨first, _, hstart, rfl, ⟨hposition ▸ hfollows.position_le, hin.le, ?_⟩, fun op => ?_,
    fun op err d' h => ⟨trueOf_step hin h, ?_⟩, fun ops values d' h => ?_, fun ops err d' h => ?_⟩
  · rw [order_after, horder]
  · have hcalled := follows_called options (first.after options calls) op
    exact ⟨hcalled.position_le, (hin.follows hcalled).le⟩
  · rintro p rfl
    exact step_lossy h
  · obtain ⟨hkinds, hlast⟩ := runAfter_eq_ok h
    have hkinds : values.map Value.kind = Format.kinds ⟨ops⟩ := hkinds
    exact ⟨by rw [Format.valueCount, ← hkinds, List.length_map], hkinds, hlast⟩
  · obtain ⟨done, op, rest, hops, hdone, hfail⟩ := runAfter_eq_error h
    exact ⟨done, op, rest, hops, hdone [], hfail⟩

/-- A tag that is none, which stays consumed, and behind it a text without an end. -/
theorem history_is_truthful_sample :
    ∃ first d, start [9, 7, 0x68, 0xFF] 1 = .ok first
      ∧ d = first.after .strict [.byteOrder .big, .taggedFloat]
      ∧ d.order = .big
      ∧ step .strict .terminatedString d = .error (.unterminatedString 2) ⟨.big, ⟨4, []⟩⟩
      ∧ (Error.unterminatedString 2).TrueOf [9, 7, 0x68, 0xFF] d.reader.position 4 := by
  obtain ⟨first, d, hstart, hd, ⟨-, -, horder⟩, -, herror, -⟩ :=
    history_is_truthful (show 1 ≤ [9, 7, 0x68, 0xFF].length by decide) .strict
      [.byteOrder .big, .taggedFloat]
  have hstep : step .strict .terminatedString d
      = .error (.unterminatedString 2) ⟨.big, ⟨4, []⟩⟩ := by
    cases hstart
    subst hd
    rfl
  exact ⟨first, d, hstart, hd, horder, hstep, (herror _ _ _ hstep).1⟩

end Decoder
end PackedRecord
