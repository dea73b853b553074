import PackedRecord.Proofs.CommandDocuments
import PackedRecord.Proofs.JsonArguments
import PackedRecord.Proofs.Leniency

/-!
# Items beyond the last field

A document is converted item by item before anything is packed, and the items
beyond the last field convert by their own shape. Ignoring what is left over is
decided later, when the values are at hand, so a surplus item is ignored only
if it has made a value: if its kind is obvious (`Json.HasObviousKind`). An item
without one ends the command, whatever the options say.

Reading a document is reading the beginning that the fields take and then the
rest without expectations (`Format.convertFrom_append`). If the beginning does
not convert, the rest is not looked at; if all of the rest converts, what comes
of it is not packed (`Format.fields_append_ignored`). What remains is a surplus
item at fault, and `surplus_items_need_kinds` says what a run comes to in each
of these cases.
-/

namespace PackedRecord

/-! ## Obvious kinds -/

/-- Whether the kind of a value shows in the document that spells it. -/
def Json.HasObviousKind : Json → Prop
  | .bool _ | .number _ | .string _ => True
  | .array items =>
    (∀ item ∈ items, ∃ b, item = .bool b) ∨ ∀ item ∈ items, ∃ n < 256, item = .ofNat n
  | .null | .object _ => False

namespace Value

theorem bool?_isSome_iff (item : Json) : item.bool?.isSome ↔ ∃ b, item = .bool b := by
  cases item <;> simp [Json.bool?]

theorem byteOfJson?_isSome_iff (item : Json) :
    (byteOfJson? item).isSome ↔ ∃ n < 256, item = .ofNat n := by
  constructor
  · intro h
    obtain ⟨b, hb⟩ := Option.isSome_iff_exists.mp h
    obtain ⟨n, hn, hb⟩ := Option.bind_eq_some_iff.mp hb
    split at hb
    · next hrange =>
        obtain ⟨n, rfl⟩ := Int.eq_ofNat_of_zero_le hrange.1
        refine ⟨n, by omega, ?_⟩
        cases item with
        | number found =>
            cases found with
            | integer _ => cases hn; rfl
            | float _ => cases hn
        | _ => cases hn
    · cases hb
  · rintro ⟨n, hn, rfl⟩
    simp [byteOfJson?, Json.ofNat, Json.integer?, hn]

theorem mapM_isSome_iff {α β : Type} (f : α → Option β) (items : List α) :
    (items.mapM f).isSome ↔ ∀ item ∈ items, (f item).isSome := by
  induction items with
  | nil => simp
  | cons item items ih =>
      rw [List.mapM_cons, List.forall_mem_cons, ← ih]
      cases f item <;> cases items.mapM f <;> simp

theorem ofJson?_bools_isSome_iff (items : List Json) :
    (ofJson? .bools (.array items)).isSome ↔ ∀ item ∈ items, ∃ b, item = .bool b := by
  simp only [← bool?_isSome_iff, ← mapM_isSome_iff]
  show ((items.mapM Json.bool?).bind fun bits => some (Value.bools bits)).isSome ↔ _
  cases items.mapM Json.bool? <;> simp

theorem ofJson?_bytes_isSome_iff (items : List Json) :
    (ofJson? .bytes (.array items)).isSome ↔ ∀ item ∈ items, ∃ n < 256, item = .ofNat n := by
  simp only [← byteOfJson?_isSome_iff, ← mapM_isSome_iff]
  show ((items.mapM byteOfJson?).bind fun content => some (Value.bytes content)).isSome ↔ _
  cases items.mapM byteOfJson? <;> simp

/-- Only an item whose kind is obvious makes a value where none is expected. -/
theorem inferJson?_isSome_iff (j : Json) : (inferJson? j).isSome ↔ j.HasObviousKind := by
  cases j with
  | null => simp [inferJson?, Json.HasObviousKind]
  | bool b => simp [inferJson?, Json.HasObviousKind]
  | number n => cases n <;> simp [inferJson?, Json.HasObviousKind]
  | string text => simp [inferJson?, Json.HasObviousKind]
  | object fields => simp [inferJson?, Json.HasObviousKind]
  | array items =>
      have hall : (items.all fun item => item.bool?.isSome) = true
          ↔ ∀ item ∈ items, ∃ b, item = .bool b := by
        simp only [List.all_eq_true, bool?_isSome_iff]
      rw [inferJson?, Json.HasObviousKind]
      split
      · next h =>
          have hbits := hall.mp h
          exact iff_of_true ((ofJson?_bools_isSome_iff items).mpr hbits) (Or.inl hbits)
      · next h =>
          rw [ofJson?_bytes_isSome_iff, or_iff_right (mt hall.mpr h)]

end Value

namespace Format

/-! ## The beginning and the rest -/

/-- Reading may stop anywhere and go on with the kinds that are left. -/
theorem convertFrom_append (items more : List Json) (index : Nat) (before : List Value)
    (kinds : List Kind) :
    convertFrom index before kinds (items ++ more)
      = (convertFrom index before kinds items).bind fun values =>
        convertFrom (index + items.length) values.reverse (kinds.drop items.length) more := by
  induction items generalizing index before kinds with
  | nil =>
      rw [convertFrom]
      simp [Except.bind]
  | cons item items ih =>
      rw [List.cons_append, convertFrom, convertFrom]
      cases Value.ofItem? kinds.head? item with
      | none => rfl
      | some v =>
          simp only [ih, List.length_cons, List.drop_tail]
          rw [Nat.add_right_comm, Nat.add_assoc]

/-- Where nothing is expected every item has to have an obvious kind. -/
theorem convertFrom_rest (items : List Json) (index : Nat) (before : List Value) :
    (∀ item ∈ items, item.HasObviousKind)
        ∧ (∃ new, new.length = items.length
          ∧ convertFrom index before [] items = .ok (before.reverse ++ new))
      ∨ ∃ i found, items[i]? = some found ∧ ¬ found.HasObviousKind
        ∧ (∀ k item, k < i → items[k]? = some item → item.HasObviousKind)
        ∧ convertFrom index before [] items = .error (.unconvertible (index + i) none found) := by
  cases h : convertFrom index before [] items with
  | ok values =>
      obtain ⟨new, rfl, hlength, hnew⟩ := convertFrom_eq_ok_iff.mp h
      refine Or.inl ⟨fun item hitem => ?_, new, hlength, rfl⟩
      obtain ⟨i, hi, rfl⟩ := List.mem_iff_getElem.mp hitem
      have hread : Value.inferJson? items[i] = new[i]? :=
        hnew i items[i] (List.getElem?_eq_getElem hi)
      rw [← Value.inferJson?_isSome_iff, hread, List.getElem?_eq_getElem (hlength ▸ hi)]
      rfl
  | error mismatch =>
      obtain ⟨i, found, rfl, hfound, hnone, hbefore⟩ := convertFrom_eq_error h
      refine Or.inr ⟨i, found, hfound, ?_, fun k item hk hitem => ?_, rfl⟩
      · rw [← Value.inferJson?_isSome_iff, Option.not_isSome_iff_eq_none]
        exact hnone
      · rw [← Value.inferJson?_isSome_iff, Option.isSome_iff_ne_none]
        exact hbefore k item hk hitem

section
variable {format : Format} {items : List Json} {options : Options}

theorem valuesOfJson_eq_bind (format : Format) (items : List Json) :
    format.valuesOfJson (.array items)
      = (format.valuesOfJson (.array (items.take format.valueCount))).bind fun values =>
        convertFrom (items.take format.valueCount).length values.reverse []
          (items.drop format.valueCount) := by
  have hsplit := convertFrom_append (items.take format.valueCount) (items.drop format.valueCount)
    0 [] format.kinds
  rw [List.take_append_drop, Nat.zero_add] at hsplit
  refine hsplit.trans ?_
  rcases Nat.le_total format.valueCount items.length with hlong | hshort
  · -- the beginning takes all the kinds
    have hlength : (items.take format.valueCount).length = format.kinds.length :=
      List.length_take_of_le hlong
    rw [List.drop_of_length_le (Nat.le_of_eq hlength.symm)]
    rfl
  · rw [List.drop_of_length_le hshort]
    rfl

/-- If the beginning converts, so does everything, or an item beyond the last
field has no obvious kind. -/
theorem valuesOfJson_of_take {values : List Value}
    (h : format.valuesOfJson (.array (items.take format.valueCount)) = .ok values) :
    (∀ item ∈ items.drop format.valueCount, item.HasObviousKind)
        ∧ (∃ new, format.valuesOfJson (.array items) = .ok (values ++ new)
          ∧ (format.valueCount ≤ values.length ∨ new = []))
      ∨ ∃ place found, format.valueCount ≤ place ∧ items[place]? = some found
        ∧ ¬ found.HasObviousKind
        ∧ (∀ k item, format.valueCount ≤ k → k < place → items[k]? = some item →
          item.HasObviousKind)
        ∧ format.valuesOfJson (.array items) = .error (.unconvertible place none found) := by
  have hlength := (valuesOfJson_array_eq_ok_iff.mp h).1
  rw [valuesOfJson_eq_bind, h]
  rcases convertFrom_rest (items.drop format.valueCount) (items.take format.valueCount).length
    values.reverse with ⟨hkinds, new, hnew, hrest⟩ | ⟨i, found, hfound, hkind, hbefore, hrest⟩
  · rw [List.reverse_reverse] at hrest
    refine Or.inl ⟨hkinds, new, hrest, ?_⟩
    rw [List.length_drop] at hnew
    rw [List.length_take] at hlength
    rcases Nat.le_total format.valueCount items.length with hlong | hshort
    · exact Or.inl (by omega)
    · exact Or.inr (List.length_eq_zero_iff.mp (by omega))
  · have hi := (List.getElem?_eq_some_iff.mp hfound).1
    rw [List.length_drop] at hi
    rw [List.length_take_of_le (by omega)] at hrest ⊢
    rw [List.getElem?_drop] at hfound
    refine Or.inr ⟨format.valueCount + i, found, Nat.le_add_right _ _, hfound, hkind, ?_, hrest⟩
    intro k item hk hlt hitem
    refine hbefore (k - format.valueCount) item (by omega) ?_
    rw [List.getElem?_drop, Nat.add_sub_cancel' hk]
    exact hitem

/-- No field is made of what is left over. -/
theorem fields_append_ignored (hignore : options.extraValues = .ignore) {values new : List Value}
    (hnew : format.valueCount ≤ values.length ∨ new = []) :
    format.fields (values ++ new) options = format.fields values options := by
  rcases hnew with hlength | rfl
  · have hoptions : options = { options with extraValues := .ignore } := by rw [← hignore]
    rw [hoptions, fields_ignore, fields_ignore, List.take_append_of_le_length hlength]
  · rw [List.append_nil]

end
end Format

namespace Command

/-! ## Runs -/

/-- The commands that take values. -/
inductive Taker where
  | pack (output? : Option String)
  | size

namespace Taker

def invocation (text argument : String) : Taker → Invocation
  | .pack output? => .pack text argument output?
  | .size => .size text (some argument)

/-- What the command does with the values. -/
def goOn {σ : Type} (system : System (StateM σ)) (options : Options) (format : Format)
    (values : List Value) : Taker → Step (StateM σ) Unit
  | .pack output? =>
    settle Failure.ofError (format.pack values options) >>= fun content =>
      deliver system content output?
  | .size =>
    settle Failure.ofError (Size.measure format values options) >>= fun size =>
      printOut system (line (Json.ofFields [("size", .ofNat size)]).compact)

variable {options : Options} {taker : Taker} {format : Format}

section
variable {σ : Type} (system : System (StateM σ))

theorem perform_invocation (options : Options) (text argument : String) (taker : Taker) :
    perform system options (taker.invocation text argument)
      = valuesOf system text argument fun format values =>
        taker.goOn system options format values := by
  cases taker with
  | pack output? => exact perform_pack system options text argument output?
  | size => exact perform_size system options text argument

theorem goOn_append (hignore : options.extraValues = .ignore) {values new : List Value}
    (hnew : format.valueCount ≤ values.length ∨ new = []) (taker : Taker) :
    taker.goOn system options format (values ++ new)
      = taker.goOn system options format values := by
  cases taker with
  | pack output? =>
      rw [goOn, goOn, Format.pack_eq, Format.fields_append_ignored hignore hnew,
        ← Format.pack_eq]
  | size =>
      rw [goOn, goOn, Format.measure_eq, Format.fields_append_ignored hignore hnew,
        ← Format.measure_eq]

theorem failsWith_invocation (options : Options) (text argument : String) (taker : Taker) :
    Step.FailsWith 1 (perform system options (taker.invocation text argument)) := by
  cases taker with
  | pack output? => exact failsWith_pack system options text argument output?
  | size => exact failsWith_size system options text (some argument)

end

/-- What a run comes to once its document is read. -/
theorem run_eq {arguments : List String} {input : List UInt8} {text argument : String} {j : Json}
    (hline : parseLine arguments = some (options, taker.invocation text argument))
    (hformat : Format.parse text = .ok format) (hj : document? input argument = some j)
    (fs : Files) :
    run arguments input fs
      = match format.valuesOfJson j with
        | .error mismatch => (⟨1, [], "Fehler: " ++ (mismatchFailure mismatch).message ++ "\n"⟩, fs)
        | .ok values =>
          let (result, world) :=
            Step.runFrom ⟨fs, []⟩ (taker.goOn (modelSystem []) options format values)
          (⟨(Exit.ofResult result).status, world.printed, (Exit.ofResult result).errors⟩,
            world.files) := by
  have hdocument := (document?_modelSystem input argument ⟨fs, []⟩).trans hj
  have hrun := runFrom_valuesOf (fun format values =>
    taker.goOn (modelSystem input) options format values) hformat hdocument
  rw [← perform_invocation, afterInput_modelSystem] at hrun
  cases hread : format.valuesOfJson j with
  | error mismatch =>
      rw [hread] at hrun
      exact Command.run_eq hline input fs hrun
  | ok values =>
      rw [hread] at hrun
      -- what is left to do does not read standard input
      have hinput : taker.goOn (modelSystem input) options format values
          = taker.goOn (modelSystem []) options format values := by
        cases taker <;> rfl
      exact Command.run_eq hline input fs
        (hrun.trans (congrArg (Step.runFrom ⟨fs, []⟩) hinput))

theorem status_cases {arguments : List String} {text argument : String}
    (hline : parseLine arguments = some (options, taker.invocation text argument))
    (input : List UInt8) (fs : Files) :
    (run arguments input fs).1.status = 0
      ∨ (run arguments input fs).1.status = 1 ∧ (run arguments input fs).1.output = [] := by
  have hstatus := status_le_one_of_failsWith
    (failsWith_invocation (modelSystem input) options text argument taker) ⟨fs, []⟩
  have hprinted := printed_of_status (failsSilently_perform (prints_modelSystem input) options
    (taker.invocation text argument)) ⟨fs, []⟩
  rw [Command.run_eq hline input fs rfl]
  rcases hstatus with hzero | hone
  · exact Or.inl hzero
  · exact Or.inr ⟨hone, hprinted (hone ▸ by decide)⟩

end Taker

/-- Two runs have the same status, print the same and leave the same files. -/
def SameEffect (first second : Outcome × Files) : Prop :=
  first.1.status = second.1.status ∧ first.1.output = second.1.output ∧ first.2 = second.2

theorem SameEffect.of_eq {first second : Outcome × Files} (h : first = second) :
    SameEffect first second := h ▸ ⟨rfl, rfl, rfl⟩

section
variable {options : Options} {taker : Taker} {text : String} {format : Format}
  {items : List Json} {arguments arguments' : List String} {input input' : List UInt8}
  {argument argument' : String}

/-- A run fails at the first item beyond the last field whose kind is not obvious. -/
def FailsAtSurplus (format : Format) (items : List Json) (fs : Files)
    (result : Outcome × Files) : Prop :=
  ∃ place found, format.valueCount ≤ place ∧ items[place]? = some found
    ∧ ¬ found.HasObviousKind
    ∧ (∀ k item, format.valueCount ≤ k → k < place → items[k]? = some item → item.HasObviousKind)
    ∧ result = (⟨1, [], "Fehler: "
      ++ (mismatchFailure (.unconvertible place none found)).message ++ "\n"⟩, fs)

/-- A run with surplus items and the one without, or the failure at a surplus item. -/
theorem run_surplus_cases (hignore : options.extraValues = .ignore)
    (hformat : Format.parse text = .ok format)
    (hline : parseLine arguments = some (options, taker.invocation text argument))
    (hline' : parseLine arguments' = some (options, taker.invocation text argument'))
    (hall : document? input argument = some (.array items))
    (hfirst : document? input' argument' = some (.array (items.take format.valueCount)))
    (fs : Files) :
    match format.valuesOfJson (.array (items.take format.valueCount)) with
    | .error _ => run arguments input fs = run arguments' input' fs
      ∧ (run arguments' input' fs).1.status ≠ 0
    | .ok _ => (∀ item ∈ items.drop format.valueCount, item.HasObviousKind)
        ∧ run arguments input fs = run arguments' input' fs
      ∨ FailsAtSurplus format items fs (run arguments input fs) := by
  rw [Taker.run_eq hline hformat hall, Taker.run_eq hline' hformat hfirst]
  cases hread : format.valuesOfJson (.array (items.take format.valueCount)) with
  | error mismatch =>
      rw [Format.valuesOfJson_eq_bind, hread]
      exact ⟨rfl, Nat.one_ne_zero⟩
  | ok values =>
      rcases Format.valuesOfJson_of_take hread with
        ⟨hkinds, new, hvalues, hnew⟩ | ⟨place, found, hplace, hfound, hkind, hbefore, hvalues⟩
      · refine Or.inl ⟨hkinds, ?_⟩
        rw [hvalues]
        simp only [Taker.goOn_append _ hignore hnew]
      · rw [hvalues]
        exact Or.inr ⟨place, found, hplace, hfound, hkind, hbefore, rfl⟩

/-- Ignored items still need kinds. Where all items beyond the last field have
obvious ones, or the items before them do not convert, a run has the same effect
without the surplus. Otherwise it fails at the first surplus item that has none,
and this can be told from the run without surplus unless that one fails as well. -/
theorem surplus_items_need_kinds (taker : Taker) (hignore : options.extraValues = .ignore)
    (hformat : Format.parse text = .ok format)
    (hline : parseLine arguments = some (options, taker.invocation text argument))
    (hline' : parseLine arguments' = some (options, taker.invocation text argument'))
    (hall : document? input argument = some (.array items))
    (hfirst : document? input' argument' = some (.array (items.take format.valueCount)))
    (fs : Files) :
    ((∀ item ∈ items.drop format.valueCount, item.HasObviousKind) →
        SameEffect (run arguments input fs) (run arguments' input' fs))
      ∧ (∀ mismatch, format.valuesOfJson (.array (items.take format.valueCount)) = .error mismatch →
        SameEffect (run arguments input fs) (run arguments' input' fs))
      ∧ (∀ values, format.valuesOfJson (.array (items.take format.valueCount)) = .ok values →
        (∃ item ∈ items.drop format.valueCount, ¬ item.HasObviousKind) →
        FailsAtSurplus format items fs (run arguments input fs))
      ∧ ((run arguments input fs).1.status = (run arguments' input' fs).1.status
          ∧ (run arguments input fs).1.output = (run arguments' input' fs).1.output
        ↔ (∀ item ∈ items.drop format.valueCount, item.HasObviousKind)
          ∨ (run arguments' input' fs).1.status ≠ 0) := by
  have hcases := run_surplus_cases hignore hformat hline hline' hall hfirst fs
  have hstatus := Taker.status_cases hline' input' fs
  cases hread : format.valuesOfJson (.array (items.take format.valueCount)) with
  | error mismatch =>
      rw [hread] at hcases
      obtain ⟨hsame, hfails⟩ := hcases
      refine ⟨fun _ => .of_eq hsame, fun _ _ => .of_eq hsame, fun values h => (by cases h), ?_⟩
      rw [hsame]
      exact iff_of_true ⟨rfl, rfl⟩ (Or.inr hfails)
  | ok values =>
      rw [hread] at hcases
      rcases hcases with ⟨hkinds, hsame⟩ | hfails
      · refine ⟨fun _ => .of_eq hsame, fun _ _ => .of_eq hsame, fun _ _ ⟨item, hitem, hnot⟩ =>
          absurd (hkinds item hitem) hnot, ?_⟩
        rw [hsame]
        exact iff_of_true ⟨rfl, rfl⟩ (Or.inl hkinds)
      · have hmisfit : ¬ ∀ item ∈ items.drop format.valueCount, item.HasObviousKind := by
          obtain ⟨place, found, hplace, hfound, hkind, -⟩ := hfails
          refine fun hkinds => hkind (hkinds found (List.mem_iff_getElem?.mpr
            ⟨place - format.valueCount, ?_⟩))
          rw [List.getElem?_drop, Nat.add_sub_cancel' hplace]
          exact hfound
        refine ⟨fun hkinds => absurd hkinds hmisfit, fun _ h => (by cases h),
          fun _ _ _ => hfails, ?_⟩
        obtain ⟨_, _, _, _, _, _, hresult⟩ := hfails
        rw [hresult]
        constructor
        · rintro ⟨hequal, -⟩
          exact Or.inr (hequal ▸ Nat.one_ne_zero)
        · rintro (hkinds | hne)
          · exact absurd hkinds hmisfit
          · obtain ⟨hone, hsilent⟩ := hstatus.resolve_left hne
            exact ⟨hone.symm, hsilent.symm⟩

end

/-- Bits, a text and an empty array left over, and the same record from standard input. -/
theorem surplus_items_need_kinds_sample :
    document? [] "[true,\"h\",[false],\"x\",[]]" = some (.array [.bool true, .string "h",
          .array [.bool false], .string "x", .array []])
      ∧ document? (Utf8.bytes "[true,\"h\"]") "-" = some (.array [.bool true, .string "h"])
      ∧ SameEffect
        (run ["pack", "-f", "b x2 p", "[true,\"h\",[false],\"x\",[]]", "--ignore-extra"] []
          (.ofList []))
        (run ["--ignore-extra", "pack", "-fb x2 p", "-"] (Utf8.bytes "[true,\"h\"]")
          (.ofList [])) := by
  have hall : document? [] "[true,\"h\",[false],\"x\",[]]" = some (.array [.bool true,
      .string "h", .array [.bool false], .string "x", .array []]) := by cbv
  have htext : argumentText? (Utf8.bytes "[true,\"h\"]") "-" = some "[true,\"h\"]" := by
    decide +kernel
  have hfirst : document? (Utf8.bytes "[true,\"h\"]") "-"
      = some (.array [.bool true, .string "h"]) := by
    rw [document?, htext, Option.bind_some]
    cbv
  have hformat : Format.parse "b x2 p" = .ok ⟨[.bool, .padding 2, .countedString .varint]⟩ := by
    decide +kernel
  have hline : parseLine
      ["pack", "-f", "b x2 p", "[true,\"h\",[false],\"x\",[]]", "--ignore-extra"]
      = some (⟨.ignore, .reject, .strict⟩,
        .pack "b x2 p" "[true,\"h\",[false],\"x\",[]]" none) := by decide +kernel
  have hline' : parseLine ["--ignore-extra", "pack", "-fb x2 p", "-"]
      = some (⟨.ignore, .reject, .strict⟩, .pack "b x2 p" "-" none) := by decide +kernel
  refine ⟨hall, hfirst, (surplus_items_need_kinds (.pack none) rfl hformat hline hline' hall
    hfirst (.ofList [])).1 ?_⟩
  rintro item (_ | ⟨_, _ | ⟨_, _ | ⟨_, ⟨⟩⟩⟩⟩)
  · exact Or.inl fun item hitem => ⟨false, List.mem_singleton.mp hitem⟩
  · trivial
  · exact Or.inl fun item hitem => absurd hitem List.not_mem_nil

/-- A null is not ignored. -/
theorem surplus_null_fails :
    parseLine ["pack", "-f", "b", "[true,null]", "--ignore-extra"]
        = some (⟨.ignore, .reject, .strict⟩, .pack "b" "[true,null]" none)
      ∧ parseLine ["pack", "-f", "b", "[true]", "--ignore-extra"]
        = some (⟨.ignore, .reject, .strict⟩, .pack "b" "[true]" none)
      ∧ (Format.parse "b").map Format.valueCount = .ok 1
      ∧ document? [] "[true,null]" = some (.array [.bool true, .null])
      ∧ document? [] "[true]" = some (.array [.bool true])
      ∧ (run ["pack", "-f", "b", "[true,null]", "--ignore-extra"] [] (.ofList [])).1
        = ⟨1, [], "Fehler: JSON-Wert-Fehler: value 1: cannot infer a value kind for null\n"⟩
      ∧ (run ["pack", "-f", "b", "[true]", "--ignore-extra"] [] (.ofList [])).1
        = ⟨0, line "01", ""⟩ := by
  refine ⟨by decide +kernel, by decide +kernel, by decide +kernel, by cbv, by cbv,
    by decide +kernel, by decide +kernel⟩

end Command
end PackedRecord
