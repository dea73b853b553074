import PackedRecord.Proofs.ExitStatus

/-!
# What a command does with its values

A command that takes values comes by them in the same way on every system. An
argument spells a document (`System.document?`), where a single dash asks for
standard input, and the document has to spell values of the format. What the
command goes on to do starts from the state in which its argument has been read
(`runFrom_valuesOf`); otherwise it fails, and has done nothing but read. For the
command that packs this means that files are touched only by delivering a record
that has been packed (`System.packed?`, `deliver`).
-/

namespace PackedRecord.Command

variable {options : Options} {input : List UInt8} {text argument : String}

/-- A run is what comes of the invocation that its arguments ask for. -/
theorem run_eq {arguments : List String} {invocation : Invocation}
    (h : parseLine arguments = some (options, invocation)) (input : List UInt8) (fs : Files)
    {result : Except Failure Unit} {world : World}
    (hrun : Step.runFrom ⟨fs, []⟩ (perform (modelSystem input) options invocation)
      = (result, world)) :
    run arguments input fs
      = (⟨(Exit.ofResult result).status, world.printed, (Exit.ofResult result).errors⟩,
        world.files) := by
  have hexecute := run_execute (modelSystem input) h ⟨fs, []⟩
  rw [hrun] at hexecute
  rw [run, hexecute]

/-! ## Documents -/

/-- The text of an argument, a single dash standing for standard input. -/
def argumentText? (input : List UInt8) (argument : String) : Option String :=
  if argument = "-" then (Utf8.decode input).toOption else some argument

/-- The document that an argument spells. -/
def document? (input : List UInt8) (argument : String) : Option Json :=
  (argumentText? input argument).bind Json.parse?

/-- The failure of a document that does not spell the format's values. -/
def mismatchFailure (mismatch : Json.Mismatch) : Failure :=
  .plain ("JSON-Wert-Fehler: " ++ mismatch.message)

namespace System

variable {σ : Type} (system : System (StateM σ)) (argument : String) (s : σ)

/-- Standard input as far as the argument asks for it, if it can be read. -/
def supplied? : Option (List UInt8) :=
  if argument = "-" then (StateT.run system.standardInput s).1.toOption else some []

/-- The state in which what the argument asks for has been read. -/
def afterInput : σ := if argument = "-" then (StateT.run system.standardInput s).2 else s

/-- The document that the argument spells. -/
def document? : Option Json :=
  (system.supplied? argument s).bind fun input => Command.document? input argument

end System

section
variable {σ : Type} (system : System (StateM σ)) (s : σ)

theorem runFrom_standardInput :
    ∃ describe, Step.runFrom s (readInput system "-")
      = ((StateT.run system.standardInput s).1.mapError describe,
        (StateT.run system.standardInput s).2) :=
  ⟨_, (Step.runFrom_bind_of_ok (Step.runFrom_lift system.standardInput s)).trans
    (Step.runFrom_settle _ _ _)⟩

theorem runFrom_valuesText (argument : String) :
    ∃ result, Step.runFrom s (valuesText system argument) = (result, system.afterInput argument s)
      ∧ result.toOption
        = (system.supplied? argument s).bind fun input => argumentText? input argument := by
  unfold valuesText argumentText? System.supplied? System.afterInput
  split
  · next hdash =>
      subst hdash
      obtain ⟨describe, hread⟩ := runFrom_standardInput system s
      cases hinput : (StateT.run system.standardInput s).1 with
      | error fault =>
          rw [hinput] at hread
          exact ⟨_, Step.runFrom_bind_of_error hread, rfl⟩
      | ok content =>
          rw [hinput] at hread
          rw [Step.runFrom_bind_of_ok hread, Step.runFrom_settle]
          refine ⟨_, rfl, ?_⟩
          simp only [Except.toOption, Option.bind_some]
          cases Utf8.decode content <;> rfl
  · exact ⟨.ok argument, rfl, rfl⟩

variable {system s}

theorem runFrom_parseValues {j : Json} (h : system.document? argument s = some j)
    (format : Format) :
    Step.runFrom s (parseValues system format argument)
      = ((format.valuesOfJson j).mapError mismatchFailure, system.afterInput argument s) := by
  obtain ⟨input, hinput, h⟩ := Option.bind_eq_some_iff.mp h
  obtain ⟨content, hcontent, hj⟩ := Option.bind_eq_some_iff.mp h
  obtain ⟨result, hrun, hresult⟩ := runFrom_valuesText system s argument
  rw [hinput, Option.bind_some, hcontent] at hresult
  cases result with
  | error failure => cases hresult
  | ok found =>
      obtain rfl : found = content := Option.some.inj hresult
      rw [parseValues, Step.runFrom_bind_of_ok hrun, hj]
      exact Step.runFrom_settle mismatchFailure _ _

theorem runFrom_parseValues_of_none (h : system.document? argument s = none) (format : Format) :
    ∃ failure, Step.runFrom s (parseValues system format argument)
      = (.error failure, system.afterInput argument s) := by
  obtain ⟨result, hrun, hresult⟩ := runFrom_valuesText system s argument
  rw [parseValues]
  cases result with
  | error failure => exact ⟨failure, Step.runFrom_bind_of_error hrun⟩
  | ok found =>
      have hj : Json.parse? found = none := by
        have hspelled : system.document? argument s
            = ((system.supplied? argument s).bind fun input => argumentText? input argument).bind
              Json.parse? := (Option.bind_assoc ..).symm
        rw [h, ← hresult] at hspelled
        exact hspelled.symm
      rw [Step.runFrom_bind_of_ok hrun, hj]
      exact ⟨_, rfl⟩

/-! ## Values -/

/-- How the commands that take values begin. -/
def valuesOf {α : Type} (system : System (StateM σ)) (text argument : String)
    (next : Format → List Value → Step (StateM σ) α) : Step (StateM σ) α := do
  let format ← parseFormat text
  let values ← parseValues system format argument
  next format values

variable {α : Type} (next : Format → List Value → Step (StateM σ) α)

theorem runFrom_valuesOf {format : Format} {j : Json} (hformat : Format.parse text = .ok format)
    (hj : system.document? argument s = some j) :
    Step.runFrom s (valuesOf system text argument next)
      = match format.valuesOfJson j with
        | .error mismatch => (.error (mismatchFailure mismatch), system.afterInput argument s)
        | .ok values => Step.runFrom (system.afterInput argument s) (next format values) := by
  have hvalues := runFrom_parseValues hj format
  rw [valuesOf, parseFormat, Step.runFrom_settle_bind, hformat]
  cases hread : format.valuesOfJson j with
  | error mismatch =>
      rw [hread] at hvalues
      exact Step.runFrom_bind_of_error hvalues
  | ok values =>
      rw [hread] at hvalues
      exact Step.runFrom_bind_of_ok hvalues

theorem runFrom_valuesOf_of_none
    (h : ∀ format j, Format.parse text = .ok format → system.document? argument s ≠ some j) :
    ∃ failure s', Step.runFrom s (valuesOf system text argument next) = (.error failure, s')
      ∧ (s' = s ∨ s' = system.afterInput argument s) := by
  rw [valuesOf, parseFormat, Step.runFrom_settle_bind]
  cases hformat : Format.parse text with
  | error err => exact ⟨_, _, rfl, Or.inl rfl⟩
  | ok format =>
      cases hj : system.document? argument s with
      | some j => exact absurd hj (h format j hformat)
      | none =>
          obtain ⟨failure, hvalues⟩ := runFrom_parseValues_of_none hj format
          exact ⟨failure, _, Step.runFrom_bind_of_error hvalues, Or.inr rfl⟩

end

/-! ## Packing and measuring -/

section
variable {σ : Type} (system : System (StateM σ))

theorem perform_pack (options : Options) (text argument : String) (output? : Option String) :
    perform system options (.pack text argument output?)
      = valuesOf system text argument fun format values =>
        settle Failure.ofError (format.pack values options) >>= fun content =>
          deliver system content output? := rfl

theorem perform_size (options : Options) (text argument : String) :
    perform system options (.size text (some argument))
      = valuesOf system text argument fun format values =>
        settle Failure.ofError (Size.measure format values options) >>= fun size =>
          printOut system (line (Json.ofFields [("size", .ofNat size)]).compact) := rfl

/-- The record that a command line packs, if nothing is at fault. -/
def System.packed? (options : Options) (text argument : String) (s : σ) :
    Option (List UInt8) := do
  let format ← (Format.parse text).toOption
  let j ← system.document? argument s
  let values ← (format.valuesOfJson j).toOption
  (format.pack values options).toOption

theorem toOption_eq_some_iff {ε α : Type} {result : Except ε α} {a : α} :
    result.toOption = some a ↔ result = .ok a := by
  cases result <;> simp [Except.toOption]

variable {system} {s : σ}

theorem packed?_eq_some_iff {content : List UInt8} :
    system.packed? options text argument s = some content ↔
      ∃ format j values, Format.parse text = .ok format
        ∧ system.document? argument s = some j
        ∧ format.valuesOfJson j = .ok values ∧ format.pack values options = .ok content := by
  constructor
  · intro h
    obtain ⟨format, hformat, h⟩ := Option.bind_eq_some_iff.mp h
    obtain ⟨j, hj, h⟩ := Option.bind_eq_some_iff.mp h
    obtain ⟨values, hread, hpack⟩ := Option.bind_eq_some_iff.mp h
    exact ⟨format, j, values, toOption_eq_some_iff.mp hformat, hj,
      toOption_eq_some_iff.mp hread, toOption_eq_some_iff.mp hpack⟩
  · rintro ⟨format, j, values, hformat, hj, hread, hpack⟩
    exact Option.bind_eq_some_iff.mpr ⟨format, toOption_eq_some_iff.mpr hformat,
      Option.bind_eq_some_iff.mpr ⟨j, hj,
        Option.bind_eq_some_iff.mpr ⟨values, toOption_eq_some_iff.mpr hread,
          toOption_eq_some_iff.mpr hpack⟩⟩⟩

theorem runFrom_pack_of_packed {content : List UInt8}
    (h : system.packed? options text argument s = some content) (output? : Option String) :
    Step.runFrom s (perform system options (.pack text argument output?))
      = Step.runFrom (system.afterInput argument s) (deliver system content output?) := by
  obtain ⟨format, j, values, hformat, hj, hread, hpack⟩ := packed?_eq_some_iff.mp h
  rw [perform_pack, runFrom_valuesOf _ hformat hj, hread]
  simp only [Step.runFrom_settle_bind, hpack]

/-- Where there is no record, nothing is done but to read. -/
theorem runFrom_pack_of_none (h : system.packed? options text argument s = none)
    (output? : Option String) :
    ∃ failure s',
      Step.runFrom s (perform system options (.pack text argument output?)) = (.error failure, s')
        ∧ (s' = s ∨ s' = system.afterInput argument s) := by
  rw [perform_pack]
  by_cases hspelled : ∃ format j, Format.parse text = .ok format
      ∧ system.document? argument s = some j
  · obtain ⟨format, j, hformat, hj⟩ := hspelled
    rw [runFrom_valuesOf _ hformat hj]
    cases hread : format.valuesOfJson j with
    | error mismatch => exact ⟨_, _, rfl, Or.inr rfl⟩
    | ok values =>
        simp only [Step.runFrom_settle_bind]
        cases hpack : format.pack values options with
        | error err => exact ⟨_, _, rfl, Or.inr rfl⟩
        | ok content =>
            have hpacked := packed?_eq_some_iff.mpr ⟨format, j, values, hformat, hj, hread, hpack⟩
            cases h.symm.trans hpacked
  · exact runFrom_valuesOf_of_none _ fun format j hformat hj => hspelled ⟨format, j, hformat, hj⟩

end

/-! ## On the model -/

theorem afterInput_modelSystem (input : List UInt8) (argument : String) (world : World) :
    (modelSystem input).afterInput argument world = world :=
  ite_self world

theorem document?_modelSystem (input : List UInt8) (argument : String) (world : World) :
    (modelSystem input).document? argument world = document? input argument := by
  rw [System.document?, System.supplied?]
  split
  · rfl
  · next hdash =>
      rw [Option.bind_some, document?, document?, argumentText?, argumentText?, if_neg hdash,
        if_neg hdash]

end PackedRecord.Command
