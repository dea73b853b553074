import PackedRecord.Command.Run
import PackedRecord.Proofs.ErrorPhases

/-!
# What the exit status says

A command is a sequence of steps on a system that may answer anything. What
comes of a step depends on the state of the system (`Step.runFrom`), and its
failures are those of the steps in it. All of them have status 1
(`Step.FailsWith`), but for unpacking itself: there the error is the data's
fault, which has a status of its own.

For the commands that pack or measure this bounds the status. The command that
unpacks gets as far as unpacking exactly if the format text parses and the
input can be read (`Source.data?`). What is left is to print, and if that can
always be done (`System.Prints`) the status says which of the three went wrong
(`status_unpack`). Then a command that fails has printed nothing either, since
it prints last (`Step.IsSilent`).
-/

namespace PackedRecord.Command

variable {σ : Type}

/-! ## Steps -/

namespace Step

variable {α β : Type} {x : Step (StateM σ) α} {f : α → Step (StateM σ) β} {s s' : σ}

/-- What comes of a step from a state of the system, and the state after it. -/
def runFrom (s : σ) (x : Step (StateM σ) α) : Except Failure α × σ := StateT.run (ExceptT.run x) s

theorem runFrom_bind_of_ok {a : α} (h : runFrom s x = (.ok a, s')) :
    runFrom s (x >>= f) = runFrom s' (f a) := by
  unfold runFrom at h ⊢
  rw [ExceptT.run_bind, StateT.run_bind, h]
  rfl

theorem runFrom_bind_of_error {failure : Failure} (h : runFrom s x = (.error failure, s')) :
    runFrom s (x >>= f) = (.error failure, s') := by
  unfold runFrom at h ⊢
  rw [ExceptT.run_bind, StateT.run_bind, h]
  rfl

theorem runFrom_lift (action : StateM σ α) (s : σ) :
    runFrom s (liftM action) = (.ok (action.run s).1, (action.run s).2) := rfl

theorem runFrom_settle {ε : Type} (describe : ε → Failure) (result : Except ε α) (s : σ) :
    runFrom s (settle describe result : Step (StateM σ) α) = (result.mapError describe, s) := by
  cases result <;> rfl

theorem runFrom_settle_bind {ε : Type} (describe : ε → Failure) (result : Except ε α)
    (f : α → Step (StateM σ) β) (s : σ) :
    runFrom s (settle describe result >>= f)
      = match result with
        | .error err => (.error (describe err), s)
        | .ok a => runFrom s (f a) := by
  have hsettled := runFrom_settle describe result s
  cases result with
  | error err => exact runFrom_bind_of_error hsettled
  | ok a => exact runFrom_bind_of_ok hsettled

/-- Every failure of the step has the exit status. -/
def FailsWith (status : Nat) (x : Step (StateM σ) α) : Prop :=
  ∀ s failure s', runFrom s x = (.error failure, s') → failure.status = status

namespace FailsWith

variable {status : Nat}

theorem pure (a : α) : FailsWith status (Pure.pure a : Step (StateM σ) α) := by
  rintro s failure s' ⟨⟩

theorem throw {failure : Failure} (h : failure.status = status) :
    FailsWith status (MonadExcept.throw failure : Step (StateM σ) α) := by
  rintro s failure' s' ⟨⟩
  exact h

theorem lift (action : StateM σ α) : FailsWith status (liftM action : Step (StateM σ) α) := by
  rintro s failure s' ⟨⟩

theorem bind (hx : FailsWith status x) (hf : ∀ a, FailsWith status (f a)) :
    FailsWith status (x >>= f) := by
  intro s failure s' h
  rcases hrun : runFrom s x with ⟨failure' | a, s₁⟩
  · rw [runFrom_bind_of_error hrun] at h
    cases h
    exact hx s _ _ hrun
  · rw [runFrom_bind_of_ok hrun] at h
    exact hf a s₁ failure s' h

theorem settle {ε : Type} {describe : ε → Failure} {result : Except ε α}
    (h : ∀ err, result = .error err → (describe err).status = status) :
    FailsWith status (Command.settle describe result : Step (StateM σ) α) := by
  cases result with
  | ok a => exact pure a
  | error err => exact throw (h err rfl)

end FailsWith

/-- What stands on standard output is not changed. -/
def IsSilent (printed : σ → List UInt8) (x : Step (StateM σ) α) : Prop :=
  ∀ s, printed (runFrom s x).2 = printed s

/-- It is not changed if the step fails. -/
def FailsSilently (printed : σ → List UInt8) (x : Step (StateM σ) α) : Prop :=
  ∀ s failure s', runFrom s x = (.error failure, s') → printed s' = printed s

namespace IsSilent

variable {printed : σ → List UInt8}

theorem pure (a : α) : IsSilent printed (Pure.pure a : Step (StateM σ) α) := fun _ => rfl

theorem throw (failure : Failure) :
    IsSilent printed (MonadExcept.throw failure : Step (StateM σ) α) := fun _ => rfl

theorem lift {action : StateM σ α} (h : ∀ s, printed (StateT.run action s).2 = printed s) :
    IsSilent printed (liftM action : Step (StateM σ) α) := h

theorem settle {ε : Type} (describe : ε → Failure) (result : Except ε α) :
    IsSilent printed (Command.settle describe result : Step (StateM σ) α) := by
  cases result with
  | ok a => exact pure a
  | error err => exact throw (describe err)

theorem bind (hx : IsSilent printed x) (hf : ∀ a, IsSilent printed (f a)) :
    IsSilent printed (x >>= f) := by
  intro s
  have hs := hx s
  rcases hrun : runFrom s x with ⟨failure | a, s₁⟩
  · rw [hrun] at hs
    rw [runFrom_bind_of_error hrun]
    exact hs
  · rw [hrun] at hs
    rw [runFrom_bind_of_ok hrun, hf a s₁]
    exact hs

theorem failsSilently (hx : IsSilent printed x) : FailsSilently printed x := by
  intro s failure s' h
  have hs := hx s
  rwa [h] at hs

end IsSilent

/-- Nothing is printed before the last step. -/
theorem FailsSilently.bind {printed : σ → List UInt8} (hx : IsSilent printed x)
    (hf : ∀ a, FailsSilently printed (f a)) : FailsSilently printed (x >>= f) := by
  intro s failure s' h
  have hs := hx s
  rcases hrun : runFrom s x with ⟨failure' | a, s₁⟩
  · rw [runFrom_bind_of_error hrun] at h
    cases h
    rwa [hrun] at hs
  · rw [runFrom_bind_of_ok hrun] at h
    rw [hrun] at hs
    exact (hf a s₁ failure s' h).trans hs

end Step

open Step (FailsWith IsSilent FailsSilently)

theorem Failure.status_ofError_of_ne {err : Error} (h : err.category ≠ .data) :
    (Failure.ofError err).status = 1 :=
  if_neg h

theorem Failure.status_ofError_of_data {err : Error} (h : err.category = .data) :
    (Failure.ofError err).status = 2 :=
  if_pos h

variable (system : System (StateM σ))

theorem failsWith_parseFormat (text : String) :
    FailsWith 1 (parseFormat text : Step (StateM σ) Format) :=
  .settle fun err herr => Failure.status_ofError_of_ne (by
    rw [Format.category_of_parse herr]
    decide)

theorem failsWith_readInput (path : String) : FailsWith 1 (readInput system path) := by
  unfold readInput
  split
  · exact .bind (.lift _) fun result => .settle fun _ _ => rfl
  · exact .bind (.lift _) fun result => .settle fun _ _ => rfl

theorem failsWith_readSource (source : Source) : FailsWith 1 (readSource system source) := by
  cases source with
  | hex digits => exact .settle fun _ _ => rfl
  | input path => exact failsWith_readInput system path

theorem failsWith_valuesText (argument : String) : FailsWith 1 (valuesText system argument) := by
  unfold valuesText
  split
  · exact .bind (failsWith_readInput system argument) fun content => .settle fun _ _ => rfl
  · exact .pure argument

theorem failsWith_parseValues (format : Format) (argument : String) :
    FailsWith 1 (parseValues system format argument) := by
  refine .bind (failsWith_valuesText system argument) fun text => ?_
  split
  · exact .throw rfl
  · exact .settle fun _ _ => rfl

theorem failsWith_printOut (content : List UInt8) : FailsWith 1 (printOut system content) :=
  .bind (.lift _) fun _ => .settle fun _ _ => rfl

theorem failsWith_writeOutput (path : String) (content : List UInt8) :
    FailsWith 1 (writeOutput system path content) := by
  refine .bind (.lift _) fun result => ?_
  split
  · exact .bind (.lift _) fun _ => .throw rfl
  · exact .bind (.lift _) fun result => .settle fun _ _ => rfl

/-! ## Commands -/

theorem failsWith_deliver (content : List UInt8) (output? : Option String) :
    FailsWith 1 (deliver system content output?) := by
  unfold deliver
  split
  · exact failsWith_printOut system _
  · split
    · exact failsWith_printOut system content
    · exact failsWith_writeOutput system _ content

theorem failsWith_pack (options : Options) (format values : String) (output? : Option String) :
    FailsWith 1 (perform system options (.pack format values output?)) := by
  refine .bind (failsWith_parseFormat format) fun format => ?_
  refine .bind (failsWith_parseValues system format values) fun values => ?_
  refine .bind (.settle fun err herr => ?_) fun content => failsWith_deliver system content output?
  refine Failure.status_ofError_of_ne ?_
  rw [Format.category_of_pack herr]
  decide

theorem failsWith_size (options : Options) (format : String) (values? : Option String) :
    FailsWith 1 (perform system options (.size format values?)) := by
  refine .bind (failsWith_parseFormat format) fun format => ?_
  cases values? with
  | none => exact failsWith_printOut system _
  | some values =>
      refine .bind (failsWith_parseValues system format values) fun values => ?_
      refine .bind (.settle fun err herr => ?_) fun size => failsWith_printOut system _
      refine Failure.status_ofError_of_ne ?_
      rw [Format.category_of_measure herr]
      decide

/-! ## Printing -/

/-- Standard output can always be written, `printed` is what stands on it, and nothing
else that the system does changes that. -/
structure System.Prints (printed : σ → List UInt8) : Prop where
  print : ∀ content s, (StateT.run (system.print content) s).1 = .ok ()
    ∧ printed (StateT.run (system.print content) s).2 = printed s ++ content
  standardInput : ∀ s, printed (StateT.run system.standardInput s).2 = printed s
  readFile : ∀ path s, printed (StateT.run (system.readFile path) s).2 = printed s
  writeFile : ∀ path content s,
    printed (StateT.run (system.writeFile path content) s).2 = printed s
  discardFile : ∀ path s, printed (StateT.run (system.discardFile path) s).2 = printed s
  renameFile : ∀ source target s,
    printed (StateT.run (system.renameFile source target) s).2 = printed s

section
variable {system} {printed : σ → List UInt8} (hprints : system.Prints printed)
include hprints

theorem runFrom_printOut (content : List UInt8) (s : σ) :
    Step.runFrom s (printOut system content)
      = (.ok (), (StateT.run (system.print content) s).2) := by
  rw [printOut, Step.runFrom_bind_of_ok (Step.runFrom_lift (system.print content) s),
    Step.runFrom_settle, (hprints.print content s).1]
  rfl

theorem failsSilently_printOut (content : List UInt8) :
    FailsSilently printed (printOut system content) := by
  intro s failure s' h
  rw [runFrom_printOut hprints] at h
  cases h

theorem isSilent_readInput (path : String) : IsSilent printed (readInput system path) := by
  unfold readInput
  split
  · exact .bind (.lift hprints.standardInput) fun result => .settle _ result
  · exact .bind (.lift (hprints.readFile path)) fun result => .settle _ result

theorem isSilent_readSource (source : Source) : IsSilent printed (readSource system source) := by
  cases source with
  | hex digits => exact .settle _ _
  | input path => exact isSilent_readInput hprints path

theorem isSilent_parseValues (format : Format) (argument : String) :
    IsSilent printed (parseValues system format argument) := by
  have htext : IsSilent printed (valuesText system argument) := by
    unfold valuesText
    split
    · exact .bind (isSilent_readInput hprints argument) fun content => .settle _ _
    · exact .pure argument
  refine .bind htext fun text => ?_
  split
  · exact .throw _
  · exact .settle _ _

theorem isSilent_writeOutput (path : String) (content : List UInt8) :
    IsSilent printed (writeOutput system path content) := by
  refine .bind (.lift (hprints.writeFile _ content)) fun result => ?_
  split
  · exact .bind (.lift (hprints.discardFile _)) fun _ => .throw _
  · exact .bind (.lift (hprints.renameFile _ path)) fun result => .settle _ result

/-- A command prints last, so that it has printed nothing if it fails. -/
theorem failsSilently_perform (options : Options) (invocation : Invocation) :
    FailsSilently printed (perform system options invocation) := by
  cases invocation with
  | pack text argument output? =>
      refine .bind (.settle _ _) fun format => ?_
      refine .bind (isSilent_parseValues hprints format argument) fun values => ?_
      refine .bind (.settle _ _) fun content => ?_
      unfold deliver
      split
      · exact failsSilently_printOut hprints _
      · split
        · exact failsSilently_printOut hprints content
        · exact (isSilent_writeOutput hprints _ content).failsSilently
  | unpack text source offset pretty =>
      refine .bind (.settle _ _) fun format => ?_
      refine .bind (isSilent_readSource hprints source) fun data => ?_
      exact .bind (.settle _ _) fun record => failsSilently_printOut hprints _
  | size text argument? =>
      refine .bind (.settle _ _) fun format => ?_
      cases argument? with
      | none => exact failsSilently_printOut hprints _
      | some argument =>
          refine .bind (isSilent_parseValues hprints format argument) fun values => ?_
          exact .bind (.settle _ _) fun size => failsSilently_printOut hprints _

end

/-! ## Unpacking -/

/-- The bytes to unpack, if the digits spell some or the input can be read. -/
def Source.data? (s : σ) : Source → Option (List UInt8)
  | .hex digits => (decodeHex digits).toOption
  | .input path =>
    (StateT.run (if path = "-" then system.standardInput else system.readFile path) s).1.toOption

theorem runFrom_readInput (path : String) (s : σ) :
    ∃ describe s', Step.runFrom s (readInput system path)
      = ((StateT.run (if path = "-" then system.standardInput else system.readFile path)
          s).1.mapError describe, s') := by
  unfold readInput
  split
  · exact ⟨_, _, (Step.runFrom_bind_of_ok (Step.runFrom_lift system.standardInput s)).trans
      (Step.runFrom_settle _ _ _)⟩
  · exact ⟨_, _, (Step.runFrom_bind_of_ok (Step.runFrom_lift (system.readFile path) s)).trans
      (Step.runFrom_settle _ _ _)⟩

/-- Reading the input gives its bytes if there are any. -/
theorem runFrom_readSource (source : Source) (s : σ) :
    (Step.runFrom s (readSource system source)).1.toOption = source.data? system s := by
  cases source with
  | hex digits =>
      rw [readSource, Step.runFrom_settle, Source.data?]
      cases decodeHex digits <;> rfl
  | input path =>
      obtain ⟨describe, s', hrun⟩ := runFrom_readInput system path s
      rw [readSource, hrun, Source.data?]
      cases (StateT.run (if path = "-" then system.standardInput else system.readFile path) s).1 <;>
        rfl

/-- The status of a command that unpacks says how far it got. -/
theorem status_unpack {printed : σ → List UInt8} (hprints : system.Prints printed)
    (options : Options) (text : String) (source : Source) (offset : Nat) (pretty : Bool) (s : σ) :
    (Exit.ofResult
      (Step.runFrom s (perform system options (.unpack text source offset pretty))).1).status
      = match Format.parse text with
        | .error _ => 1
        | .ok format =>
          match source.data? system s with
          | none => 1
          | some data =>
            match format.unpack data offset options with
            | .error _ => 2
            | .ok _ => 0 := by
  have hformat : Step.runFrom s (parseFormat text : Step (StateM σ) Format)
      = ((Format.parse text).mapError Failure.ofError, s) := Step.runFrom_settle _ _ s
  rw [perform]
  cases hparse : Format.parse text with
  | error err =>
      rw [hparse] at hformat
      rw [Step.runFrom_bind_of_error hformat]
      refine Failure.status_ofError_of_ne ?_
      rw [Format.category_of_parse hparse]
      decide
  | ok format =>
      rw [hparse] at hformat
      rw [Step.runFrom_bind_of_ok hformat]
      have hdata := runFrom_readSource system source s
      rcases hsource : Step.runFrom s (readSource system source) with ⟨failure | data, s'⟩
      · rw [hsource] at hdata
        rw [Step.runFrom_bind_of_error hsource, ← hdata]
        exact failsWith_readSource system source s failure s' hsource
      · rw [hsource] at hdata
        have hrecord : Step.runFrom s' (settle Failure.ofError (format.unpack data offset options)
            : Step (StateM σ) Unpacked) = _ := Step.runFrom_settle _ _ s'
        rw [Step.runFrom_bind_of_ok hsource, ← hdata]
        simp only [Except.toOption]
        cases hunpack : format.unpack data offset options with
        | error err =>
            rw [hunpack] at hrecord
            rw [Step.runFrom_bind_of_error hrecord]
            exact Failure.status_ofError_of_data (Format.category_of_unpack hunpack)
        | ok record =>
            rw [hunpack] at hrecord
            rw [Step.runFrom_bind_of_ok hrecord, runFrom_printOut hprints]
            rfl

/-! ## Runs -/

theorem run_execute {arguments : List String} {options : Options} {invocation : Invocation}
    (h : parseLine arguments = some (options, invocation)) (s : σ) :
    StateT.run (execute system arguments) s
      = (Exit.ofResult (Step.runFrom s (perform system options invocation)).1,
        (Step.runFrom s (perform system options invocation)).2) := by
  rw [execute, h]
  rfl

theorem status_le_one_of_failsWith {x : Step (StateM σ) Unit} (h : FailsWith 1 x) (s : σ) :
    (Exit.ofResult (Step.runFrom s x).1).status = 0
      ∨ (Exit.ofResult (Step.runFrom s x).1).status = 1 := by
  rcases hrun : Step.runFrom s x with ⟨failure | output, s'⟩
  · exact Or.inr (h s failure s' hrun)
  · exact Or.inl rfl

theorem printed_of_status {x : Step (StateM σ) Unit} {printed : σ → List UInt8}
    (h : FailsSilently printed x) (s : σ)
    (hstatus : (Exit.ofResult (Step.runFrom s x).1).status ≠ 0) :
    printed (Step.runFrom s x).2 = printed s := by
  rcases hrun : Step.runFrom s x with ⟨failure | _, s'⟩
  · exact h s failure s' hrun
  · rw [hrun] at hstatus
    exact absurd rfl hstatus

/-- The phases have faults of their own, and the exit status of every command
line that asks for something says whose fault it was, on any system. If standard
output can be written, nothing stands on it unless the status is 0. -/
theorem exit_status_by_phase :
    (∀ text err, Format.parse text = .error err → err.category = .formatText)
      ∧ (∀ (format : Format) values options err,
        (format.pack values options = .error err → err.category = .argument)
        ∧ (Size.measure format values options = .error err → err.category = .argument))
      ∧ (∀ (format : Format) data offset options err,
        format.unpack data offset options = .error err → err.category = .data)
      ∧ ∀ {σ : Type} (system : System (StateM σ)) (s : σ) arguments options invocation exit s',
        parseLine arguments = some (options, invocation) →
        StateT.run (execute system arguments) s = (exit, s') →
        (∀ printed, system.Prints printed → exit.status ≠ 0 → printed s' = printed s)
        ∧ match invocation with
          | .pack .. | .size .. => exit.status = 0 ∨ exit.status = 1
          | .unpack text source offset _ => ∀ printed, system.Prints printed →
            (exit.status = 2 ↔ ∃ format data err, Format.parse text = .ok format
              ∧ source.data? system s = some data
              ∧ format.unpack data offset options = .error err)
            ∧ (exit.status = 1 ↔ (∃ err, Format.parse text = .error err)
              ∨ source.data? system s = none) := by
  refine ⟨fun text err h => Format.category_of_parse h, fun format values options err =>
    ⟨Format.category_of_pack, Format.category_of_measure⟩, fun format data offset options err h =>
    Format.category_of_unpack h, ?_⟩
  intro σ system s arguments options invocation exit s' hline hrun
  rw [run_execute system hline] at hrun
  cases hrun
  refine ⟨fun printed hprints =>
    printed_of_status (failsSilently_perform hprints options invocation) s, ?_⟩
  cases invocation with
  | pack format values output? =>
      exact status_le_one_of_failsWith (failsWith_pack system options format values output?) s
  | size format values? =>
      exact status_le_one_of_failsWith (failsWith_size system options format values?) s
  | unpack text source offset pretty =>
      intro printed hprints
      simp only [status_unpack system hprints]
      cases hparse : Format.parse text with
      | error err => simp
      | ok format =>
          cases hdata : source.data? system s with
          | none => simp
          | some data =>
              cases hunpack : format.unpack data offset options with
              | error err => simp [hunpack]
              | ok record => simp [hunpack]

theorem prints_modelSystem (input : List UInt8) : (modelSystem input).Prints World.printed where
  print content s := ⟨rfl, rfl⟩
  standardInput s := rfl
  readFile path s := rfl
  writeFile path content s := by
    simp only [modelSystem, StateT.run_bind, StateT.run_get, pure_bind]
    cases s.files.write path content <;> rfl
  discardFile path s := rfl
  renameFile source target s := by
    simp only [modelSystem, StateT.run_bind, StateT.run_get, pure_bind]
    cases s.files.rename source target <;> rfl

/-- A record cut short, read from a file. -/
theorem exit_status_by_phase_sample :
    parseLine ["unpack", "-f", "i", "-i", "a"]
        = some (.strict, .unpack "i" (.input "a") 0 false)
      ∧ (run ["unpack", "-f", "i", "-i", "a"] [] (.ofList [("a", [0, 1])])).1.status = 2
      ∧ (run ["unpack", "-f", "i", "-i", "a"] [] (.ofList [("a", [0, 1])])).1.output = [] := by
  have hline : parseLine ["unpack", "-f", "i", "-i", "a"]
      = some (.strict, .unpack "i" (.input "a") 0 false) := by decide +kernel
  have hparse : Format.parse "i" = .ok ⟨[.integer ⟨4, by decide, by decide⟩ true]⟩ := by
    decide +kernel
  have hunpack : Format.unpack ⟨[.integer ⟨4, by decide, by decide⟩ true]⟩ [0, 1] 0 .strict
      = .error (.unexpectedEnd 0 4 2) := by decide +kernel
  have hprints := prints_modelSystem []
  obtain ⟨hsilent, hdata⟩ := exit_status_by_phase.2.2.2 (modelSystem [])
    ⟨.ofList [("a", [0, 1])], []⟩ _ _ _ _ _ hline rfl
  have hstatus := (hdata _ hprints).1.mpr ⟨_, [0, 1], _, hparse, by decide +kernel, hunpack⟩
  exact ⟨hline, hstatus, hsilent _ hprints (hstatus ▸ by decide)⟩

end PackedRecord.Command
