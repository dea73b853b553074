import PackedRecord.Proofs.CommandDocuments
import PackedRecord.Proofs.FileSystems

/-!
# Files that are packed to

A record goes to its file by way of a temporary one, and there are three ways
for that to end (`Delivery`). What each of them does to the files follows from
what is known of the system's operations, and all else that a run does leaves
the files alone, so the exit status says what has become of them.

It is not all or nothing. The target is replaced by the record or left alone,
and so is every other file but the temporary one. That one is removed if it
cannot be written, and then a file of its name that was there before is gone as
well (`Delivery.unwritten`). It is not removed if it cannot be renamed
(`Delivery.stranded`), which is the case for every path to a directory:
`packing_strands_temporary` leaves a file behind.
-/

namespace PackedRecord.Command

variable {σ ι : Type} {system : System (StateM σ)} {view : FileView σ ι} {path : String}
  {content : List UInt8} {output? : Option String} {s s' : σ} {status : Nat}

/-- The file that a packed record goes to; without one it is printed. -/
def outputFile? (output? : Option String) : Option String := output?.filter (· ≠ "-")

/-! ## Writing the output -/

/-- The ways of writing the content to a file, with the exit status and the state that
each of them leads to. -/
inductive Delivery (system : System (StateM σ)) (path : String) (content : List UInt8) (s : σ) :
    Nat → σ → Prop where
  | unwritten (fault : String) (written : σ)
      (hwrite : StateT.run (system.writeFile (path ++ ".tmp") content) s
        = (.error fault, written)) :
    Delivery system path content s 1 (StateT.run (system.discardFile (path ++ ".tmp")) written).2
  | stranded (fault : String) (written renamed : σ)
      (hwrite : StateT.run (system.writeFile (path ++ ".tmp") content) s = (.ok (), written))
      (hrename : StateT.run (system.renameFile (path ++ ".tmp") path) written
        = (.error fault, renamed)) :
    Delivery system path content s 1 renamed
  | replaced (written renamed : σ)
      (hwrite : StateT.run (system.writeFile (path ++ ".tmp") content) s = (.ok (), written))
      (hrename : StateT.run (system.renameFile (path ++ ".tmp") path) written
        = (.ok (), renamed)) :
    Delivery system path content s 0 renamed

theorem delivery_of_writeOutput (system : System (StateM σ)) (path : String)
    (content : List UInt8) (s : σ) :
    Delivery system path content s
      (Exit.ofResult (Step.runFrom s (writeOutput system path content)).1).status
      (Step.runFrom s (writeOutput system path content)).2 := by
  have hlift := Step.runFrom_lift (system.writeFile (path ++ ".tmp") content) s
  rcases hwrite : StateT.run (system.writeFile (path ++ ".tmp") content) s
    with ⟨fault | ⟨⟩, written⟩
  · rw [hwrite] at hlift
    rw [writeOutput, Step.runFrom_bind_of_ok hlift]
    exact .unwritten fault written hwrite
  · rw [hwrite] at hlift
    rw [writeOutput, Step.runFrom_bind_of_ok hlift]
    have hlift' := Step.runFrom_lift (system.renameFile (path ++ ".tmp") path) written
    rcases hrename : StateT.run (system.renameFile (path ++ ".tmp") path) written
      with ⟨fault | ⟨⟩, renamed⟩
    · rw [hrename] at hlift'
      simp only [Step.runFrom_bind_of_ok hlift', Step.runFrom_settle]
      exact .stranded fault written renamed hwrite hrename
    · rw [hrename] at hlift'
      simp only [Step.runFrom_bind_of_ok hlift', Step.runFrom_settle]
      exact .replaced written renamed hwrite hrename

namespace Delivery

variable (hview : view.Describes system) (h : Delivery system path content s status s')
include hview h

/-- A success replaces the target, and the temporary file is gone. -/
theorem replaces (hstatus : status = 0) :
    ∃ target temporary, view.place? path = some target
      ∧ view.place? (path ++ ".tmp") = some temporary ∧ view.find? s' target = some content
      ∧ view.find? s' temporary = none ∧ view.SameBut [target, temporary] s s' := by
  cases h with
  | unwritten _ _ _ => cases hstatus
  | stranded _ _ _ _ _ => cases hstatus
  | replaced written renamed hwrite hrename =>
      obtain ⟨temporary, htemporary, hcontent, hothers⟩ := hview.write_ok _ _ _ _ hwrite
      obtain ⟨source, target, hsource, htarget, hmoved, hgone, hothers'⟩ :=
        hview.rename_ok _ _ _ _ hrename
      obtain rfl : source = temporary := Option.some.inj (hsource.symm.trans htemporary)
      have hne : source ≠ target :=
        hview.append_ne path ".tmp" _ _ (by decide) (by decide) htarget htemporary
      refine ⟨target, source, htarget, htemporary, hmoved.trans hcontent, hgone hne, ?_⟩
      exact (hothers.mono fun _ => List.mem_cons_of_mem target).trans hothers'

/-- A failure changes nothing but the temporary file. -/
theorem spares (hstatus : status ≠ 0) :
    view.SameBut (view.place? (path ++ ".tmp")).toList s s' := by
  cases h with
  | unwritten fault written hwrite =>
      exact (hview.write_error _ _ _ _ _ hwrite).trans (hview.discard _ written).1
  | stranded fault written renamed hwrite hrename =>
      obtain ⟨temporary, htemporary, -, hothers⟩ := hview.write_ok _ _ _ _ hwrite
      rw [htemporary]
      exact hothers.trans (hview.rename_error _ _ _ _ _ hrename).of_nil
  | replaced _ _ _ _ => exact absurd rfl hstatus

/-- If the temporary file cannot be written, it is discarded. -/
theorem discards {fault : String} {written : σ}
    (hfault : StateT.run (system.writeFile (path ++ ".tmp") content) s = (.error fault, written)) :
    status = 1 ∧ s' = (StateT.run (system.discardFile (path ++ ".tmp")) written).2
      ∧ ∀ temporary, view.place? (path ++ ".tmp") = some temporary →
        view.find? s' temporary = none
          ∨ view.find? s' temporary = view.find? written temporary := by
  cases h with
  | unwritten fault' written' hwrite =>
      cases hwrite.symm.trans hfault
      exact ⟨rfl, rfl, (hview.discard _ written).2⟩
  | stranded _ _ _ hwrite _ => cases hwrite.symm.trans hfault
  | replaced _ _ hwrite _ => cases hwrite.symm.trans hfault

/-- If it cannot be renamed, it stays. -/
theorem strands {fault : String} {written renamed : σ}
    (hwritten : StateT.run (system.writeFile (path ++ ".tmp") content) s = (.ok (), written))
    (hfault : StateT.run (system.renameFile (path ++ ".tmp") path) written
      = (.error fault, renamed)) :
    status = 1 ∧ ∃ temporary, view.place? (path ++ ".tmp") = some temporary
      ∧ view.find? s' temporary = some content := by
  cases h with
  | unwritten _ _ hwrite => cases hwrite.symm.trans hwritten
  | stranded _ _ _ hwrite hrename =>
      cases hwrite.symm.trans hwritten
      cases hrename.symm.trans hfault
      obtain ⟨temporary, htemporary, hcontent, -⟩ := hview.write_ok _ _ _ _ hwritten
      have hkept := hview.rename_error _ _ _ _ _ hfault temporary List.not_mem_nil
      exact ⟨rfl, temporary, htemporary, hkept.trans hcontent⟩
  | replaced _ _ hwrite hrename =>
      cases hwrite.symm.trans hwritten
      cases hrename.symm.trans hfault

omit hview in
theorem succeeds {written renamed : σ}
    (hwritten : StateT.run (system.writeFile (path ++ ".tmp") content) s = (.ok (), written))
    (hrenamed : StateT.run (system.renameFile (path ++ ".tmp") path) written
      = (.ok (), renamed)) : status = 0 := by
  cases h with
  | unwritten _ _ hwrite => cases hwrite.symm.trans hwritten
  | stranded _ _ _ hwrite hrename =>
      cases hwrite.symm.trans hwritten
      cases hrename.symm.trans hrenamed
  | replaced _ _ _ _ => rfl

end Delivery

/-! ## Runs that pack -/

section
variable (hview : view.Describes system)
include hview

theorem sameBut_afterInput (argument : String) (s : σ) :
    view.SameBut [] s (system.afterInput argument s) := by
  unfold System.afterInput
  split
  · exact hview.standardInput s
  · exact .refl view [] s

theorem sameBut_printOut (content : List UInt8) (s : σ) :
    view.SameBut [] s (Step.runFrom s (printOut system content)).2 := by
  rw [printOut, Step.runFrom_bind_of_ok (Step.runFrom_lift (system.print content) s),
    Step.runFrom_settle]
  exact hview.print content s

theorem sameBut_deliver (h : outputFile? output? = none) (content : List UInt8) (s : σ) :
    view.SameBut [] s (Step.runFrom s (deliver system content output?)).2 := by
  cases output? with
  | none => exact sameBut_printOut hview _ s
  | some path =>
      have hpath : path = "-" := by simpa [outputFile?] using h
      rw [deliver, if_pos hpath]
      exact sameBut_printOut hview content s

end

theorem delivery_of_deliver (system : System (StateM σ)) (h : outputFile? output? = some path)
    (content : List UInt8) (s : σ) :
    Delivery system path content s
      (Exit.ofResult (Step.runFrom s (deliver system content output?)).1).status
      (Step.runFrom s (deliver system content output?)).2 := by
  obtain ⟨rfl, hpath⟩ := Option.filter_eq_some_iff.mp h
  rw [deliver, if_neg (by simpa using hpath)]
  exact delivery_of_writeOutput system path content s

/-- Packing to a file replaces the file and nothing else, and without a record nothing
is replaced. A failure changes no file but the temporary one. That is where the command
leaves more or less than there was: it discards the file if it cannot be written, though
it may have been there before, and it keeps it if it cannot be renamed. -/
theorem packing_replaces_or_spares (hview : view.Describes system) {arguments : List String}
    {options : Options} {text argument : String}
    (hline : parseLine arguments = some (options, .pack text argument output?)) (s : σ)
    {exit : Exit} {s' : σ} (hrun : StateT.run (execute system arguments) s = (exit, s')) :
    (outputFile? output? = none → view.SameBut [] s s')
      ∧ (system.packed? options text argument s = none →
        exit.status = 1 ∧ view.SameBut [] s s')
      ∧ ∀ content path, system.packed? options text argument s = some content →
        outputFile? output? = some path →
        (exit.status = 0 → ∃ target temporary, view.place? path = some target
          ∧ view.place? (path ++ ".tmp") = some temporary ∧ view.find? s' target = some content
          ∧ view.find? s' temporary = none ∧ view.SameBut [target, temporary] s s')
        ∧ (exit.status ≠ 0 → view.SameBut (view.place? (path ++ ".tmp")).toList s s')
        ∧ (∀ fault written,
          StateT.run (system.writeFile (path ++ ".tmp") content) (system.afterInput argument s)
            = (.error fault, written) →
          exit.status = 1 ∧ s' = (StateT.run (system.discardFile (path ++ ".tmp")) written).2
            ∧ ∀ temporary, view.place? (path ++ ".tmp") = some temporary →
              view.find? s' temporary = none
                ∨ view.find? s' temporary = view.find? written temporary)
        ∧ ∀ written,
          StateT.run (system.writeFile (path ++ ".tmp") content) (system.afterInput argument s)
            = (.ok (), written) →
          (∀ fault renamed, StateT.run (system.renameFile (path ++ ".tmp") path) written
              = (.error fault, renamed) →
            exit.status = 1 ∧ ∃ temporary, view.place? (path ++ ".tmp") = some temporary
              ∧ view.find? s' temporary = some content)
          ∧ ∀ renamed, StateT.run (system.renameFile (path ++ ".tmp") path) written
              = (.ok (), renamed) → exit.status = 0 := by
  rw [run_execute system hline] at hrun
  cases hrun
  have hread := sameBut_afterInput hview argument s
  cases hpacked : system.packed? options text argument s with
  | none =>
      obtain ⟨failure, s', hfails, hs'⟩ := runFrom_pack_of_none hpacked output?
      have hstatus := failsWith_pack system options text argument output? s failure s' hfails
      have hsame : view.SameBut [] s s' := by
        rcases hs' with rfl | rfl
        · exact .refl view [] s'
        · exact hread
      rw [hfails]
      exact ⟨fun _ => hsame, fun _ => ⟨hstatus, hsame⟩, fun content path h => (by cases h)⟩
  | some found =>
      rw [runFrom_pack_of_packed hpacked output?]
      refine ⟨fun hnone => hread.trans (sameBut_deliver hview hnone found _),
        fun h => (by cases h), ?_⟩
      intro content path hcontent hpath
      obtain rfl : found = content := Option.some.inj hcontent
      have hdelivery := delivery_of_deliver system hpath found (system.afterInput argument s)
      refine ⟨?_, ?_, ?_, ?_⟩
      · intro hstatus
        obtain ⟨target, temporary, htarget, htemporary, hfound, hgone, hothers⟩ :=
          hdelivery.replaces hview hstatus
        exact ⟨target, temporary, htarget, htemporary, hfound, hgone,
          hread.of_nil.trans hothers⟩
      · intro hstatus
        exact hread.of_nil.trans (hdelivery.spares hview hstatus)
      · exact fun fault written hfault => hdelivery.discards hview hfault
      · exact fun written hwritten =>
          ⟨fun fault renamed hfault => hdelivery.strands hview hwritten hfault,
            fun renamed hrenamed => hdelivery.succeeds hwritten hrenamed⟩

/-- A file and the one under its temporary name, both there before. -/
theorem packing_replaces_or_spares_sample :
    parseLine ["pack", "-f", ">I16", "[258]", "-o", "out"]
        = some (.strict, .pack ">I16" "[258]" (some "out"))
      ∧ (run ["pack", "-f", ">I16", "[258]", "-o", "out"] []
          (.ofList [("other", [1]), ("out.tmp", [7]), ("out", [9])])).1.status = 0
      ∧ (run ["pack", "-f", ">I16", "[258]", "-o", "out"] []
          (.ofList [("other", [1]), ("out.tmp", [7]), ("out", [9])])).2.find? ⟨.here, "out"⟩
        = some [1, 2]
      ∧ (run ["pack", "-f", ">I16", "[258]", "-o", "out"] []
          (.ofList [("other", [1]), ("out.tmp", [7]), ("out", [9])])).2.find? ⟨.here, "out.tmp"⟩
        = none := by
  have hline : parseLine ["pack", "-f", ">I16", "[258]", "-o", "out"]
      = some (.strict, .pack ">I16" "[258]" (some "out")) := by decide +kernel
  have hpacked : (modelSystem []).packed? .strict ">I16" "[258]"
      ⟨.ofList [("other", [1]), ("out.tmp", [7]), ("out", [9])], []⟩ = some [1, 2] := by
    decide +kernel
  have hstatus : (run ["pack", "-f", ">I16", "[258]", "-o", "out"] []
      (.ofList [("other", [1]), ("out.tmp", [7]), ("out", [9])])).1.status = 0 := by
    decide +kernel
  obtain ⟨-, -, hfiles⟩ := packing_replaces_or_spares (describes_modelSystem []) hline
    ⟨.ofList [("other", [1]), ("out.tmp", [7]), ("out", [9])], []⟩ rfl
  obtain ⟨target, temporary, htarget, htemporary, hcontent, hgone, -⟩ :=
    (hfiles [1, 2] "out" hpacked rfl).1 hstatus
  obtain rfl : ⟨.here, "out"⟩ = target := Option.some.inj htarget
  obtain rfl : ⟨.here, "out.tmp"⟩ = temporary := Option.some.inj htemporary
  exact ⟨hline, hstatus, hcontent, hgone⟩

/-- Nothing can be renamed to the working directory. -/
theorem packing_strands_temporary :
    parseLine ["pack", "-f", "i", "[1]", "-o", "."]
        = some (.strict, .pack "i" "[1]" (some "."))
      ∧ (run ["pack", "-f", "i", "[1]", "-o", "."] [] (.ofList [])).1.status = 1
      ∧ (Files.ofList []).toList = []
      ∧ (run ["pack", "-f", "i", "[1]", "-o", "."] [] (.ofList [])).2.toList
        = [("..tmp", [1, 0, 0, 0])] := by
  refine ⟨?_, ?_, ?_, ?_⟩ <;> decide +kernel

-- a read-only file that has the temporary name is removed by a command that fails
example :
    let files : Files := ⟨[(⟨.here, "out.tmp"⟩, ⟨[7], true⟩), (⟨.here, "out"⟩, ⟨[9], false⟩)]⟩
    (run ["pack", "-f", "i", "[1]", "-o", "out"] [] files).1.status = 1
      ∧ (run ["pack", "-f", "i", "[1]", "-o", "out"] [] files).2.toList = [("out", [9])] := by
  decide +kernel

end PackedRecord.Command
