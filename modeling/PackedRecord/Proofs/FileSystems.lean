import PackedRecord.Command.Run
import PackedRecord.Proofs.FilePlaces

/-!
# Systems that keep files

What is known of the files on a system that may answer anything. A view of them
says to which place a path leads and what file is there in a state of the
system (`FileView`). The system keeps these files if its operations do to them
what they are documented to do (`FileView.Describes`), and that leaves much
open. An operation may fail at any time and for any reason. A file that could
not be written may hold anything afterwards, and discarding it may do nothing.
Only renaming is all or nothing.

Where a path leads is not up to the state, so links are left out.

The files of the model are kept in this sense (`describes_modelSystem`).
-/

namespace PackedRecord.Command

/-- A view of the files: the place that a path leads to, where a file is or can be
made, and the content of the file at a place. -/
structure FileView (σ ι : Type) where
  place? : String → Option ι
  find? : σ → ι → Option (List UInt8)

namespace FileView

variable {σ ι : Type} {view : FileView σ ι} {touched touched' : List ι} {s s' s₁ : σ}

/-- Only the files at the places listed may differ. -/
def SameBut (view : FileView σ ι) (touched : List ι) (s s' : σ) : Prop :=
  ∀ place, place ∉ touched → view.find? s' place = view.find? s place

theorem SameBut.refl (view : FileView σ ι) (touched : List ι) (s : σ) :
    view.SameBut touched s s := fun _ _ => rfl

theorem SameBut.mono (h : view.SameBut touched s s') (hsubset : touched ⊆ touched') :
    view.SameBut touched' s s' := fun place hplace => h place fun hmem => hplace (hsubset hmem)

theorem SameBut.of_nil (h : view.SameBut [] s s') : view.SameBut touched s s' :=
  h.mono (List.nil_subset touched)

theorem SameBut.trans (h : view.SameBut touched s s₁) (h' : view.SameBut touched s₁ s') :
    view.SameBut touched s s' := fun place hplace => (h' place hplace).trans (h place hplace)

/-- The system does to the files of the view what its operations are for. -/
structure Describes (view : FileView σ ι) (system : System (StateM σ)) : Prop where
  /-- More of a name is another name. -/
  append_ne : ∀ path more place place', '/' ∉ more.toList → more ≠ "" →
    view.place? path = some place → view.place? (path ++ more) = some place' → place' ≠ place
  standardInput : ∀ s, view.SameBut [] s (StateT.run system.standardInput s).2
  print : ∀ content s, view.SameBut [] s (StateT.run (system.print content) s).2
  write_ok : ∀ path content s s',
    StateT.run (system.writeFile path content) s = (.ok (), s') →
    ∃ place, view.place? path = some place ∧ view.find? s' place = some content
      ∧ view.SameBut [place] s s'
  /-- The file may have been made, emptied or written in part. -/
  write_error : ∀ path content s fault s',
    StateT.run (system.writeFile path content) s = (.error fault, s') →
    view.SameBut (view.place? path).toList s s'
  discard : ∀ path s, view.SameBut (view.place? path).toList s
      (StateT.run (system.discardFile path) s).2
    ∧ ∀ place, view.place? path = some place →
      view.find? (StateT.run (system.discardFile path) s).2 place = none
        ∨ view.find? (StateT.run (system.discardFile path) s).2 place = view.find? s place
  rename_ok : ∀ source target s s',
    StateT.run (system.renameFile source target) s = (.ok (), s') →
    ∃ place place', view.place? source = some place ∧ view.place? target = some place'
      ∧ view.find? s' place' = view.find? s place ∧ (place ≠ place' → view.find? s' place = none)
      ∧ view.SameBut [place', place] s s'
  rename_error : ∀ source target s fault s',
    StateT.run (system.renameFile source target) s = (.error fault, s') → view.SameBut [] s s'

end FileView

/-! ## On the model -/

/-- The place of a file. -/
def Files.Place.location? : Files.Place → Option Location
  | .file location => some location
  | _ => none

theorem Files.Place.location?_eq_some_iff {place : Files.Place} {location : Location} :
    place.location? = some location ↔ place = .file location := by
  cases place <;> simp [location?]

/-- The files of the model. Which of them there are does not matter to their places. -/
def modelView : FileView World Location where
  place? path := ((Files.ofList []).resolve path).location?
  find? world location := world.files.find? location

section
variable {path : String} {location : Location}

theorem place?_eq_some_iff (fs : Files) :
    modelView.place? path = some location ↔ fs.resolve path = .file location :=
  Files.Place.location?_eq_some_iff.trans ⟨Files.resolve_eq_file fs, Files.resolve_eq_file _⟩

theorem find?_modelView (world : World) (location : Location) :
    modelView.find? world location = world.files.find? location := rfl

theorem sameBut_put (world : World) (file : File) :
    modelView.SameBut [location] world { world with files := world.files.put location file } := by
  intro other hother
  rw [find?_modelView, Files.find?_put, if_neg fun heq => hother (List.mem_singleton.mpr heq)]
  rfl

theorem run_writeFile (input : List UInt8) (path : String) (content : List UInt8) (world : World) :
    StateT.run ((modelSystem input).writeFile path content) world
      = match world.files.write path content with
        | .ok files => (.ok (), { world with files })
        | .error fault => (.error fault.message, world) := by
  simp only [modelSystem, StateT.run_bind, StateT.run_get, pure_bind]
  cases world.files.write path content <;> rfl

theorem run_renameFile (input : List UInt8) (source target : String) (world : World) :
    StateT.run ((modelSystem input).renameFile source target) world
      = match world.files.rename source target with
        | .ok files => (.ok (), { world with files })
        | .error fault => (.error fault.message, world) := by
  simp only [modelSystem, StateT.run_bind, StateT.run_get, pure_bind]
  cases world.files.rename source target <;> rfl

end

theorem describes_modelSystem (input : List UInt8) : modelView.Describes (modelSystem input) where
  append_ne path more place place' hmore hne hplace hplace' :=
    Files.ne_of_append hmore hne ((place?_eq_some_iff (.ofList [])).mp hplace)
      ((place?_eq_some_iff (.ofList [])).mp hplace')
  standardInput world := .refl _ _ world
  print content world := .refl _ _ _
  write_ok path content world world' h := by
    rw [run_writeFile] at h
    split at h
    · next files hwrite =>
        obtain ⟨location, hplace, rfl⟩ := Files.write_eq_ok hwrite
        cases h
        refine ⟨location, (place?_eq_some_iff _).mpr hplace, ?_, sameBut_put world _⟩
        rw [find?_modelView, Files.find?_put, if_pos rfl]
    · cases h
  write_error path content world fault world' h := by
    rw [run_writeFile] at h
    split at h
    · cases h
    · cases h
      exact .refl _ _ _
  discard path world := by
    show modelView.SameBut _ world { world with files := world.files.discard path } ∧
      ∀ place, _ → (world.files.discard path).find? place = none
        ∨ (world.files.discard path).find? place = world.files.find? place
    rcases world.files.discard_cases path with hkept | ⟨location, hplace, hremoved⟩
    · rw [hkept]
      exact ⟨.refl _ _ world, fun place _ => Or.inr rfl⟩
    · rw [hremoved, (place?_eq_some_iff _).mpr hplace]
      constructor
      · intro other hother
        rw [find?_modelView, Files.find?_remove,
          if_neg fun heq => hother (List.mem_singleton.mpr heq)]
        rfl
      · intro place _
        rw [Files.find?_remove]
        split
        · exact Or.inl rfl
        · exact Or.inr rfl
  rename_ok source target world world' h := by
    rw [run_renameFile] at h
    split at h
    · next files hrename =>
        obtain ⟨place, place', file, hsource, hfile, htarget, rfl⟩ := Files.rename_eq_ok hrename
        cases h
        refine ⟨place, place', (place?_eq_some_iff _).mpr hsource,
          (place?_eq_some_iff _).mpr htarget, ?_, ?_, ?_⟩
        · have hcontent : world.files.find? place = some file.content := by
            rw [Files.find?, hfile, Option.map_some]
          rw [find?_modelView, find?_modelView, Files.find?_put, if_pos rfl, hcontent]
        · intro hne
          rw [find?_modelView, Files.find?_put, if_neg hne, Files.find?_remove, if_pos rfl]
        · intro other hother
          have hne' : other ≠ place' := fun heq => hother (heq ▸ List.mem_cons_self)
          have hne : other ≠ place :=
            fun heq => hother (List.mem_cons_of_mem place' (List.mem_singleton.mpr heq))
          rw [find?_modelView, Files.find?_put, if_neg hne', Files.find?_remove, if_neg hne]
          rfl
    · cases h
  rename_error source target world fault world' h := by
    rw [run_renameFile] at h
    split at h
    · cases h
    · cases h
      exact .refl _ _ _

end PackedRecord.Command
