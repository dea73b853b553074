import PackedRecord.Command.Files

/-!
# Files and their places

Files are told apart by where they are kept, so what an operation does is said
by looking every location up afterwards (`Files.find?_put`,
`Files.find?_remove`).

Whether a path leads to a file's place does not depend on the files that there
are (`Files.resolve_eq_file`): they only decide why another path leads nowhere.
So a path leads to the same place after any number of operations. The file that
a path with something appended leads to has a longer name
(`Files.name_of_append`), and therefore is another file.

An operation that succeeds puts a file at the place that its path leads to
(`Files.write_eq_ok`, `Files.rename_eq_ok`); one that does not changes nothing.
-/

namespace PackedRecord.Command.Files

variable {fs fs' : Files}

/-! ## Looking up -/

theorem lookup_filter_ne (location other : Location) (entries : List (Location × File)) :
    (entries.filter fun entry => entry.1 ≠ location).lookup other
      = if other = location then none else entries.lookup other := by
  induction entries with
  | nil => simp
  | cons entry entries ih =>
      obtain ⟨kept, file⟩ := entry
      by_cases hkept : kept = location
      · subst hkept
        rw [List.filter_cons_of_neg (by simp), ih]
        by_cases hother : other = kept
        · simp [hother]
        · rw [if_neg hother, if_neg hother, List.lookup_cons, beq_false_of_ne hother]
      · rw [List.filter_cons_of_pos (by simpa using hkept), List.lookup_cons, List.lookup_cons, ih]
        by_cases hother : other = kept
        · subst hother
          simp [hkept]
        · simp [beq_false_of_ne hother]

theorem find?_remove (fs : Files) (location other : Location) :
    (fs.remove location).find? other = if other = location then none else fs.find? other := by
  rw [find?, file?, remove, lookup_filter_ne]
  split
  · rfl
  · rfl

theorem find?_put (fs : Files) (location other : Location) (file : File) :
    (fs.put location file).find? other
      = if other = location then some file.content else fs.find? other := by
  have hrest := find?_remove fs location other
  rw [find?, file?] at hrest ⊢
  rw [put, List.lookup_cons]
  by_cases hother : other = location
  · simp [hother]
  · rw [if_neg hother] at hrest
    rw [beq_false_of_ne hother, if_neg hother]
    exact hrest

/-! ## Places -/

/-- Which files there are does not decide where a file would be kept. -/
theorem placeFrom_eq_file (fs fs' : Files) {location : Location} (parts : List (List Char))
    (level : Level) (h : fs.placeFrom level parts = .file location) :
    fs'.placeFrom level parts = .file location := by
  induction parts generalizing level with
  | nil => cases h
  | cons part rest ih =>
      rw [placeFrom] at h ⊢
      split at h
      · next hstays =>
          rw [if_pos hstays]
          exact ih level h
      · next hstays =>
          rw [if_neg hstays]
          split at h
          · next hup =>
              rw [if_pos hup]
              exact ih .above h
          · next hup =>
              rw [if_neg hup]
              -- a part that is a name has to be the last one
              cases rest with
              | nil => exact h
              | cons next rest =>
                  simp only [List.isEmpty_cons, Bool.false_eq_true, if_false] at h
                  split at h
                  · cases h
                  · split at h <;> cases h

theorem resolve_eq_file (fs' : Files) {path : String} {location : Location}
    (h : fs.resolve path = .file location) : fs'.resolve path = .file location := by
  unfold resolve at h ⊢
  split at h
  · cases h
  · next hlength =>
      rw [if_neg hlength]
      split at h
      · cases h
      · exact placeFrom_eq_file fs fs' _ _ h
      · exact placeFrom_eq_file fs fs' _ _ h

/-- A file has the name that its path ends with. -/
theorem name_of_placeFrom {location : Location} {last : List Char} (before : List (List Char))
    (level : Level) (h : fs.placeFrom level (before ++ [last]) = .file location) :
    location.name = String.ofList last := by
  induction before generalizing level with
  | nil =>
      rw [List.nil_append, placeFrom] at h
      split at h
      · cases h
      · split at h
        · cases h
        · simp only [List.isEmpty_nil, if_true] at h
          split at h
          · cases h
          · cases h
            rfl
  | cons part before ih =>
      rw [List.cons_append, placeFrom] at h
      split at h
      · exact ih level h
      · split at h
        · exact ih .above h
        · have hmore : (before ++ [last]).isEmpty = false := by simp
          simp only [hmore, Bool.false_eq_true, if_false] at h
          split at h
          · cases h
          · split at h <;> cases h

theorem parts_of_not_mem {chars : List Char} (h : '/' ∉ chars) : parts chars = [chars] := by
  induction chars with
  | nil => rfl
  | cons c chars ih =>
      have hc : c ≠ '/' := fun heq => h (heq ▸ List.mem_cons_self)
      rw [parts, if_neg hc, ih fun hmem => h (List.mem_cons_of_mem c hmem)]

/-- What has no slash in it goes to the last part. -/
theorem parts_append {more : List Char} (hmore : '/' ∉ more) (chars : List Char) :
    ∃ before last, parts chars = before ++ [last]
      ∧ parts (chars ++ more) = before ++ [last ++ more] := by
  induction chars with
  | nil => exact ⟨[], [], rfl, parts_of_not_mem hmore⟩
  | cons c chars ih =>
      obtain ⟨before, last, hparts, happend⟩ := ih
      rw [List.cons_append, parts, parts, hparts, happend]
      by_cases hc : c = '/'
      · rw [if_pos hc, if_pos hc]
        exact ⟨[] :: before, last, rfl, rfl⟩
      · rw [if_neg hc, if_neg hc]
        cases before with
        | nil => exact ⟨[], c :: last, rfl, rfl⟩
        | cons part before => exact ⟨(c :: part) :: before, last, rfl, rfl⟩

/-- The path to a file ends with the file's name. -/
theorem name_of_resolve {path : String} {location : Location} {before : List (List Char)}
    {last : List Char} (h : fs.resolve path = .file location)
    (hparts : parts path.toList = before ++ [last]) : location.name = String.ofList last := by
  unfold resolve at h
  split at h
  · cases h
  · split at h
    · cases h
    · next rest hslash =>
        rw [hslash, parts, if_pos rfl] at hparts
        cases before with
        | nil =>
            have hnone : parts rest = [] := (List.cons.inj hparts).2
            rw [hnone] at h
            cases h
        | cons part before =>
            rw [(List.cons.inj hparts).2] at h
            exact name_of_placeFrom before .above h
    · rw [hparts] at h
      exact name_of_placeFrom before .here h

/-- A longer last part is a longer name. -/
theorem name_of_append {path more : String} {target temporary : Location}
    (hmore : '/' ∉ more.toList) (htarget : fs.resolve path = .file target)
    (htemporary : fs.resolve (path ++ more) = .file temporary) :
    temporary.name = target.name ++ more := by
  obtain ⟨before, last, hparts, happend⟩ := parts_append hmore path.toList
  rw [← String.toList_append] at happend
  rw [name_of_resolve htarget hparts, name_of_resolve htemporary happend, String.ofList_append,
    String.ofList_toList]

theorem ne_of_append {path more : String} {target temporary : Location}
    (hmore : '/' ∉ more.toList) (hne : more ≠ "") (htarget : fs.resolve path = .file target)
    (htemporary : fs.resolve (path ++ more) = .file temporary) : temporary ≠ target := by
  rintro rfl
  have hname := congrArg String.length (name_of_append hmore htarget htemporary)
  rw [String.length_append] at hname
  have hlength : more.length ≠ 0 := fun h => hne (String.length_eq_zero_iff.mp h)
  omega

/-! ## Operations -/

section
variable {path source target : String}

theorem write_eq_ok {content : List UInt8} (h : fs.write path content = .ok fs') :
    ∃ location, fs.resolve path = .file location ∧ fs' = fs.put location ⟨content, false⟩ := by
  unfold write at h
  split at h
  · next location hplace =>
      split at h
      · cases h
      · cases h
        exact ⟨location, hplace, rfl⟩
  · cases h
  · cases h

theorem discard_cases (fs : Files) (path : String) :
    fs.discard path = fs
      ∨ ∃ location, fs.resolve path = .file location ∧ fs.discard path = fs.remove location := by
  unfold discard
  cases hplace : fs.resolve path with
  | file location => exact Or.inr ⟨location, rfl, rfl⟩
  | directory => exact Or.inl rfl
  | nowhere fault => exact Or.inl rfl

theorem rename_eq_ok (h : fs.rename source target = .ok fs') :
    ∃ location location' file, fs.resolve source = .file location
      ∧ fs.file? location = some file ∧ fs.resolve target = .file location'
      ∧ fs' = (fs.remove location).put location' file := by
  unfold rename at h
  split at h
  · next location hsource =>
      split at h
      · cases h
      · next file location' hfile htarget =>
          cases h
          exact ⟨location, location', file, hsource, hfile, htarget, rfl⟩
      · cases h
      · cases h
  · cases h
  · cases h

end

end PackedRecord.Command.Files
