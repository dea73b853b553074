import PackedRecord.Format.Parser
import PackedRecord.Proofs.Misfits
import PackedRecord.Proofs.ReadingErrors

/-!
# Each phase has faults of its own

Parsing only finds fault with the format text, packing and measuring only
with the values, unpacking only with the data (`Format.category_of_parse`,
`Format.category_of_pack`, `Format.category_of_measure`,
`Format.category_of_unpack`). For parsing that is a property of results that
sequences keep (`Category.Covers`). For the other phases it is read off what
they are known to report: misfits, and what the policies allow for.
-/

namespace PackedRecord

/-! ## Parsing -/

/-- Every error of the result is of the category. -/
def Category.Covers {α : Type} (category : Category) (result : Except Error α) : Prop :=
  ∀ err, result = .error err → err.category = category

namespace Category.Covers

variable {α β : Type} {category : Category}

theorem ok (a : α) : category.Covers (.ok a) := by
  rintro err ⟨⟩

theorem error {err : Error} (h : err.category = category) :
    category.Covers (.error err : Except Error α) := by
  rintro err' ⟨⟩
  exact h

theorem bind {x : Except Error α} {f : α → Except Error β} (hx : category.Covers x)
    (hf : ∀ a, category.Covers (f a)) : category.Covers (x >>= f) := by
  intro err herr
  cases x with
  | error err' =>
      cases herr
      exact hx _ rfl
  | ok a => exact hf a err herr

theorem map {x : Except Error α} (hx : category.Covers x) (g : α → β) :
    category.Covers (x.map g) := by
  cases x with
  | error err => exact error (hx err rfl)
  | ok a => exact ok (g a)

end Category.Covers

namespace Operation

theorem covers_fixedPrefix (opcode : Char) (width : Nat) :
    Category.formatText.Covers (fixedPrefix opcode width) := by
  unfold fixedPrefix
  split
  · exact .ok _
  · exact .error rfl

theorem covers_optionalPrefix (opcode : Char) (size : Option Nat) :
    Category.formatText.Covers (optionalPrefix opcode size) := by
  unfold optionalPrefix
  split
  · exact .ok _
  · exact .ok _
  · exact covers_fixedPrefix opcode _

theorem covers_required (opcode : Char) (position : Nat) (size : Option Nat) :
    Category.formatText.Covers (required opcode position size) := by
  cases size with
  | none => exact .error rfl
  | some n => exact .ok n

theorem covers_integerOf (signed : Bool) (bits : Nat) :
    Category.formatText.Covers (integerOf signed bits) := by
  unfold integerOf
  split
  · split
    · exact .ok _
    · exact .error rfl
  · exact .error rfl

theorem covers_floatOf (bits : Nat) : Category.formatText.Covers (floatOf bits) := by
  unfold floatOf
  split
  · exact .ok _
  · exact .error rfl

theorem covers_sized {c : Char} {make : Nat → Option Nat → Except Error Operation}
    (h : sized? c = some make) (position : Nat) (size : Option Nat) :
    Category.formatText.Covers (make position size) := by
  unfold sized? at h
  split at h <;> cases h
  · exact .ok _
  · exact .ok _
  · exact .map (covers_optionalPrefix 'B' size) _
  · exact covers_integerOf true _
  · exact covers_integerOf false _
  · exact covers_floatOf _
  · exact .map (covers_fixedPrefix 's' _) _
  · exact .map (covers_required 'c' position size) _
  · exact .map (covers_required 'a' position size) _
  · exact .map (covers_optionalPrefix 'A' size) _

end Operation

namespace Format

theorem covers_size (position : Nat) (digits : List Char) :
    Category.formatText.Covers (size? position digits) := by
  unfold size?
  split
  · exact .ok _
  · split
    · exact .error rfl
    · exact .ok _

theorem covers_parseFrom (position : Nat) (before : List Operation) (text : List Char) :
    Category.formatText.Covers (parseFrom position before text) := by
  fun_induction parseFrom position before text with
  | case1 position before => exact .ok _
  | case2 position before c rest hblank ih => exact ih
  | case3 position before c rest hblank op hbare ih => exact ih
  | case4 position before c rest hblank hbare make hsized digits ih =>
      exact .bind (covers_size _ digits) fun size =>
        .bind (Operation.covers_sized hsized position size) fun op => ih op
  | case5 position before c rest hblank hbare hsized => exact .error rfl

theorem category_of_parse {text : String} {err : Error} (h : parse text = .error err) :
    err.category = .formatText :=
  Category.Covers.bind (covers_parseFrom 0 [] text.toList) (fun _ => .ok _) err h

end Format

/-! ## Packing and unpacking -/

theorem Operation.category_of_misfit {op : Operation} {index : Nat} {v? : Option Value}
    {err : Error} (h : op.misfit? index v? = some err) : err.category = .argument := by
  unfold misfit? at h
  split at h
  · cases h
    rfl
  · split at h
    · cases h
    · split at h
      · cases h
        rfl
      · split at h
        · cases h
        · split at h <;> cases h
          rfl

namespace Format

variable {format : Format} {values : List Value} {options : Options} {err : Error}

theorem category_of_rejects (h : format.Rejects values options err) : err.category = .argument := by
  rcases h with ⟨i, hi, -⟩ | ⟨-, -, -, rfl⟩
  · obtain ⟨op, -, hmisfit⟩ := Option.bind_eq_some_iff.mp hi
    exact Operation.category_of_misfit hmisfit
  · rfl

theorem category_of_pack (h : format.pack values options = .error err) :
    err.category = .argument :=
  category_of_rejects (pack_eq_error_iff.mp h)

theorem category_of_measure (h : Size.measure format values options = .error err) :
    err.category = .argument :=
  category_of_rejects (measure_eq_error_iff.mp h)

theorem category_of_unpack {data : List UInt8} {offset : Nat}
    (h : format.unpack data offset options = .error err) : err.category = .data := by
  have hreport := canReport_of_unpack h
  cases err <;> first | rfl | exact hreport.elim

end Format

end PackedRecord
