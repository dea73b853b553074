import PackedRecord.Bytes.Reader

/-!
# Fields in any surrounding

A reading sees all the data that is left, and its position in it. This
file says what it means that a reading nevertheless depends on its own
field only, in two strengths:

- `Read.Reads x field a`: before anything and after anything, `x` reads
  exactly `field` and yields `a`. This is what a round trip needs of a
  reading, for the one field that was written.
- `Read.Delimited x`: whenever `x` succeeds, what it consumed is such a
  field, and no proper beginning of that field is enough. The second half
  (`Read.FailsShort`) also pins down the errors: data that stops inside a
  field is never mistaken for data that is wrong.

Both are closed under sequencing (`Reads.bind`, `Delimited.bind`), so the
codecs inherit them from the primitive readings. The exception is the
position, which is not part of any field: `Delimited.position` asks that
what follows uses it for errors only.
-/

namespace PackedRecord

/-- The errors that more data could have prevented. -/
def Error.isCutShort : Error → Bool
  | .unexpectedEnd .. => true
  | .unterminatedString _ => true
  | _ => false

/-! ## Running a sequence

Readings and takings are the same kind of computation over different
states, so these hold of both. -/

section
variable {ε σ α β : Type} {x : EStateM ε σ α} {f : α → EStateM ε σ β} {s s₁ : σ}

theorem bind_of_ok {a : α} (h : x s = .ok a s₁) : (x >>= f) s = f a s₁ := by
  show EStateM.bind x f s = f a s₁
  rw [EStateM.bind, h]

theorem bind_of_error {e : ε} (h : x s = .error e s₁) : (x >>= f) s = .error e s₁ := by
  show EStateM.bind x f s = .error e s₁
  rw [EStateM.bind, h]

theorem bind_eq_ok {s' : σ} {b : β} :
    (x >>= f) s = .ok b s' ↔ ∃ a s₁, x s = .ok a s₁ ∧ f a s₁ = .ok b s' := by
  constructor
  · intro h
    cases hx : x s with
    | ok a s₁ => exact ⟨a, s₁, rfl, (bind_of_ok hx).symm.trans h⟩
    | error e s₁ =>
        rw [bind_of_error hx] at h
        cases h
  · rintro ⟨a, s₁, hx, hf⟩
    exact (bind_of_ok hx).trans hf

theorem bind_eq_error {s' : σ} {e : ε} :
    (x >>= f) s = .error e s' ↔
      x s = .error e s' ∨ ∃ a s₁, x s = .ok a s₁ ∧ f a s₁ = .error e s' := by
  constructor
  · intro h
    cases hx : x s with
    | ok a s₁ => exact Or.inr ⟨a, s₁, rfl, (bind_of_ok hx).symm.trans h⟩
    | error e₁ s₁ =>
        rw [bind_of_error hx] at h
        cases h
        exact Or.inl rfl
  · rintro (hx | ⟨a, s₁, hx, hf⟩)
    · exact bind_of_error hx
    · exact (bind_of_ok hx).trans hf

end

/-- A reader over the rest of some data. -/
theorem Reader.start_append (before rest : List UInt8) :
    Reader.start (before ++ rest) before.length = .ok ⟨before.length, rest⟩ := by
  rw [Reader.start, if_neg (by simp), List.drop_left]

namespace Read

variable {α β : Type}

theorem position_bind (k : Nat → Read α) (r : Reader) : (position >>= k) r = k r.position r := rfl

theorem ensure_bind {n : Nat} {f : Unit → Read α} {r : Reader} :
    (ensure n >>= f) r =
      if r.rest.length < n then .error (.unexpectedEnd r.position n r.rest.length) r
      else f () r := by
  by_cases h : r.rest.length < n
  · have hr : ensure n r = .error (.unexpectedEnd r.position n r.rest.length) r := by
      simp [ensure, Reader.remaining, h]
    rw [bind_of_error hr, if_pos h]
  · have hr : ensure n r = .ok () r := by
      simp [ensure, Reader.remaining, h]
    rw [bind_of_ok hr, if_neg h]

theorem bytes_eq (n : Nat) (r : Reader) :
    bytes n r = if r.rest.length < n then .error (.unexpectedEnd r.position n r.rest.length) r
      else .ok (r.rest.take n) ⟨r.position + n, r.rest.drop n⟩ :=
  ensure_bind

theorem skip_eq (n : Nat) (r : Reader) :
    skip n r = if r.rest.length < n then .error (.unexpectedEnd r.position n r.rest.length) r
      else .ok () ⟨r.position + n, r.rest.drop n⟩ :=
  ensure_bind

theorem length_of_bytes {n : Nat} {r r' : Reader} {content : List UInt8}
    (h : bytes n r = .ok content r') : content.length = n := by
  rw [bytes_eq] at h
  split at h
  · cases h
  · cases h
    rw [List.length_take]
    omega

/-! ## One field -/

/-- The reading consumes exactly `field` and yields `a`, wherever it stands. -/
def Reads (x : Read α) (field : List UInt8) (a : α) : Prop :=
  ∀ position rest, x ⟨position, field ++ rest⟩ = .ok a ⟨position + field.length, rest⟩

namespace Reads

theorem pure (a : α) : Reads (Pure.pure a) [] a := fun _ _ => rfl

theorem ofExcept (a : α) : Reads (Read.ofExcept (.ok a)) [] a := fun _ _ => rfl

theorem bind {x : Read α} {f : α → Read β} {u w : List UInt8} {a : α} {b : β}
    (hx : Reads x u a) (hf : Reads (f a) w b) : Reads (x >>= f) (u ++ w) b := by
  intro position rest
  rw [List.append_assoc, bind_of_ok (hx position (w ++ rest)), hf, List.length_append,
    Nat.add_assoc]

theorem map {x : Read α} {u : List UInt8} {a : α} (hx : Reads x u a) (g : α → β) :
    Reads (x >>= fun a => Pure.pure (g a)) u (g a) := by
  have h := hx.bind (f := fun a => Pure.pure (g a)) (pure (g a))
  rwa [List.append_nil] at h

/-- What follows may be told the position as long as it reads the same from everywhere. -/
theorem position {k : Nat → Read α} {u : List UInt8} {a : α} (h : ∀ p, Reads (k p) u a) :
    Reads (Read.position >>= k) u a :=
  fun p rest => h p p rest

theorem byte (b : UInt8) : Reads Read.byte [b] b := fun _ _ => rfl

theorem bytes {n : Nat} {u : List UInt8} (h : u.length = n) : Reads (Read.bytes n) u u := by
  subst h
  intro position rest
  rw [bytes_eq, if_neg (by simp)]
  simp

theorem skip {n : Nat} {u : List UInt8} (h : u.length = n) : Reads (Read.skip n) u () := by
  subst h
  intro position rest
  rw [skip_eq, if_neg (by simp)]
  simp

end Reads

/-! ## Delimited readings -/

/-- Every proper beginning of `field` ends too early for the reading. -/
def FailsShort (x : Read α) (field : List UInt8) : Prop :=
  ∀ position begun missing, field = begun ++ missing → missing ≠ [] →
    ∃ e r, x ⟨position, begun⟩ = .error e r ∧ e.isCutShort = true

/-- Whenever the reading succeeds, it consumed a field that it reads
everywhere and needs in full. -/
def Delimited (x : Read α) : Prop :=
  ∀ ⦃r r' : Reader⦄ ⦃a : α⦄, x r = .ok a r' →
    ∃ field, r.rest = field ++ r'.rest ∧ r'.position = r.position + field.length
      ∧ Reads x field a ∧ FailsShort x field

/-- The empty field has no proper beginning. -/
theorem failsShort_nil (x : Read α) : FailsShort x [] := by
  intro position begun missing h hne
  have hnil := List.append_eq_nil_iff.mp h.symm
  exact absurd hnil.2 hne

/-- A shortage inside the first field shows at once; one inside the second
shows after the first was read from a complete field. -/
theorem FailsShort.bind {x : Read α} {f : α → Read β} {u w : List UInt8} {a : α}
    (hx : FailsShort x u) (hu : Reads x u a) (hf : FailsShort (f a) w) :
    FailsShort (x >>= f) (u ++ w) := by
  intro position begun missing h hne
  rcases List.append_eq_append_iff.mp h with ⟨more, hbegun, hw⟩ | ⟨more, hu', hmissing⟩
  · obtain ⟨e, r, he, hcut⟩ := hf (position + u.length) more missing hw hne
    refine ⟨e, r, ?_, hcut⟩
    rw [hbegun, bind_of_ok (hu position more)]
    exact he
  · by_cases hmore : more = []
    · subst hmore
      rw [List.append_nil] at hu'
      rw [List.nil_append] at hmissing
      obtain ⟨e, r, he, hcut⟩ := hf (position + u.length) [] w rfl (hmissing ▸ hne)
      refine ⟨e, r, ?_, hcut⟩
      have hr := hu position []
      rw [List.append_nil] at hr
      rw [← hu', bind_of_ok hr]
      exact he
    · obtain ⟨e, r, he, hcut⟩ := hx position begun more hu' hmore
      exact ⟨e, r, bind_of_error he, hcut⟩

namespace Delimited

theorem pure (a : α) : Delimited (Pure.pure a : Read α) := by
  intro r r' a' h
  cases h
  exact ⟨[], rfl, rfl, Reads.pure a, failsShort_nil _⟩

theorem fail (e : Error) : Delimited (Read.fail e : Read α) := by
  intro r r' a h
  cases h

theorem ofExcept (result : Except Error α) : Delimited (Read.ofExcept result) := by
  cases result with
  | ok a => exact pure a
  | error e => exact fail e

theorem bind {x : Read α} {f : α → Read β} (hx : Delimited x) (hf : ∀ a, Delimited (f a)) :
    Delimited (x >>= f) := by
  intro r r' b h
  obtain ⟨a, r₁, hxr, hfr⟩ := bind_eq_ok.mp h
  obtain ⟨u, hu, hup, hreads, hshort⟩ := hx hxr
  obtain ⟨w, hw, hwp, hreads', hshort'⟩ := hf a hfr
  refine ⟨u ++ w, ?_, ?_, hreads.bind hreads', hshort.bind hreads hshort'⟩
  · rw [hu, hw, List.append_assoc]
  · rw [hwp, hup, List.length_append, Nat.add_assoc]

theorem map {x : Read α} (hx : Delimited x) (g : α → β) :
    Delimited (x >>= fun a => Pure.pure (g a)) :=
  hx.bind fun a => pure (g a)

/-- Reading after asking for the position: `hsame` says that the answer
reaches no result, only errors. -/
theorem position {k : Nat → Read α} (hk : ∀ p, Delimited (k p))
    (hsame : ∀ p q {r r' : Reader} {a : α}, k p r = .ok a r' → k q r = .ok a r') :
    Delimited (Read.position >>= k) := by
  intro r r' a h
  have hr : k r.position r = .ok a r' := h
  obtain ⟨u, hu, hup, hreads, -⟩ := hk r.position hr
  refine ⟨u, hu, hup, Reads.position fun q p rest => hsame r.position q (hreads p rest), ?_⟩
  intro p begun missing hsplit hne
  -- The field of `k p` is the same one, since both leave the same rest.
  have hp : k p r = .ok a r' := hsame r.position p hr
  obtain ⟨u', hu', -, -, hshort⟩ := hk p hp
  have heq : u' = u := List.append_cancel_right (hu'.symm.trans hu)
  exact hshort p begun missing (heq.trans hsplit) hne

theorem byte : Delimited Read.byte := by
  intro r r' b h
  obtain ⟨position, rest⟩ := r
  cases rest with
  | nil => cases h
  | cons c rest =>
      cases h
      refine ⟨[b], rfl, rfl, Reads.byte b, ?_⟩
      intro p begun missing hsplit hne
      cases begun with
      | nil => exact ⟨_, _, rfl, rfl⟩
      | cons d begun =>
          have hnil := (List.cons.inj hsplit).2
          exact absurd (List.append_eq_nil_iff.mp hnil.symm).2 hne

/-- Both readings of a known length check it before they consume. -/
private theorem of_length {x : Read α} {n : Nat} (g : List UInt8 → α)
    (hx : ∀ r, x r =
      if r.rest.length < n then .error (.unexpectedEnd r.position n r.rest.length) r
      else .ok (g (r.rest.take n)) ⟨r.position + n, r.rest.drop n⟩)
    (hreads : ∀ u : List UInt8, u.length = n → Reads x u (g u)) : Delimited x := by
  intro r r' a h
  rw [hx] at h
  split at h
  · cases h
  · next hle =>
      cases h
      have hlength : (r.rest.take n).length = n := by
        rw [List.length_take]
        omega
      refine ⟨r.rest.take n, (List.take_append_drop n r.rest).symm, by rw [hlength],
        hreads _ hlength, ?_⟩
      intro p begun missing hsplit hne
      have hpos : 0 < missing.length := List.length_pos_iff.mpr hne
      have hsum : (r.rest.take n).length = begun.length + missing.length := by
        rw [hsplit, List.length_append]
      have hlt : begun.length < n := by omega
      exact ⟨.unexpectedEnd p n begun.length, ⟨p, begun⟩, by rw [hx, if_pos hlt], rfl⟩

theorem bytes (n : Nat) : Delimited (Read.bytes n) :=
  of_length id (bytes_eq n) fun _ h => Reads.bytes h

theorem skip (n : Nat) : Delimited (Read.skip n) :=
  of_length (fun _ => ()) (skip_eq n) fun _ h => Reads.skip h

end Delimited

end Read
end PackedRecord
