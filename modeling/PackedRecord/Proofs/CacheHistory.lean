import Mathlib.Data.Finset.Card
import PackedRecord.Format.Cache

/-!
# What a cache has been asked for

A cache answers as parsing does, whatever it was asked for before. What it
remembers is a function of its history: the texts that have a format among
those asked for since it was last cleared (`FormatCache.requested`).
`FormatCache.Remembers` is the invariant that ties a cache to these texts; a
call keeps it (`Remembers.step`), so a run does (`Remembers.run`), and the
counters can be read off it.

Two answers are one object if the same entry gave both. Entries stay until
the cache is cleared (`lookup_run`), and serial numbers grow along the
entries and go on growing after them, so that entries from either side of a
clearing never share one (`Since.run`).
-/

namespace PackedRecord

namespace FormatCache

/-! ## Histories -/

/-- What a cache is called for. -/
inductive Call where
  | get (text : String)
  | clear
deriving DecidableEq

def step (cache : FormatCache) : Call → FormatCache
  | .get text => (cache.get text).2
  | .clear => cache.clear

def run (cache : FormatCache) (calls : List Call) : FormatCache := calls.foldl step cache

/-- The texts remembered after a call, given those before it. A text counts as
often as it was asked for, unless it has no format. -/
def Call.note (texts : List String) : Call → List String
  | .get text =>
    match Format.parse text with
    | .ok _ => text :: texts
    | .error _ => texts
  | .clear => []

/-- The texts with a format that were asked for since the last clearing. -/
def requested (calls : List Call) : List String := calls.foldl Call.note []

/-! ## One call -/

theorem get_cases (cache : FormatCache) (text : String) :
    (∃ shared, cache.entries.lookup text = some shared
        ∧ cache.get text = (.ok shared, { cache with hits := cache.hits + 1 }))
      ∨ (∃ err, Format.parse text = .error err ∧ cache.entries.lookup text = none
        ∧ cache.get text = (.error err, cache))
      ∨ ∃ format, Format.parse text = .ok format ∧ cache.entries.lookup text = none
        ∧ cache.get text = (.ok ⟨cache.nextSerial, format⟩,
          ⟨(text, ⟨cache.nextSerial, format⟩) :: cache.entries, cache.hits, cache.misses + 1,
            cache.nextSerial + 1⟩) := by
  unfold get
  cases hlookup : cache.entries.lookup text with
  | some shared => exact Or.inl ⟨shared, rfl, rfl⟩
  | none =>
      cases hparse : Format.parse text with
      | error err => exact Or.inr (Or.inl ⟨err, rfl, rfl, rfl⟩)
      | ok format => exact Or.inr (Or.inr ⟨format, rfl, rfl, rfl⟩)

/-- A text without a format leaves no trace. -/
theorem get_of_error {cache : FormatCache} {text : String} {err : Error}
    (h : (cache.get text).1 = .error err) : (cache.get text).2 = cache := by
  rcases cache.get_cases text with ⟨shared, -, hget⟩ | ⟨err', -, -, hget⟩ |
    ⟨format, -, -, hget⟩
  · rw [hget] at h
    cases h
  · rw [hget]
  · rw [hget] at h
    cases h

theorem mem_of_lookup {entries : List (String × SharedFormat)} {text : String}
    {shared : SharedFormat} (h : entries.lookup text = some shared) : (text, shared) ∈ entries := by
  obtain ⟨before, after, rfl, -⟩ := List.lookup_eq_some_iff.mp h
  exact List.mem_append_right _ List.mem_cons_self

theorem not_mem_of_lookup {entries : List (String × SharedFormat)} {text : String}
    (h : entries.lookup text = none) : text ∉ entries.map Prod.fst := by
  intro hmem
  obtain ⟨entry, hentry, rfl⟩ := List.mem_map.mp hmem
  have hne := List.lookup_eq_none_iff.mp h entry hentry
  simp at hne

/-! ## The invariant -/

/-- The cache remembers just these texts, each with its format. -/
structure Remembers (texts : List String) (cache : FormatCache) : Prop where
  nodup : (cache.entries.map Prod.fst).Nodup
  mem_iff : ∀ text, text ∈ cache.entries.map Prod.fst ↔ text ∈ texts
  parsed : ∀ entry ∈ cache.entries, Format.parse entry.1 = .ok entry.2.format
  misses : cache.misses = cache.entries.length
  total : cache.hits + cache.misses = texts.length

namespace Remembers

variable {texts : List String} {cache : FormatCache}

theorem empty : Remembers [] FormatCache.empty := by
  refine ⟨List.nodup_nil, fun text => Iff.rfl, ?_, rfl, rfl⟩
  rintro entry ⟨⟩

/-- Whether it hits or misses, a cache answers as parsing does. -/
theorem get_eq_parse (h : Remembers texts cache) (text : String) :
    (cache.get text).1.map SharedFormat.format = Format.parse text := by
  rcases cache.get_cases text with ⟨shared, hlookup, hget⟩ | ⟨err, hparse, -, hget⟩ |
    ⟨format, hparse, -, hget⟩
  · rw [hget, h.parsed _ (mem_of_lookup hlookup)]
    rfl
  · rw [hget, hparse]
    rfl
  · rw [hget, hparse]
    rfl

theorem step (h : Remembers texts cache) (call : Call) :
    Remembers (call.note texts) (cache.step call) := by
  cases call with
  | clear =>
      refine ⟨List.nodup_nil, fun text => Iff.rfl, ?_, rfl, rfl⟩
      rintro entry ⟨⟩
  | get text =>
      rcases cache.get_cases text with ⟨shared, hlookup, hget⟩ | ⟨err, hparse, -, hget⟩ |
        ⟨format, hparse, hlookup, hget⟩
      · have hmem := mem_of_lookup hlookup
        have htext : text ∈ texts := (h.mem_iff text).mp (List.mem_map_of_mem hmem)
        have htotal := h.total
        rw [FormatCache.step, hget, Call.note, h.parsed _ hmem]
        refine ⟨h.nodup, fun other => ?_, h.parsed, h.misses, ?_⟩
        · rw [List.mem_cons]
          refine (h.mem_iff other).trans ⟨Or.inr, ?_⟩
          rintro (rfl | hother)
          · exact htext
          · exact hother
        · show cache.hits + 1 + cache.misses = texts.length + 1
          omega
      · rw [FormatCache.step, hget, Call.note, hparse]
        exact h
      · have hmisses := h.misses
        have htotal := h.total
        rw [FormatCache.step, hget, Call.note, hparse]
        refine ⟨?_, fun other => ?_, ?_, ?_, ?_⟩
        · rw [List.map_cons, List.nodup_cons]
          exact ⟨not_mem_of_lookup hlookup, h.nodup⟩
        · rw [List.map_cons, List.mem_cons, List.mem_cons, h.mem_iff]
        · intro entry hentry
          rcases List.mem_cons.mp hentry with rfl | hentry
          · exact hparse
          · exact h.parsed entry hentry
        · show cache.misses + 1 = cache.entries.length + 1
          omega
        · show cache.hits + (cache.misses + 1) = texts.length + 1
          omega

theorem run (h : Remembers texts cache) (calls : List Call) :
    Remembers (calls.foldl Call.note texts) (cache.run calls) := by
  induction calls generalizing texts cache with
  | nil => exact h
  | cons call calls ih => exact ih (h.step call)

/-- Each distinct text has one entry. -/
theorem length_entries (h : Remembers texts cache) :
    cache.entries.length = texts.toFinset.card := by
  have hsame : (cache.entries.map Prod.fst).toFinset = texts.toFinset := by
    ext text
    rw [List.mem_toFinset, List.mem_toFinset, h.mem_iff]
  rw [← hsame, List.toFinset_card_of_nodup h.nodup, List.length_map]

end Remembers

/-! ## Identity -/

/-- The entries have serial numbers from `floor` on, no two of them the same,
and further numbers are there to come. -/
structure Since (floor : Nat) (cache : FormatCache) : Prop where
  le_next : floor ≤ cache.nextSerial
  le_serial : ∀ entry ∈ cache.entries, floor ≤ entry.2.serial
  serial_lt : ∀ entry ∈ cache.entries, entry.2.serial < cache.nextSerial
  distinct : (cache.entries.map fun entry => entry.2.serial).Nodup

namespace Since

variable {floor : Nat} {cache : FormatCache}

theorem empty : Since 0 FormatCache.empty := by
  refine ⟨Nat.zero_le _, ?_, ?_, List.nodup_nil⟩
  all_goals rintro entry ⟨⟩

/-- A cleared cache goes on with numbers not given out yet. -/
theorem clear (cache : FormatCache) : Since cache.nextSerial cache.clear := by
  refine ⟨Nat.le_refl _, ?_, ?_, List.nodup_nil⟩
  all_goals rintro entry ⟨⟩

theorem step (h : Since floor cache) (call : Call) : Since floor (cache.step call) := by
  cases call with
  | clear =>
      refine ⟨h.le_next, ?_, ?_, List.nodup_nil⟩
      all_goals rintro entry ⟨⟩
  | get text =>
      rcases cache.get_cases text with ⟨shared, -, hget⟩ | ⟨err, -, -, hget⟩ |
        ⟨format, -, -, hget⟩
      · rw [FormatCache.step, hget]
        exact ⟨h.le_next, h.le_serial, h.serial_lt, h.distinct⟩
      · rw [FormatCache.step, hget]
        exact h
      · rw [FormatCache.step, hget]
        refine ⟨Nat.le_succ_of_le h.le_next, ?_, ?_, ?_⟩
        · intro entry hentry
          rcases List.mem_cons.mp hentry with rfl | hentry
          · exact h.le_next
          · exact h.le_serial entry hentry
        · intro entry hentry
          rcases List.mem_cons.mp hentry with rfl | hentry
          · exact Nat.lt_succ_self _
          · exact Nat.lt_succ_of_lt (h.serial_lt entry hentry)
        · rw [List.map_cons, List.nodup_cons]
          refine ⟨fun hmem => ?_, h.distinct⟩
          obtain ⟨entry, hentry, hserial⟩ := List.mem_map.mp hmem
          exact Nat.ne_of_lt (h.serial_lt entry hentry) hserial

theorem run (h : Since floor cache) (calls : List Call) : Since floor (cache.run calls) := by
  induction calls generalizing cache with
  | nil => exact h
  | cons call calls ih => exact ih (h.step call)

/-- Two texts that have entries with one serial number are the same text. -/
theorem text_eq (h : Since floor cache) {a b : String} {s t : SharedFormat}
    (ha : (a, s) ∈ cache.entries) (hb : (b, t) ∈ cache.entries) (hserial : s.serial = t.serial) :
    a = b :=
  congrArg Prod.fst (List.inj_on_of_nodup_map h.distinct ha hb hserial)

end Since

/-- What a cache hands out, it remembers. -/
theorem lookup_get {cache : FormatCache} {text : String} {shared : SharedFormat}
    (h : (cache.get text).1 = .ok shared) :
    (cache.get text).2.entries.lookup text = some shared := by
  rcases cache.get_cases text with ⟨found, hlookup, hget⟩ | ⟨err, -, -, hget⟩ |
    ⟨format, -, -, hget⟩
  · rw [hget] at h ⊢
    cases h
    exact hlookup
  · rw [hget] at h
    cases h
  · rw [hget] at h ⊢
    cases h
    exact List.lookup_cons_self

/-- An entry stays until the cache is cleared. -/
theorem lookup_step {cache : FormatCache} {text : String} {shared : SharedFormat}
    (h : cache.entries.lookup text = some shared) {call : Call} (hkeep : call ≠ .clear) :
    (cache.step call).entries.lookup text = some shared := by
  cases call with
  | clear => exact absurd rfl hkeep
  | get other =>
      rcases cache.get_cases other with ⟨found, -, hget⟩ | ⟨err, -, -, hget⟩ |
        ⟨format, -, hlookup, hget⟩
      · rw [step, hget]
        exact h
      · rw [step, hget]
        exact h
      · have hne : text ≠ other := by
          rintro rfl
          rw [hlookup] at h
          cases h
        rw [step, hget]
        show List.lookup text ((other, _) :: cache.entries) = some shared
        rw [List.lookup_cons, beq_eq_false_iff_ne.mpr hne]
        exact h

theorem lookup_run {cache : FormatCache} {text : String} {shared : SharedFormat}
    (h : cache.entries.lookup text = some shared) {calls : List Call}
    (hkeep : Call.clear ∉ calls) : (cache.run calls).entries.lookup text = some shared := by
  induction calls generalizing cache with
  | nil => exact h
  | cons call calls ih =>
      have hcall : call ≠ .clear := fun heq => hkeep (heq ▸ List.mem_cons_self)
      exact ih (lookup_step h hcall) fun hmem => hkeep (List.mem_cons_of_mem _ hmem)

theorem nextSerial_le_step (cache : FormatCache) (call : Call) :
    cache.nextSerial ≤ (cache.step call).nextSerial := by
  cases call with
  | clear => exact Nat.le_refl _
  | get text =>
      rcases cache.get_cases text with ⟨shared, -, hget⟩ | ⟨err, -, -, hget⟩ |
        ⟨format, -, -, hget⟩
      · rw [step, hget]
      · rw [step, hget]
      · rw [step, hget]
        exact Nat.le_succ _

theorem nextSerial_le_run (cache : FormatCache) (calls : List Call) :
    cache.nextSerial ≤ (cache.run calls).nextSerial := by
  induction calls generalizing cache with
  | nil => exact Nat.le_refl _
  | cons call calls ih => exact (cache.nextSerial_le_step call).trans (ih (cache.step call))

/-- What is handed out after a clearing is none of what was remembered before. -/
theorem serial_lt_of_cleared {floor : Nat} {cache : FormatCache} (h : Since floor cache)
    {a b : String} {s t : SharedFormat} (hs : cache.entries.lookup a = some s)
    {calls : List Call} (hclear : Call.clear ∈ calls)
    (ht : ((cache.run calls).get b).1 = .ok t) : s.serial < t.serial := by
  obtain ⟨before, after, rfl⟩ := List.append_of_mem hclear
  have hsplit : cache.run (before ++ .clear :: after) = (cache.run before).clear.run after :=
    List.foldl_append
  rw [hsplit] at ht
  have hlater := ((Since.clear (cache.run before)).run after).step (.get b)
  have hold : s.serial < cache.nextSerial := h.serial_lt _ (mem_of_lookup hs)
  have hnew : (cache.run before).nextSerial ≤ t.serial :=
    hlater.le_serial _ (mem_of_lookup (lookup_get ht))
  exact hold.trans_le ((cache.nextSerial_le_run before).trans hnew)

/-- Two texts get one object if they are the same and nothing is cleared in between. -/
theorem serial_eq_iff {floor : Nat} {cache : FormatCache} (h : Since floor cache) {a b : String}
    {s t : SharedFormat} {between : List Call} (hs : (cache.get a).1 = .ok s)
    (ht : (((cache.get a).2.run between).get b).1 = .ok t) :
    s.serial = t.serial ↔ a = b ∧ Call.clear ∉ between := by
  have hfirst : Since floor (cache.get a).2 := h.step (.get a)
  have hkept := lookup_get hs
  constructor
  · intro hserial
    have hclear : Call.clear ∉ between := fun hmem =>
      Nat.ne_of_lt (serial_lt_of_cleared hfirst hkept hmem ht) hserial
    have hstill : (((cache.get a).2.run between).step (.get b)).entries.lookup a = some s :=
      lookup_step (lookup_run hkept hclear) (by simp)
    have hlast := (hfirst.run between).step (.get b)
    exact ⟨hlast.text_eq (mem_of_lookup hstill) (mem_of_lookup (lookup_get ht)) hserial, hclear⟩
  · rintro ⟨rfl, hclear⟩
    have hstill : (((cache.get a).2.run between).step (.get a)).entries.lookup a = some s :=
      lookup_step (lookup_run hkept hclear) (by simp)
    rw [step, lookup_get ht] at hstill
    cases hstill
    rfl

/-! ## Whole runs -/

/-- At every point of a run a cache answers as parsing does, changes nothing
where that fails, hands out one object for one text until it is cleared, and
has counted the answers and the distinct texts since then. -/
theorem run_answers_and_counts (calls : List Call) :
    (∀ text, ((empty.run calls).get text).1.map SharedFormat.format = Format.parse text
        ∧ ∀ err, ((empty.run calls).get text).1 = .error err →
          ((empty.run calls).get text).2 = empty.run calls)
      ∧ (∀ a b between s t, ((empty.run calls).get a).1 = .ok s →
        ((((empty.run calls).get a).2.run between).get b).1 = .ok t →
        (s.serial = t.serial ↔ a = b ∧ Call.clear ∉ between))
      ∧ (empty.run calls).hits + (empty.run calls).misses = (requested calls).length
      ∧ (empty.run calls).misses = (empty.run calls).size
      ∧ (empty.run calls).size = (requested calls).toFinset.card
      ∧ ((empty.run calls).isEmpty = true ↔ (requested calls).toFinset.card = 0) := by
  have hremembers := Remembers.empty.run calls
  have hsize : (empty.run calls).size = (requested calls).toFinset.card :=
    hremembers.length_entries
  refine ⟨fun text => ⟨hremembers.get_eq_parse text, fun err herr => get_of_error herr⟩,
    fun a b between s t hs ht => serial_eq_iff (Since.empty.run calls) hs ht,
    hremembers.total, hremembers.misses, hsize, ?_⟩
  rw [← hsize, isEmpty, List.isEmpty_iff, size, List.length_eq_zero_iff]

/-- A text that spells no format, and one that is parsed again after a clearing. -/
theorem run_answers_and_counts_sample :
    ((empty.run [.get "b"]).get "q").1 = .error (.unknownOpcode 'q' 0)
      ∧ ((empty.run [.get "b"]).get "q").2 = empty.run [.get "b"]
      ∧ ((empty.run [.get "b"]).get "b").1 = .ok ⟨0, ⟨[.bool]⟩⟩
      ∧ ((((empty.run [.get "b"]).get "b").2.run [.get "z", .clear]).get "b").1
        = .ok ⟨2, ⟨[.bool]⟩⟩
      ∧ ((0 : Nat) = 2 ↔ "b" = "b" ∧ Call.clear ∉ [.get "z", .clear]) := by
  have herr : ((empty.run [.get "b"]).get "q").1 = .error (.unknownOpcode 'q' 0) := by
    decide +kernel
  have hfirst : ((empty.run [.get "b"]).get "b").1 = .ok ⟨0, ⟨[.bool]⟩⟩ := by decide +kernel
  have hsecond : ((((empty.run [.get "b"]).get "b").2.run [.get "z", .clear]).get "b").1
      = .ok ⟨2, ⟨[.bool]⟩⟩ := by decide +kernel
  obtain ⟨hanswers, hidentity, -⟩ := run_answers_and_counts [.get "b"]
  exact ⟨herr, (hanswers "q").2 _ herr, hfirst, hsecond, hidentity _ _ _ _ _ hfirst hsecond⟩

end FormatCache
end PackedRecord
