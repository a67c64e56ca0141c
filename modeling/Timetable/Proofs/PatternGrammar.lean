import Mathlib.Logic.Function.Basic
import Timetable.Proofs.FieldClauses

namespace Timetable

namespace Reader

variable {α : Type} {p : Reader α} {text : List Char}

theorem run_eq_ok {a : α} {d : Cursor} (h : (p ⟨0, text⟩).result = some (a, d)) :
    p.run text = .ok a := by
  simp only [run, h]

theorem run_eq_error (h : (p ⟨0, text⟩).result = none) :
    ∃ expected found span, p.run text = .error ⟨.unexpected expected found, span⟩ := by
  simp only [run, h]
  exact ⟨_, _, _, rfl⟩

theorem passes_all (text : List Char) : Cursor.Passes ⟨0, text⟩ text ⟨text.length, []⟩ :=
  ⟨(List.append_nil text).symm, (Nat.zero_add _).symm⟩

theorem run_layout (l : PatternForm) : layout.run l.written = .ok (l.terms 0) :=
  run_eq_ok (layout_eq_some (passes_all l.written) rfl)

/-- A text that the grammar does not derive is not read. -/
theorem layout_eq_none (h : ∀ l : PatternForm, l.written ≠ text) :
    (layout ⟨0, text⟩).result = none := by
  cases hr : (layout ⟨0, text⟩).result with
  | none => rfl
  | some r =>
    obtain ⟨l, hpasses, hnil, -⟩ := layout_passes (r := r.1) (d := r.2) hr
    have hrest : text = l.written ++ r.2.rest := hpasses.rest_eq
    rw [hnil, List.append_nil] at hrest
    exact absurd hrest.symm (h l)

theorem run_layout_eq_error (h : ∀ l : PatternForm, l.written ≠ text) :
    ∃ expected found span, layout.run text = .error ⟨.unexpected expected found, span⟩ :=
  run_eq_error (layout_eq_none h)

theorem run_loneField (f : FieldForm) : loneField.run f.written = .ok (f.terms 0) := by
  refine run_eq_ok (d := ⟨f.written.length, []⟩) ?_
  rw [loneField, result_rule]
  refine bind_eq_some.mpr ⟨_, _, field_eq_some (passes_all f.written) endsField_nil, ?_⟩
  exact bind_eq_some.mpr ⟨(), _, rfl, rfl⟩

theorem run_loneField_eq_error (h : ∀ f : FieldForm, f.written ≠ text) :
    ∃ expected found span, loneField.run text = .error ⟨.unexpected expected found, span⟩ := by
  apply run_eq_error
  cases hr : (loneField ⟨0, text⟩).result with
  | none => rfl
  | some r =>
    rw [loneField, result_rule] at hr
    obtain ⟨ts, d, hfield, hr⟩ := bind_eq_some.mp hr
    obtain ⟨⟨⟩, e, hend, -⟩ := bind_eq_some.mp hr
    obtain ⟨f, hpasses, -⟩ := field_passes hfield
    have hnil := (endOfText_eq_some.mp hend).1
    have hrest : text = f.written ++ d.rest := hpasses.rest_eq
    rw [hnil, List.append_nil] at hrest
    exact absurd hrest.symm (h f)

end Reader

theorem ClauseHead.reading_injective {h h' : ClauseHead} {offset : Nat}
    (he : h.reading offset = h'.reading offset) : h = h' := by
  cases h <;> cases h' <;> simp only [reading, Digits.numeral, Option.some.injEq, Prod.mk.injEq,
    Numeral.mk.injEq, reduceCtorEq, and_false, true_and, and_true] at he
  case wildcard.wildcard => rfl
  case number.number => rw [Digits.ext_chars he]
  case range.range => rw [Digits.ext_chars he.1, Digits.ext_chars he.2.2]

theorem ClauseForm.term_injective {c c' : ClauseForm} {offset : Nat}
    (he : c.term offset = c'.term offset) : c = c' := by
  obtain ⟨head, step⟩ := c
  obtain ⟨head', step'⟩ := c'
  obtain ⟨hrange, hstep, -, -⟩ := Term.mk.inj he
  cases ClauseHead.reading_injective hrange
  rcases step with _ | step <;> rcases step' with _ | step'
  · rfl
  · cases hstep
  · cases hstep
  · obtain ⟨-, hchars⟩ := Numeral.mk.inj (Option.some.inj hstep)
    rw [Digits.ext_chars hchars]

theorem FieldForm.othersTerms_injective {fs fs' : List ClauseForm} {offset : Nat}
    (he : othersTerms fs offset = othersTerms fs' offset) : fs = fs' := by
  induction fs generalizing fs' offset with
  | nil =>
    cases fs' with
    | nil => rfl
    | cons c' fs' => cases he
  | cons c fs ih =>
    cases fs' with
    | nil => cases he
    | cons c' fs' =>
      obtain ⟨hfirst, hrest⟩ := List.cons.inj he
      cases ClauseForm.term_injective hfirst
      rw [ih hrest]

/-- A field has one derivation. -/
theorem FieldForm.written_injective : Function.Injective FieldForm.written := by
  intro f f' h
  -- Both are what the one text is read as.
  have hread := Reader.run_loneField f
  rw [h, Reader.run_loneField] at hread
  obtain ⟨hfirst, hothers⟩ := List.cons.inj (Except.ok.inj hread)
  obtain ⟨first, others⟩ := f
  obtain ⟨first', others'⟩ := f'
  cases ClauseForm.term_injective hfirst
  cases FieldForm.othersTerms_injective hothers
  rfl

theorem Layout.map_injective {α β : Type} {g : α → β} (hg : Function.Injective g) :
    Function.Injective (Layout.map g) := by
  rintro ⟨date, weekday, hour, minute, second, millisecond⟩
    ⟨date', weekday', hour', minute', second', millisecond'⟩ h
  obtain ⟨hdate, hweekday, hhour, hminute, hsecond, hmillisecond⟩ := Layout.mk.inj h
  have hdate : date = date' := by
    refine Option.map_injective ?_ hdate
    rintro ⟨y, m, d⟩ ⟨y', m', d'⟩ h
    simp only [Prod.mk.injEq] at h
    rw [hg h.1, hg h.2.1, hg h.2.2]
  rw [Layout.mk.injEq]
  exact ⟨hdate, Option.map_injective hg hweekday, hg hhour, hg hminute, hg hsecond,
    Option.map_injective hg hmillisecond⟩

namespace PatternForm

theorem separable (l : PatternForm) : (l.map FieldForm.written).Separable := by
  intro part hpart
  rw [Layout.parts_map] at hpart
  obtain ⟨⟨f, a⟩, -, rfl⟩ := List.mem_map.mp hpart
  exact a.unseparated

/-- The grammar is unambiguous. -/
theorem written_injective : Function.Injective PatternForm.written := by
  intro l l' h
  exact Layout.map_injective FieldForm.written_injective
    (Layout.written_inj l.separable l'.separable h)

end PatternForm

/-- Reading a derived pattern is reading its fields where they stand. -/
theorem readPattern_written (l : PatternForm) :
    readPattern l.written = Layout.pattern <$>
      (l.placed FieldForm.written 0).traverse fun f a => fieldClauses f (a.2.terms a.1) := by
  unfold readPattern
  rw [Reader.run_layout, PatternForm.terms, ← Layout.traverse_map, map_eq_pure_bind]
  rfl

namespace PatternForm

/-- Whether each field of the pattern is valid. -/
def Valid (l : PatternForm) : Prop := ∀ part ∈ l.parts, part.2.Valid part.1

theorem traverse_placed_eq_ok_iff {l : PatternForm} {m : Layout (List Clause)} :
    ((l.placed FieldForm.written 0).traverse fun f a => fieldClauses f (a.2.terms a.1)) = .ok m ↔
      l.Valid ∧ m = l.map FieldForm.clauses := by
  have hok (f : Field) (a : Nat × FieldForm) (cs : List Clause) :
      fieldClauses f (a.2.terms a.1) = .ok cs ↔ a.2.Valid f ∧ cs = a.2.clauses :=
    fieldClauses_eq_ok_iff
  rw [Layout.traverse_eq_ok_iff hok, ← Layout.map_map Prod.snd FieldForm.clauses,
    Layout.map_snd_placed]
  exact and_congr_left' (Layout.forall_mem_parts_placed (q := fun f a => FieldForm.Valid a f))

/-- Whether a pattern holds what the derived text says. What is left out allows everything, except
for the milliseconds, which are then 0. -/
structure Means (l : PatternForm) (p : Pattern) : Prop where
  written : ∀ part ∈ l.parts, p.get part.1 = part.2.clauses
  date : l.date = none → p.year = [.any] ∧ p.month = [.any] ∧ p.day = [.any]
  weekday : l.weekday = none → p.weekday = [.any]
  millisecond : l.millisecond = none → p.millisecond = [.point 0]

theorem means_iff {l : PatternForm} {p : Pattern} :
    l.Means p ↔ p = (l.map FieldForm.clauses).pattern := by
  obtain ⟨_ | ⟨year, month, day⟩, _ | weekday, hour, minute, second, _ | millisecond⟩ := l
  all_goals
    constructor
    · rintro ⟨hwritten, hdate, hweekday, hmillisecond⟩
      cases p
      simp_all [Layout.parts, Layout.pattern, Layout.map, ByField.get]
    · rintro rfl
      constructor <;> simp [Layout.parts, Layout.pattern, Layout.map, ByField.get]

/-- A derived text reads as what it says if it is valid, and otherwise as nothing. -/
theorem readPattern_eq_ok_iff {l : PatternForm} {p : Pattern} :
    readPattern l.written = .ok p ↔ l.Valid ∧ l.Means p := by
  rw [readPattern_written, except_map_eq_ok]
  simp only [traverse_placed_eq_ok_iff, means_iff]
  constructor
  · rintro ⟨m, ⟨hvalid, rfl⟩, rfl⟩
    exact ⟨hvalid, rfl⟩
  · rintro ⟨hvalid, rfl⟩
    exact ⟨_, ⟨hvalid, rfl⟩, rfl⟩

theorem exists_means (l : PatternForm) : ∃ p, l.Means p := ⟨_, means_iff.mpr rfl⟩

theorem readPattern_not_isSyntax {l : PatternForm} {e : Finding}
    (h : readPattern l.written = .error e) : ¬e.fault.IsSyntax := by
  rw [readPattern_written, except_map_eq_error] at h
  obtain ⟨part, -, he⟩ := Layout.exists_error_of_traverse h
  exact fieldClauses_not_isSyntax he

end PatternForm

theorem readPattern_eq_unexpected {text : List Char}
    (h : ∀ l : PatternForm, l.written ≠ text) :
    ∃ expected found span, readPattern text = .error ⟨.unexpected expected found, span⟩ := by
  obtain ⟨expected, found, span, he⟩ := Reader.run_layout_eq_error h
  refine ⟨expected, found, span, ?_⟩
  unfold readPattern
  rw [he]
  rfl

/-- What is read is what the derivation says, if there is one and it is valid. -/
theorem Pattern.ofText_eq_ok_iff {text : String} {p : Pattern} :
    Pattern.ofText text = .ok p ↔
      ∃ l : PatternForm, l.written = text.toList ∧ l.Valid ∧ l.Means p := by
  unfold Pattern.ofText
  rw [mapError_eq_ok]
  constructor
  · intro h
    by_cases hl : ∃ l : PatternForm, l.written = text.toList
    · obtain ⟨l, hl⟩ := hl
      rw [← hl, PatternForm.readPattern_eq_ok_iff] at h
      exact ⟨l, hl, h⟩
    · obtain ⟨_, _, _, he⟩ := readPattern_eq_unexpected (not_exists.mp hl)
      rw [he] at h
      cases h
  · rintro ⟨l, hl, h⟩
    rw [← hl, PatternForm.readPattern_eq_ok_iff]
    exact h

theorem Pattern.ofText_isSyntax_iff {text : String} :
    (∃ d, Pattern.ofText text = .error d ∧ d.fault.IsSyntax) ↔
      ¬∃ l : PatternForm, l.written = text.toList := by
  unfold Pattern.ofText
  simp only [mapError_eq_error]
  constructor
  · rintro ⟨_, ⟨e, he, rfl⟩, hsyntax⟩ ⟨l, hl⟩
    rw [← hl] at he
    exact PatternForm.readPattern_not_isSyntax he hsyntax
  · intro h
    obtain ⟨_, _, _, he⟩ := readPattern_eq_unexpected (not_exists.mp h)
    exact ⟨_, ⟨_, he, rfl⟩, trivial⟩

/-- Reading accepts the valid texts of the grammar and no others. Each text has at most one
derivation, which says what is read, and where it has none, that is the fault. -/
theorem pattern_grammar_exact (text : String) :
    ((∃ p, Pattern.ofText text = .ok p) ↔
      ∃ l : PatternForm, l.written = text.toList ∧ l.Valid) ∧
    (∀ p, Pattern.ofText text = .ok p ↔
      ∃ l : PatternForm, l.written = text.toList ∧ l.Valid ∧ l.Means p) ∧
    Function.Injective PatternForm.written ∧
    ((∃ d, Pattern.ofText text = .error d ∧ d.fault.IsSyntax) ↔
      ¬∃ l : PatternForm, l.written = text.toList) := by
  refine ⟨?_, fun p => Pattern.ofText_eq_ok_iff, PatternForm.written_injective,
    Pattern.ofText_isSyntax_iff⟩
  constructor
  · rintro ⟨p, hp⟩
    obtain ⟨l, hl, hvalid, -⟩ := Pattern.ofText_eq_ok_iff.mp hp
    exact ⟨l, hl, hvalid⟩
  · rintro ⟨l, hl, hvalid⟩
    obtain ⟨p, hp⟩ := l.exists_means
    exact ⟨p, Pattern.ofText_eq_ok_iff.mpr ⟨l, hl, hvalid, hp⟩⟩

end Timetable
