import Timetable.Proofs.FieldTexts
import Timetable.Schedule

namespace Timetable

/-- The digits that write a number. -/
def Digits.ofWord (n : UInt64) : Digits :=
  ⟨decimalDigits n.toNat, decimalDigits_ne_nil _, fun _ => isDigit_of_mem_decimalDigits⟩

@[simp] theorem Digits.value_ofWord (n : UInt64) : (ofWord n).value = n.toNat :=
  decimalValue_decimalDigits n.toNat

namespace Clause

def headForm (c : Clause) : ClauseHead :=
  match c.first, c.last with
  | none, _ => .wildcard
  | some first, none => .number (.ofWord first)
  | some first, some last => .range (.ofWord first) (.ofWord last)

/-- The derivation of the text that a clause is written as. -/
def form (c : Clause) : ClauseForm := ⟨c.headForm, c.step.map .ofWord⟩

theorem written_form (c : Clause) : c.form.written = c.written := by
  obtain ⟨_ | first, _ | last, _ | step⟩ := c <;> rfl

theorem fits_form (c : Clause) : c.form.Fits := by
  have hword (n : UInt64) : (Digits.ofWord n).value < UInt64.size := by
    rw [Digits.value_ofWord]
    exact n.toNat_lt_size
  obtain ⟨first, last, step⟩ := c
  refine List.forall_mem_append.mpr ⟨?_, ?_⟩
  · rcases first with _ | first
    · exact List.forall_mem_nil _
    · rcases last with _ | last
      · exact List.forall_mem_singleton.mpr (hword first)
      · exact List.forall_mem_cons.mpr ⟨hword first, List.forall_mem_singleton.mpr (hword last)⟩
  · rcases step with _ | step
    · exact List.forall_mem_nil _
    · exact List.forall_mem_singleton.mpr (hword step)

theorem Expressible.clause_form {c : Clause} (h : c.Expressible) : c.form.clause = c := by
  obtain ⟨_ | first, _ | last, _ | step⟩ := c <;>
    simp_all [form, headForm, ClauseForm.clause, Expressible]

end Clause

/-- The clauses of a field as a pattern writes them. -/
def clausesWritten (cs : List Clause) : List Char := [','].intercalate (cs.map Clause.written)

/-- The derivation of the text that clauses are written as. Without any clause there is no text. -/
def FieldForm.ofClauses : List Clause → FieldForm
  | [] => ⟨Clause.any.form, []⟩
  | c :: cs => ⟨c.form, cs.map Clause.form⟩

namespace FieldForm

variable {cs : List Clause}

theorem written_ofClauses (h : cs ≠ []) : (ofClauses cs).written = clausesWritten cs := by
  obtain ⟨c, cs, rfl⟩ := List.exists_cons_of_ne_nil h
  clear h
  show c.form.written ++ othersWritten (cs.map Clause.form) = _
  rw [Clause.written_form]
  induction cs generalizing c with
  | nil => simp [othersWritten, clausesWritten]
  | cons next cs ih =>
    have hnext : clausesWritten (c :: next :: cs) =
        c.written ++ ',' :: clausesWritten (next :: cs) := by
      simp [clausesWritten, List.intercalate_cons_cons]
    rw [hnext, ← ih next]
    simp [othersWritten, Clause.written_form]

theorem fits_ofClauses (cs : List Clause) : (ofClauses cs).Fits := by
  cases cs with
  | nil => exact List.forall_mem_cons.mpr ⟨Clause.any.fits_form, List.forall_mem_nil _⟩
  | cons c cs =>
    exact List.forall_mem_cons.mpr ⟨c.fits_form, List.forall_mem_map.mpr fun c _ => c.fits_form⟩

theorem clauses_ofClauses (h : cs ≠ []) (hcs : ∀ c ∈ cs, c.Expressible) :
    (ofClauses cs).clauses = cs := by
  obtain ⟨c, cs, rfl⟩ := List.exists_cons_of_ne_nil h
  show List.map ClauseForm.clause (List.map Clause.form (c :: cs)) = c :: cs
  rw [List.map_map]
  exact (List.map_congr_left fun c hc => (hcs c hc).clause_form).trans (List.map_id _)

end FieldForm

namespace Pattern

variable {p : Pattern}

/-- The lists of a pattern, none of them left out. -/
def fullLayout (p : Pattern) : Layout (List Clause) :=
  ⟨some (p.year, p.month, p.day), some p.weekday, p.hour, p.minute, p.second, some p.millisecond⟩

theorem parts_fullLayout (p : Pattern) :
    p.fullLayout.parts = Field.all.map fun f => (f, p.get f) := rfl

/-- The pattern as `year.month.day weekday hour:minute:second.millisecond`. -/
def written (p : Pattern) : List Char := (p.fullLayout.map clausesWritten).written

def text (p : Pattern) : String := String.ofList p.written

/-- Whether a text can say the pattern, be it valid or not. -/
structure Expressible (p : Pattern) : Prop where
  ne_nil : ∀ f, p.get f ≠ []
  clauses : ∀ f, ∀ c ∈ p.get f, c.Expressible

/-- The derivation of the text that a pattern is written as. -/
def form (p : Pattern) : PatternForm := p.fullLayout.map FieldForm.ofClauses

theorem parts_form (p : Pattern) :
    p.form.parts = Field.all.map fun f => (f, .ofClauses (p.get f)) := rfl

namespace Expressible

theorem written_form (h : p.Expressible) : p.form.written = p.written := by
  unfold PatternForm.written form written
  rw [Layout.map_map]
  congr 1
  apply Layout.map_congr
  intro part hpart
  rw [parts_fullLayout] at hpart
  obtain ⟨f, -, rfl⟩ := List.mem_map.mp hpart
  exact FieldForm.written_ofClauses (h.ne_nil f)

theorem clauses_ofClauses (h : p.Expressible) (f : Field) :
    (FieldForm.ofClauses (p.get f)).clauses = p.get f :=
  FieldForm.clauses_ofClauses (h.ne_nil f) (h.clauses f)

theorem valid_ofClauses_iff (h : p.Expressible) {f : Field} :
    (FieldForm.ofClauses (p.get f)).Valid f ↔ violation? f (p.get f) = none := by
  constructor
  · intro hvalid
    rw [← h.clauses_ofClauses f]
    exact hvalid.violation_eq
  · intro hv
    rw [← h.clauses_ofClauses f] at hv
    exact ⟨FieldForm.fits_ofClauses _, hv⟩

theorem means_form (h : p.Expressible) : p.form.Means p where
  written := by
    rw [parts_form, List.forall_mem_map]
    exact fun f _ => (h.clauses_ofClauses f).symm
  date := fun he => nomatch he
  weekday := fun he => nomatch he
  millisecond := fun he => nomatch he

theorem readPattern_of_fault?_eq_none (h : p.Expressible) (hfault : p.fault? = none) :
    readPattern p.written = .ok p := by
  rw [← h.written_form, PatternForm.readPattern_eq_ok_iff]
  refine ⟨?_, h.means_form⟩
  rw [PatternForm.Valid, parts_form, List.forall_mem_map]
  intro f hf
  have hf := List.findSome?_eq_none_iff.mp hfault f hf
  exact h.valid_ofClauses_iff.mpr (Option.map_eq_none_iff.mp hf)

theorem readPattern_of_fault?_eq_some (h : p.Expressible) {fault : Fault}
    (hfault : p.fault? = some fault) :
    ∃ span, readPattern p.written = .error ⟨fault, span⟩ := by
  obtain ⟨before, f, after, hall, hf, hbefore⟩ := List.findSome?_eq_some_iff.mp hfault
  obtain ⟨v, hv, rfl⟩ := Option.map_eq_some_iff.mp hf
  have hparts := p.parts_form
  rw [hall, List.map_append, List.map_cons] at hparts
  rw [← h.clauses_ofClauses f] at hv
  obtain ⟨span, he⟩ := fieldClauses_eq_error (FieldForm.fits_ofClauses _) hv
  rw [← readField_written] at he
  rw [← h.written_form]
  refine ⟨_, PatternForm.readPattern_eq_error hparts ?_ he⟩
  -- Nothing is wrong with the fields before the first that is at fault.
  rw [List.forall_mem_map]
  intro earlier hearlier
  have hnone := Option.map_eq_none_iff.mp (hbefore earlier hearlier)
  exact ⟨_, readField_written_eq_ok_iff.mpr ⟨h.valid_ofClauses_iff.mpr hnone, rfl⟩⟩

end Expressible

end Pattern

/-- A pattern that a text can say is read back from its text. If it is not valid, what is read is
the very fault. -/
theorem pattern_text_round_trip {p : Pattern} (h : p.Expressible) :
    (p.validate = .ok () → Pattern.ofText p.text = .ok p ∧
      ∃ s, Schedule.ofText p.text = .ok s ∧ p.allowance = .ok s.allowance) ∧
    (∀ d, p.validate = .error d →
      ∃ d', Pattern.ofText p.text = .error d' ∧ d'.fault = d.fault) := by
  have htext : p.text.toList = p.written := String.toList_ofList
  cases hfault : p.fault? with
  | none =>
    have hok : Pattern.ofText p.text = .ok p := by
      rw [Pattern.ofText, mapError_eq_ok, htext]
      exact h.readPattern_of_fault?_eq_none hfault
    have hvalidate : p.validate = .ok () := by
      rw [Pattern.validate, hfault]
    refine ⟨fun _ => ⟨hok, ⟨p.text, p, p.merge⟩, ?_, ?_⟩, fun d hd => ?_⟩
    · exact Schedule.ofText_eq_ok_iff.mpr ⟨hok, rfl, rfl⟩
    · rw [Pattern.allowance, hvalidate]
      rfl
    · cases hvalidate.symm.trans hd
  | some fault =>
    have hvalidate : p.validate = .error ⟨fault, .validate, .textless, ⟨0, 0⟩⟩ := by
      rw [Pattern.validate, hfault]
    refine ⟨fun hok => ?_, fun d hd => ?_⟩
    · cases hvalidate.symm.trans hok
    · cases hvalidate.symm.trans hd
      obtain ⟨span, he⟩ := h.readPattern_of_fault?_eq_some hfault
      refine ⟨Finding.diagnostic p.text ⟨fault, span⟩, ?_, rfl⟩
      rw [Pattern.ofText, htext, he]
      rfl

/-- Every five minutes of the working hours. -/
def workingHours : Pattern :=
  ⟨[.any], [.any], [.any], [.range 1 5], [.range 8 11, .range 13 17], [.every 5], [.point 0],
    [.point 0]⟩

/-- Faulty in its hours, in its minutes and in its seconds. -/
def faultyTime : Pattern :=
  { workingHours with
    hour := [.point 8, .every 0]
    minute := [.any, .point 61]
    second := [.point 60] }

theorem pattern_text_round_trip_workingHours :
    Pattern.ofText workingHours.text = .ok workingHours ∧
      ∃ d, Pattern.ofText faultyTime.text = .error d ∧ d.fault = .zeroStep .hour := by
  have hworking : workingHours.Expressible :=
    ⟨fun f => by cases f <;> decide, fun f => by cases f <;> unfold Clause.Expressible <;> decide⟩
  have hfaulty : faultyTime.Expressible :=
    ⟨fun f => by cases f <;> decide, fun f => by cases f <;> unfold Clause.Expressible <;> decide⟩
  obtain ⟨hread, -⟩ := (pattern_text_round_trip hworking).1 rfl
  exact ⟨hread, (pattern_text_round_trip hfaulty).2 _ rfl⟩

end Timetable
