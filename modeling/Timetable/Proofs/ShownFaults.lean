import Mathlib.Control.Monad.Basic
import Timetable.Proofs.PartPlaces
import Timetable.Proofs.TextPlaces

namespace Timetable

/-- Whether a part of a text is a whole clause that the field refuses by itself, and why. -/
def ShowsClause (field : Field) (fault : Fault) (text before shown after : List Char) : Prop :=
  (∃ c : ClauseForm, c.written = shown) ∧ SetOff BoundsClause text before shown after ∧
    ∃ d, fieldOfText field (String.ofList shown) = .error d ∧ d.fault = fault

/-- Whether a part of a text has the fault: the character that does not belong there or the end of
the text, all digits of the number that is too large, the clause that breaks a rule by itself, or
the bare wildcard. Other faults are not found in texts. -/
def Fault.ShownBy (text before shown after : List Char) : Fault → Prop
  | .unexpected _ (some found) => shown = [found]
  | .unexpected _ none => shown = [] ∧ after = []
  | .numberTooLarge digits =>
    shown = digits ∧ digits ≠ [] ∧ (∀ c ∈ digits, c.isDigit = true) ∧
      SetOff BoundsNumber text before digits after ∧ UInt64.size ≤ decimalValue digits
  | .outOfBounds field value =>
    ShowsClause field (.outOfBounds field value) text before shown after
  | .zeroStep field => ShowsClause field (.zeroStep field) text before shown after
  | .reversedRange field first last =>
    ShowsClause field (.reversedRange field first last) text before shown after
  | .ambiguousWildcard _ => shown = ['*'] ∧ SetOff BoundsClause text before shown after
  | .missingFirst _ | .unsatisfiable .. => False

/-- Whether the place of a finding is a part of the text that has the fault. -/
def Finding.Shows (e : Finding) (text : List Char) : Prop :=
  ∃ before shown after, text = before ++ shown ++ after ∧
    e.span = ⟨byteCount before, byteCount shown⟩ ∧ e.fault.ShownBy text before shown after

/-- Whether the span of a diagnostic covers whole characters of the text, which are the snippet and
have the fault. -/
def Diagnostic.Shows (d : Diagnostic) (text : String) : Prop :=
  ∃ before shown after, text.toList = before ++ shown ++ after ∧
    d.span = ⟨byteCount before, byteCount shown⟩ ∧ d.snippet = String.ofList shown ∧
      d.fault.ShownBy text.toList before shown after

theorem Finding.Shows.diagnostic {e : Finding} {text : String} (h : e.Shows text.toList) :
    (e.diagnostic text).Shows text := by
  obtain ⟨before, shown, after, htext, hspan, hshown⟩ := h
  exact ⟨before, shown, after, htext, hspan, snippet_diagnostic htext hspan, hshown⟩

theorem Reader.Stays.shows {α : Type} {p : Reader α} (hp : p.Stays) {text : List Char}
    {e : Finding} (h : p.run text = .error e) : e.Shows text := by
  obtain ⟨expected, before, after, rfl, rfl⟩ := hp.run_eq_error h
  cases after with
  | nil => exact ⟨before, [], [], by simp, rfl, rfl, rfl⟩
  | cons found after => exact ⟨before, [found], after, by simp, rfl, rfl⟩

section Clause

variable {field : Field} {fault : Fault} {form : ClauseForm} {text before after : List Char}

theorem Clause.Breaks.violation?_singleton {c : Clause} (h : c.Breaks field fault) :
    violation? field [c] = some ⟨0, fault⟩ := by
  rw [violation?, firstFaulty?, h.fault?_eq_some]
  rfl

/-- A clause that breaks a rule by itself is refused when it is all that the field has. -/
theorem ClauseForm.fieldOfText_eq_error (hfits : form.Fits)
    (h : form.clause.Breaks field fault) :
    ∃ d, fieldOfText field (String.ofList form.written) = .error d ∧ d.fault = fault := by
  let f : FieldForm := ⟨form, []⟩
  have hwritten : f.written = form.written := List.append_nil form.written
  have hfits : f.Fits := List.forall_mem_singleton.mpr hfits
  have hv : violation? field f.clauses = some ⟨0, fault⟩ := h.violation?_singleton
  obtain ⟨span, he⟩ : ∃ span, fieldClauses field (f.terms 0) = .error ⟨fault, span⟩ :=
    fieldClauses_eq_error hfits hv
  rw [← readField_written, hwritten] at he
  refine ⟨Finding.diagnostic (String.ofList form.written) ⟨fault, span⟩, ?_, rfl⟩
  rw [fieldOfText, String.toList_ofList, he]
  rfl

theorem Clause.Breaks.shownBy (h : form.clause.Breaks field fault) (hfits : form.Fits)
    (hplace : SetOff BoundsClause text before form.written after) :
    fault.ShownBy text before form.written after := by
  have hshows : ShowsClause field fault text before form.written after :=
    ⟨⟨form, rfl⟩, hplace, form.fieldOfText_eq_error hfits h⟩
  cases h with
  | missingFirst hfirst hlast => cases (form.expressible_clause hfirst).symm.trans hlast
  | _ => exact hshows

theorem ClauseForm.written_of_clause_eq_any (h : form.clause = .any) : form.written = ['*'] := by
  obtain ⟨_ | first | ⟨first, last⟩, _ | step⟩ := form
  · rfl
  all_goals cases h

/-- A number that is too large is shown with all of its digits. -/
theorem ClauseForm.clause_term_shows (hsize : ∀ c ∈ text, c.utf8Size = 1)
    (hplace : SetOff BoundsClause text before form.written after) {e : Finding}
    (h : (form.term before.length).clause = .error e) : e.Shows text := by
  obtain ⟨n, hn, he⟩ := Term.clause_eq_error h
  obtain ⟨run, front, back, hrun, rfl⟩ := setOff_numeral hn
  obtain ⟨hlarge, rfl⟩ := Numeral.value_eq_error he
  have hplace := hplace.within hrun fun _ => BoundsClause.boundsNumber
  obtain ⟨hoffset, hlength⟩ := hplace.byteCount_eq hsize
  refine ⟨before ++ front, run.chars, back ++ after, hplace.text_eq, ?_, rfl, run.ne_nil,
    run.isDigit, hplace, hlarge⟩
  rw [hoffset, hlength, List.length_append]
  rfl

end Clause

/-- The clause where a field's violation is. -/
theorem FieldForm.exists_of_violation? {field : Field} {f : FieldForm} {v : Violation}
    (h : violation? field f.clauses = some v) :
    ∃ form, f.all[v.index]? = some form ∧ (form.clause.Breaks field v.fault ∨
      form.clause = .any ∧ v.fault = .ambiguousWildcard field) := by
  obtain ⟨before, c, after, hsplit, hindex, hfault⟩ := violation?_eq_some h
  have hc : f.clauses[v.index]? = some c := by
    rw [hsplit, hindex, List.getElem?_append_right (Nat.le_refl _), Nat.sub_self]
    rfl
  rw [clauses, List.getElem?_map] at hc
  obtain ⟨form, hform, rfl⟩ := Option.map_eq_some_iff.mp hc
  refine ⟨form, hform, ?_⟩
  rcases hfault with ⟨-, hbreaks⟩ | ⟨-, hany, -, hfault⟩
  · exact Or.inl hbreaks
  · exact Or.inr ⟨hany, hfault⟩

/-- What is wrong with a field is shown in the text that the field stands in. -/
theorem fieldClauses_shows {field : Field} {f : FieldForm} {text before after : List Char}
    (hsize : ∀ c ∈ text, c.utf8Size = 1) (hf : SetOff BoundsField text before f.written after)
    {e : Finding} (h : fieldClauses field (f.terms before.length) = .error e) : e.Shows text := by
  cases hcs : (f.terms before.length).mapM Term.clause with
  | error e' =>
    rw [fieldClauses_eq_error_of_mapM hcs] at h
    cases h
    obtain ⟨t, ht, he⟩ := exists_error_of_mapM hcs
    obtain ⟨i, hi⟩ := List.mem_iff_getElem?.mp ht
    obtain ⟨form, front, back, -, hplace, rfl⟩ := hf.clause hi
    exact form.clause_term_shows hsize hplace he
  | ok cs =>
    rw [fieldClauses_eq hcs] at h
    have hlength := length_eq_of_mapM hcs
    obtain ⟨hfits, rfl⟩ := FieldForm.mapM_terms_eq_ok.mp hcs
    split at h
    next => cases h
    next v hv =>
      -- There are as many terms as clauses, so the faulty clause has a term and with it a place.
      have hlt : v.index < (f.terms before.length).length := hlength ▸ index_lt_of_violation? hv
      obtain ⟨form, front, back, hform, hplace, ht⟩ := hf.clause (List.getElem?_eq_getElem hlt)
      obtain ⟨form', hform', hfault⟩ := f.exists_of_violation? hv
      cases hform.symm.trans hform'
      obtain ⟨hoffset, hwidth⟩ := hplace.byteCount_eq hsize
      cases h
      refine ⟨front, form.written, back, hplace.text_eq, ?_, ?_⟩
      · simp only [List.getElem?_eq_getElem hlt, ht, Option.map_some, Option.getD_some, Term.span,
          ClauseForm.term, hoffset, hwidth, Nat.add_sub_cancel_left]
      · show v.fault.ShownBy text front form.written back
        rcases hfault with hbreaks | ⟨hany, hfault⟩
        · exact hbreaks.shownBy (hfits form (List.mem_of_getElem? hform)) hplace
        · rw [hfault]
          exact ⟨form.written_of_clause_eq_any hany, hplace⟩

theorem readField_shows {field : Field} {text : List Char} {e : Finding}
    (h : readField field text = .error e) : e.Shows text := by
  have hread := h
  unfold readField at hread
  rcases except_bind_eq_error.mp hread with hrun | ⟨terms, hrun, -⟩
  · exact Reader.stays_loneField.shows hrun
  · obtain ⟨f, rfl⟩ : ∃ f : FieldForm, f.written = text := by
      by_contra hno
      obtain ⟨_, _, _, he⟩ := Reader.run_loneField_eq_error (not_exists.mp hno)
      cases hrun.symm.trans he
    rw [readField_written] at h
    exact fieldClauses_shows (fun c hc => utf8Size_of_isFieldChar (f.isFieldChar c hc))
      (SetOff.whole BoundsField f.written) h

theorem readPattern_shows {text : List Char} {e : Finding} (h : readPattern text = .error e) :
    e.Shows text := by
  have hread := h
  unfold readPattern at hread
  rcases except_bind_eq_error.mp hread with hrun | ⟨layout, hrun, -⟩
  · exact Reader.stays_layout.shows hrun
  · obtain ⟨l, rfl⟩ : ∃ l : PatternForm, l.written = text := by
      by_contra hno
      obtain ⟨_, _, _, he⟩ := Reader.run_layout_eq_error (not_exists.mp hno)
      cases hrun.symm.trans he
    rw [readPattern_written, except_map_eq_error] at h
    obtain ⟨⟨f, place, a⟩, hpart, he⟩ := Layout.exists_error_of_traverse h
    obtain ⟨before, after, hplace, rfl⟩ := PatternForm.setOff_field hpart
    exact fieldClauses_shows PatternForm.utf8Size_of_mem_written hplace he

/-- Whatever a text is refused for is shown by the part of it that the diagnostic points at. -/
theorem faults_are_shown :
    (∀ text d, Pattern.ofText text = .error d → d.Shows text) ∧
    (∀ field text d, fieldOfText field text = .error d → d.Shows text) := by
  constructor
  · intro text d h
    obtain ⟨e, he, rfl⟩ := mapError_eq_error.mp h
    exact (readPattern_shows he).diagnostic
  · intro field text d h
    obtain ⟨e, he, rfl⟩ := mapError_eq_error.mp h
    exact (readField_shows he).diagnostic

/-- A text that is refused, what is found in it and the part of it that shows the fault. -/
structure Refusal where
  text : String
  finding : Finding
  snippet : String

def Refusal.diagnostic (r : Refusal) : Diagnostic := r.finding.diagnostic r.text

/-- A pattern for each fault that a pattern's text can have. -/
def refusedPatterns : List Refusal :=
  [⟨"8:15", ⟨.unexpected [.step] none, ⟨4, 0⟩⟩, ""⟩,
    ⟨"8:15,é:0", ⟨.unexpected [.clause] (some 'é'), ⟨5, 2⟩⟩, "é"⟩,
    ⟨"8:18446744073709551616:0", ⟨.numberTooLarge "18446744073709551616".toList, ⟨2, 20⟩⟩,
      "18446744073709551616"⟩,
    ⟨"8-18/5:0,60:0", ⟨.outOfBounds .minute 60, ⟨9, 2⟩⟩, "60"⟩,
    ⟨"*.2.32 1-5/0 8:0:0", ⟨.zeroStep .weekday, ⟨7, 5⟩⟩, "1-5/0"⟩,
    ⟨"2020-2010.*.* 0:0:0", ⟨.reversedRange .year 2020 2010, ⟨0, 9⟩⟩, "2020-2010"⟩,
    ⟨"*:5,*:0", ⟨.ambiguousWildcard .minute, ⟨4, 1⟩⟩, "*"⟩]

/-- A field's text for each fault that it can have. -/
def refusedFields : List (Field × Refusal) :=
  [(.minute, ⟨"5-", ⟨.unexpected [.number] none, ⟨2, 0⟩⟩, ""⟩),
    (.millisecond, ⟨"7,0018446744073709551616",
      ⟨.numberTooLarge "0018446744073709551616".toList, ⟨2, 22⟩⟩, "0018446744073709551616"⟩),
    (.day, ⟨"1,33", ⟨.outOfBounds .day 33, ⟨2, 2⟩⟩, "33"⟩),
    (.hour, ⟨"*/0", ⟨.zeroStep .hour, ⟨0, 3⟩⟩, "*/0"⟩),
    (.second, ⟨"5,30-10/2", ⟨.reversedRange .second 30 10, ⟨2, 7⟩⟩, "30-10/2"⟩),
    (.month, ⟨"1,*", ⟨.ambiguousWildcard .month, ⟨2, 1⟩⟩, "*"⟩)]

theorem faults_are_shown_eachFault :
    (∀ r ∈ refusedPatterns, Pattern.ofText r.text = .error r.diagnostic ∧
      r.diagnostic.snippet = r.snippet ∧ r.diagnostic.Shows r.text) ∧
    (∀ f r, (f, r) ∈ refusedFields → fieldOfText f r.text = .error r.diagnostic ∧
      r.diagnostic.snippet = r.snippet ∧ r.diagnostic.Shows r.text) := by
  have hpatterns : ∀ r ∈ refusedPatterns, Pattern.ofText r.text = .error r.diagnostic ∧
      r.diagnostic.snippet = r.snippet := by decide +kernel
  have hfields : ∀ x ∈ refusedFields, fieldOfText x.1 x.2.text = .error x.2.diagnostic ∧
      x.2.diagnostic.snippet = x.2.snippet := by decide +kernel
  constructor
  · intro r hr
    obtain ⟨herror, hsnippet⟩ := hpatterns r hr
    exact ⟨herror, hsnippet, faults_are_shown.1 _ _ herror⟩
  · intro f r hr
    obtain ⟨herror, hsnippet⟩ := hfields (f, r) hr
    exact ⟨herror, hsnippet, faults_are_shown.2 _ _ _ herror⟩

end Timetable
