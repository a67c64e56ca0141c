import Timetable.Proofs.FirstViolation
import Timetable.Proofs.LayoutReading
import Timetable.Proofs.Traversal

namespace Timetable

/-- The finding, as it is in a text with `k` more bytes in front. -/
def Finding.shift (k : Nat) (f : Finding) : Finding := ⟨f.fault, ⟨k + f.span.offset, f.span.length⟩⟩

def Numeral.shift (k : Nat) (n : Numeral) : Numeral := ⟨k + n.offset, n.digits⟩

def Term.shift (k : Nat) (t : Term) : Term where
  range := t.range.map fun (first, last) => (first.shift k, last.map (Numeral.shift k))
  step := t.step.map (Numeral.shift k)
  start := k + t.start
  stop := k + t.stop

theorem Numeral.value_shift (k : Nat) (n : Numeral) :
    (n.shift k).value = n.value.mapError (Finding.shift k) := by
  by_cases h : decimalValue n.digits < UInt64.size
  · simp only [value, shift, h, if_true]
    rfl
  · simp only [value, shift, h, if_false]
    rfl

theorem Term.span_shift (k : Nat) (t : Term) :
    (t.shift k).span = ⟨k + t.span.offset, t.span.length⟩ := by
  simp only [span, shift, Nat.add_sub_add_left]

theorem Term.clause_shift (k : Nat) (t : Term) :
    (t.shift k).clause = t.clause.mapError (Finding.shift k) := by
  obtain ⟨range, step, start, stop⟩ := t
  simp only [clause, mapError_bind, mapError_optionMapM, shift]
  rcases range with _ | ⟨first, _ | last⟩ <;> rcases step with _ | step <;>
    simp [Numeral.value_shift] <;> rfl

/-- What comes of a field whose numbers were read: its clauses, or the rule that one breaks. -/
theorem fieldClauses_eq {field : Field} {ts : List Term} {cs : List Clause}
    (h : ts.mapM Term.clause = .ok cs) :
    fieldClauses field ts =
      match violation? field cs with
      | none => .ok cs
      | some v => .error ⟨v.fault, ((ts[v.index]?).map Term.span).getD ⟨0, 0⟩⟩ := by
  unfold fieldClauses
  rw [h]
  rfl

theorem fieldClauses_eq_error_of_mapM {field : Field} {ts : List Term} {e : Finding}
    (h : ts.mapM Term.clause = .error e) : fieldClauses field ts = .error e := by
  unfold fieldClauses
  rw [h]
  rfl

/-- Moving a field in the text moves what is found there. -/
theorem fieldClauses_shift (field : Field) (k : Nat) (ts : List Term) :
    fieldClauses field (ts.map (Term.shift k)) =
      (fieldClauses field ts).mapError (Finding.shift k) := by
  have hclauses : (ts.map (Term.shift k)).mapM Term.clause =
      (ts.mapM Term.clause).mapError (Finding.shift k) := by
    rw [List.mapM_map, mapError_mapM]
    exact congrArg (ts.mapM ·) (funext fun t => t.clause_shift k)
  cases hts : ts.mapM Term.clause with
  | error e =>
    rw [hts] at hclauses
    rw [fieldClauses_eq_error_of_mapM hclauses, fieldClauses_eq_error_of_mapM hts]
    rfl
  | ok cs =>
    rw [hts] at hclauses
    rw [fieldClauses_eq hclauses, fieldClauses_eq hts]
    cases hv : violation? field cs with
    | none => rfl
    | some v =>
      -- The faulty clause is one of those that were read, so it has a span.
      have hlt : v.index < ts.length := length_eq_of_mapM hts ▸ index_lt_of_violation? hv
      simp only [List.getElem?_map, List.getElem?_eq_getElem hlt, Option.map_some,
        Option.getD_some, Term.span_shift]
      rfl

theorem Digits.value_numeral_eq_ok {d : Digits} {offset : Nat} {n : UInt64} :
    (d.numeral offset).value = .ok n ↔ d.value < UInt64.size ∧ n = d.value.toUInt64 := by
  simp only [Numeral.value, numeral, value]
  by_cases h : decimalValue d.chars < UInt64.size
  · simp only [h, if_true, true_and, Except.ok.injEq]
    exact eq_comm
  · simp only [h, if_false, false_and, reduceCtorEq]

theorem Digits.mapM_value_eq_ok {d : Option Digits} {offset : Nat} {n : Option UInt64} :
    (d.map (·.numeral offset)).mapM Numeral.value = .ok n ↔
      (∀ x ∈ d.toList, x.value < UInt64.size) ∧ n = d.map (·.value.toUInt64) := by
  cases d with
  | none => simp [except_pure_eq_ok]
  | some d => simp [except_map_eq_ok, Digits.value_numeral_eq_ok, and_assoc]

/-- A clause reads as what is meant if its numbers fit, and as nothing else. -/
theorem ClauseForm.clause_term_eq_ok {c : ClauseForm} {offset : Nat} {x : Clause} :
    (c.term offset).clause = .ok x ↔ c.Fits ∧ x = c.clause := by
  obtain ⟨_ | first | ⟨first, last⟩, step⟩ := c <;>
    simp [Term.clause, term, ClauseHead.reading, except_bind_eq_ok, except_map_eq_ok,
      Digits.value_numeral_eq_ok, Digits.mapM_value_eq_ok, Fits, numbers, ClauseHead.numbers,
      clause, and_assoc]

namespace FieldForm

theorem mapM_othersTerms_eq_ok {fs : List ClauseForm} {offset : Nat} {cs : List Clause} :
    (othersTerms fs offset).mapM Term.clause = .ok cs ↔
      (∀ c ∈ fs, c.Fits) ∧ cs = fs.map ClauseForm.clause := by
  induction fs generalizing offset cs with
  | nil => simp [othersTerms, except_pure_eq_ok]
  | cons c fs ih =>
    simp [othersTerms, except_bind_eq_ok, except_map_eq_ok, ClauseForm.clause_term_eq_ok, ih,
      and_assoc]

theorem mapM_terms_eq_ok {f : FieldForm} {offset : Nat} {cs : List Clause} :
    (f.terms offset).mapM Term.clause = .ok cs ↔ f.Fits ∧ cs = f.clauses := by
  simp [terms, except_bind_eq_ok, except_map_eq_ok, ClauseForm.clause_term_eq_ok,
    mapM_othersTerms_eq_ok, Fits, all, clauses, and_assoc]

end FieldForm

/-- Whether 64 bits can hold the numbers of the field and its clauses break no rule. -/
structure FieldForm.Valid (f : FieldForm) (field : Field) : Prop where
  fits : f.Fits
  violation_eq : violation? field f.clauses = none

/-- What a derived field reads as: its clauses, if it is valid. -/
theorem fieldClauses_eq_ok_iff {field : Field} {f : FieldForm} {offset : Nat} {cs : List Clause} :
    fieldClauses field (f.terms offset) = .ok cs ↔ f.Valid field ∧ cs = f.clauses := by
  constructor
  · intro h
    cases hcs : (f.terms offset).mapM Term.clause with
    | error e =>
      rw [fieldClauses_eq_error_of_mapM hcs] at h
      cases h
    | ok ds =>
      rw [fieldClauses_eq hcs] at h
      obtain ⟨hfits, rfl⟩ := FieldForm.mapM_terms_eq_ok.mp hcs
      split at h
      next hv =>
        cases h
        exact ⟨⟨hfits, hv⟩, rfl⟩
      next => cases h
  · rintro ⟨⟨hfits, hv⟩, rfl⟩
    rw [fieldClauses_eq (FieldForm.mapM_terms_eq_ok.mpr ⟨hfits, rfl⟩), hv]

/-- A derived field whose numbers fit is refused for the rule that its clauses break. -/
theorem fieldClauses_eq_error {field : Field} {f : FieldForm} {offset : Nat} {v : Violation}
    (hfits : f.Fits) (hv : violation? field f.clauses = some v) :
    ∃ span, fieldClauses field (f.terms offset) = .error ⟨v.fault, span⟩ := by
  rw [fieldClauses_eq (FieldForm.mapM_terms_eq_ok.mpr ⟨hfits, rfl⟩), hv]
  exact ⟨_, rfl⟩

/-- Whether a fault is a matter of grammar alone, whatever the numbers. -/
def Fault.IsSyntax : Fault → Prop
  | .unexpected .. | .missingFirst .. => True
  | _ => False

theorem Clause.Breaks.not_isSyntax {field : Field} {c : Clause} {fault : Fault}
    (h : c.Breaks field fault) (hc : c.Expressible) : ¬fault.IsSyntax := by
  cases h with
  | missingFirst hfirst hlast => cases (hc hfirst).symm.trans hlast
  | _ => exact id

theorem Numeral.value_eq_error {n : Numeral} {e : Finding} (h : n.value = .error e) :
    UInt64.size ≤ decimalValue n.digits ∧ e = ⟨.numberTooLarge n.digits, n.span⟩ := by
  simp only [value] at h
  split at h
  next => cases h
  next hle =>
    cases h
    exact ⟨Nat.le_of_not_lt hle, rfl⟩

theorem mapM_numeral_value_eq_error {n? : Option Numeral} {e : Finding}
    (h : n?.mapM Numeral.value = .error e) : ∃ n ∈ n?.toList, n.value = .error e := by
  cases n? with
  | none => cases h
  | some n =>
    rw [Option.mapM_some] at h
    exact ⟨n, List.mem_singleton_self n, except_map_eq_error.mp h⟩

/-- The numbers of a clause, as they stand in the text. -/
def Term.numerals (t : Term) : List Numeral :=
  (t.range.map Prod.fst).toList ++ (t.range.bind Prod.snd).toList ++ t.step.toList

/-- A clause that cannot be read has a number that is too large. -/
theorem Term.clause_eq_error {t : Term} {e : Finding} (h : t.clause = .error e) :
    ∃ n ∈ t.numerals, n.value = .error e := by
  obtain ⟨range, step, start, stop⟩ := t
  simp only [clause] at h
  simp only [numerals, List.mem_append]
  rcases except_bind_eq_error.mp h with hfirst | ⟨first, -, h⟩
  · cases range with
    | none => cases hfirst
    | some r =>
      rw [Option.mapM_some] at hfirst
      exact ⟨r.1, Or.inl (Or.inl (List.mem_singleton_self r.1)), except_map_eq_error.mp hfirst⟩
  rcases except_bind_eq_error.mp h with hlast | ⟨last, -, h⟩
  · obtain ⟨n, hn, he⟩ := mapM_numeral_value_eq_error hlast
    exact ⟨n, Or.inl (Or.inr hn), he⟩
  rcases except_bind_eq_error.mp h with hstep | ⟨step, -, h⟩
  · obtain ⟨n, hn, he⟩ := mapM_numeral_value_eq_error hstep
    exact ⟨n, Or.inr hn, he⟩
  · cases h

/-- Numbers alone never make a derived field ungrammatical. -/
theorem fieldClauses_not_isSyntax {field : Field} {f : FieldForm} {offset : Nat} {e : Finding}
    (h : fieldClauses field (f.terms offset) = .error e) : ¬e.fault.IsSyntax := by
  cases hcs : (f.terms offset).mapM Term.clause with
  | error e' =>
    rw [fieldClauses_eq_error_of_mapM hcs] at h
    cases h
    obtain ⟨t, -, ht⟩ := exists_error_of_mapM hcs
    obtain ⟨n, -, hn⟩ := Term.clause_eq_error ht
    rw [(Numeral.value_eq_error hn).2]
    exact id
  | ok cs =>
    rw [fieldClauses_eq hcs] at h
    obtain ⟨-, rfl⟩ := FieldForm.mapM_terms_eq_ok.mp hcs
    split at h
    next => cases h
    next v hv =>
      cases h
      obtain ⟨before, c, after, hcs, -, ⟨-, hbreaks⟩ | ⟨-, -, -, hfault⟩⟩ := violation?_eq_some hv
      · have hc : c ∈ f.clauses := by simp [hcs]
        obtain ⟨form, -, rfl⟩ := List.mem_map.mp hc
        exact hbreaks.not_isSyntax form.expressible_clause
      · show ¬v.fault.IsSyntax
        rw [hfault]
        exact id

theorem ClauseForm.term_add (c : ClauseForm) (k offset : Nat) :
    c.term (k + offset) = (c.term offset).shift k := by
  obtain ⟨_ | first | ⟨first, last⟩, _ | step⟩ := c <;>
    simp [term, Term.shift, ClauseHead.reading, Digits.numeral, Numeral.shift, Nat.add_assoc]

theorem FieldForm.othersTerms_add (fs : List ClauseForm) (k offset : Nat) :
    othersTerms fs (k + offset) = (othersTerms fs offset).map (Term.shift k) := by
  induction fs generalizing offset with
  | nil => rfl
  | cons c fs ih => simp only [othersTerms, Nat.add_assoc, ClauseForm.term_add, ih, List.map_cons]

theorem FieldForm.terms_add (f : FieldForm) (k offset : Nat) :
    f.terms (k + offset) = (f.terms offset).map (Term.shift k) := by
  simp only [terms, Nat.add_assoc, ClauseForm.term_add, othersTerms_add, List.map_cons]

/-- Where a derived field stands only moves what is found in it. -/
theorem fieldClauses_terms (field : Field) (f : FieldForm) (offset : Nat) :
    fieldClauses field (f.terms offset) =
      (fieldClauses field (f.terms 0)).mapError (Finding.shift offset) := by
  rw [← fieldClauses_shift, ← FieldForm.terms_add, Nat.add_zero]

end Timetable
