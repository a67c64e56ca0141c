import Timetable.Proofs.FieldForm

namespace Timetable

/-- Whether more can be written behind the text so that it is the text of something. -/
def Begins {α : Type} (written : α → List Char) (text : List Char) : Prop :=
  ∃ a, text <+: written a

/-- Whether none of what begins with the text goes on as this rest does. -/
def Stops {α : Type} (written : α → List Char) (text rest : List Char) : Prop :=
  ∀ x, rest.head? = some x → ¬Begins written (text ++ [x])

section Prefixes

variable {α β : Type} {written : α → List Char} {other : β → List Char}
  {text text' rest before after : List Char} {x : Char}

theorem begins_written (a : α) : Begins written (written a) := ⟨a, List.prefix_rfl⟩

theorem Begins.shorter (h : Begins written text') (hle : text <+: text') : Begins written text := by
  obtain ⟨a, ha⟩ := h
  exact ⟨a, hle.trans ha⟩

theorem stops_nil (written : α → List Char) (text : List Char) : Stops written text [] := by
  intro x hx
  cases hx

/-- What could go on less than something else stops where that does. -/
theorem Stops.of_begins (h : Stops other text' rest)
    (hle : ∀ x, Begins written (text ++ [x]) → Begins other (text' ++ [x])) :
    Stops written text rest := fun x hx hbegins => h x hx (hle x hbegins)

theorem stops_of_notMem (h : ∀ x, rest.head? = some x → ∀ a, x ∉ written a) :
    Stops written text rest := by
  rintro x hx ⟨a, ha⟩
  exact h x hx a (ha.subset (by simp))

/-- What begins a text of two parts ends within the first part, or goes on in the second. -/
theorem prefix_append_cons (h : text <+: before ++ x :: after) :
    text <+: before ∨ ∃ t, text = before ++ x :: t ∧ t <+: after := by
  obtain ⟨rest, hrest⟩ := h
  rcases List.append_eq_append_iff.mp hrest with ⟨as, rfl, -⟩ | ⟨bs, rfl, hafter⟩
  · exact Or.inl (List.prefix_append text as)
  · cases bs with
    | nil => exact Or.inl (by simp)
    | cons y bs =>
      obtain ⟨rfl, rfl⟩ := List.cons.inj hafter
      exact Or.inr ⟨bs, rfl, List.prefix_append bs rest⟩

end Prefixes

namespace Digits

def single (x : Char) (hx : x.isDigit = true) : Digits :=
  ⟨[x], List.cons_ne_nil _ _, List.forall_mem_singleton.mpr hx⟩

def zero : Digits := single '0' (by decide)

/-- A run with one more digit. -/
def concat (d : Digits) (x : Char) (hx : x.isDigit = true) : Digits where
  chars := d.chars ++ [x]
  ne_nil := by simp
  isDigit := List.forall_mem_append.mpr ⟨d.isDigit, List.forall_mem_singleton.mpr hx⟩

theorem prefix_cases {d : Digits} {t : List Char} (h : t <+: d.chars) :
    t = [] ∨ ∃ d' : Digits, t = d'.chars := by
  by_cases hnil : t = []
  · exact Or.inl hnil
  · exact Or.inr ⟨⟨t, hnil, fun x hx => d.isDigit x (h.subset hx)⟩, rfl⟩

end Digits

namespace ClauseHead

theorem begins_number {d : Digits} {x : Char} (hx : x.isDigit = true) :
    Begins written (d.chars ++ [x]) :=
  ⟨.number (d.concat x hx), List.prefix_rfl⟩

theorem begins_dash (d : Digits) : Begins written (d.chars ++ ['-']) :=
  ⟨.range d .zero, Digits.zero.chars, by simp [written]⟩

theorem begins_dash_digit (d : Digits) {x : Char} (hx : x.isDigit = true) :
    Begins written (d.chars ++ ['-'] ++ [x]) :=
  ⟨.range d (.single x hx), [], by simp [written, Digits.single]⟩

theorem begins_range {first last : Digits} {x : Char} (hx : x.isDigit = true) :
    Begins written ((ClauseHead.range first last).written ++ [x]) :=
  ⟨.range first (last.concat x hx), [], by simp [written, Digits.concat]⟩

/-- No head goes on with a character that heads do not have. -/
theorem stops_of_ends {h : ClauseHead} {rest : List Char}
    (hend : ∀ x, rest.head? = some x → x.isDigit = false ∧ x ≠ '*' ∧ x ≠ '-') :
    Stops written h.written rest := by
  refine stops_of_notMem fun x hx h' hmem => ?_
  obtain ⟨hdigit, hstar, hdash⟩ := hend x hx
  have hne : ∀ y ∈ h'.written, y ≠ x := forall_mem_written
    (fun y hy => by rintro rfl; rw [hdigit] at hy; cases hy) hstar.symm hdash.symm h'
  exact hne x hmem rfl

end ClauseHead

namespace ClauseForm

theorem begins_head {t : List Char} (h : Begins ClauseHead.written t) : Begins written t := by
  obtain ⟨hd, ht⟩ := h
  exact ⟨⟨hd, none⟩, List.prefix_append_of_prefix ht⟩

theorem begins_slash (h : ClauseHead) : Begins written (h.written ++ ['/']) :=
  ⟨⟨h, some .zero⟩, Digits.zero.chars, by simp [written, stepWritten]⟩

theorem begins_slash_digit (h : ClauseHead) {x : Char} (hx : x.isDigit = true) :
    Begins written (h.written ++ ['/'] ++ [x]) :=
  ⟨⟨h, some (.single x hx)⟩, [], by simp [written, stepWritten, Digits.single]⟩

theorem begins_step {h : ClauseHead} {step : Digits} {x : Char} (hx : x.isDigit = true) :
    Begins written (written ⟨h, some step⟩ ++ [x]) :=
  ⟨⟨h, some (step.concat x hx)⟩, [], by simp [written, stepWritten, Digits.concat]⟩

end ClauseForm

/-- The beginnings of a clause behind which a rule of the grammar may fail: all but those that end in
the digits of a step. -/
inductive ClauseStop : List Char → Prop
  | start : ClauseStop []
  | dash (first : Digits) : ClauseStop (first.chars ++ ['-'])
  | head (h : ClauseHead) : ClauseStop h.written
  | slash (h : ClauseHead) : ClauseStop (h.written ++ ['/'])

def EndsInStep (text : List Char) : Prop :=
  ∃ (before : List Char) (step : Digits), text = before ++ '/' :: step.chars

theorem EndsInStep.append {text : List Char} (h : EndsInStep text) (before : List Char) :
    EndsInStep (before ++ text) := by
  obtain ⟨front, step, rfl⟩ := h
  exact ⟨before ++ front, step, by rw [List.append_assoc]⟩

theorem ClauseStop.begins {t : List Char} (h : ClauseStop t) : Begins ClauseForm.written t := by
  cases h with
  | start => exact ⟨⟨.wildcard, none⟩, List.nil_prefix⟩
  | dash first => exact ClauseForm.begins_head (ClauseHead.begins_dash first)
  | head h => exact ClauseForm.begins_head (begins_written h)
  | slash h => exact ClauseForm.begins_slash h

theorem clauseStop_of_head {h : ClauseHead} {t : List Char} (ht : t <+: h.written) :
    ClauseStop t := by
  have hnumber {d : Digits} (hd : t <+: d.chars) : ClauseStop t := by
    rcases d.prefix_cases hd with rfl | ⟨d', rfl⟩
    · exact .start
    · exact .head (.number d')
  cases h with
  | wildcard =>
    rcases List.prefix_cons_iff.mp ht with rfl | ⟨t', rfl, ht'⟩
    · exact .start
    · cases List.prefix_nil.mp ht'
      exact .head .wildcard
  | number first => exact hnumber ht
  | range first last =>
    rcases prefix_append_cons ht with hfirst | ⟨t', rfl, ht'⟩
    · exact hnumber hfirst
    · rcases last.prefix_cases ht' with rfl | ⟨d', rfl⟩
      · exact .dash first
      · exact .head (.range first d')

theorem begins_clause_cases {t : List Char} (h : Begins ClauseForm.written t) :
    ClauseStop t ∨ EndsInStep t := by
  obtain ⟨⟨hd, _ | step⟩, ht⟩ := h
  · rw [ClauseForm.written, ClauseForm.stepWritten, List.append_nil] at ht
    exact Or.inl (clauseStop_of_head ht)
  · rcases prefix_append_cons ht with hhead | ⟨t', rfl, ht'⟩
    · exact Or.inl (clauseStop_of_head hhead)
    · rcases step.prefix_cases ht' with rfl | ⟨d, rfl⟩
      · exact Or.inl (.slash hd)
      · exact Or.inr ⟨hd.written, d, rfl⟩

namespace FieldForm

def cons (c : ClauseForm) (f : FieldForm) : FieldForm := ⟨c, f.first :: f.others⟩

theorem written_single (c : ClauseForm) : written ⟨c, []⟩ = c.written := List.append_nil _

theorem written_cons (c : ClauseForm) (f : FieldForm) :
    (cons c f).written = c.written ++ ',' :: f.written := rfl

theorem begins_clause {t : List Char} (h : Begins ClauseForm.written t) : Begins written t := by
  obtain ⟨c, hc⟩ := h
  exact ⟨⟨c, []⟩, by rwa [written_single]⟩

theorem begins_cons (c : ClauseForm) {t : List Char} (h : Begins written t) :
    Begins written (c.written ++ ',' :: t) := by
  obtain ⟨f, hf⟩ := h
  refine ⟨cons c f, ?_⟩
  rw [written_cons, List.prefix_append_right_inj, List.cons_prefix_cons]
  exact ⟨rfl, hf⟩

theorem stops_clause {t rest : List Char} (h : Stops written t rest) :
    Stops ClauseForm.written t rest :=
  h.of_begins fun _ => begins_clause

theorem stops_behind_comma {c : ClauseForm} {t rest : List Char}
    (h : Stops written (c.written ++ ',' :: t) rest) : Stops written t rest := by
  refine h.of_begins fun x hx => ?_
  simpa using begins_cons c hx

theorem begins_comma (c : ClauseForm) : Begins written (c.written ++ [',']) :=
  begins_cons c (begins_clause ClauseStop.start.begins)

end FieldForm

/-- The beginnings of a field behind which a rule of the grammar may fail. -/
inductive FieldStop : List Char → Prop
  | clause {t : List Char} (h : ClauseStop t) : FieldStop t
  | cons (c : ClauseForm) {t : List Char} (h : FieldStop t) : FieldStop (c.written ++ ',' :: t)

theorem FieldStop.begins {t : List Char} (h : FieldStop t) : Begins FieldForm.written t := by
  induction h with
  | clause h => exact FieldForm.begins_clause h.begins
  | cons c _ ih => exact FieldForm.begins_cons c ih

theorem begins_field_cases {t : List Char} (h : Begins FieldForm.written t) :
    FieldStop t ∨ EndsInStep t := by
  obtain ⟨⟨first, others⟩, ht⟩ := h
  have hclause {c : ClauseForm} {t : List Char} (ht : t <+: c.written) :
      FieldStop t ∨ EndsInStep t :=
    (begins_clause_cases ⟨c, ht⟩).imp_left .clause
  induction others generalizing first t with
  | nil => exact hclause (FieldForm.written_single first ▸ ht)
  | cons c cs ih =>
    rcases prefix_append_cons (ht : t <+: first.written ++ ',' :: FieldForm.written ⟨c, cs⟩) with
      hfirst | ⟨t', rfl, ht'⟩
    · exact hclause hfirst
    · rcases ih c ht' with hstop | hstep
      · exact Or.inl (.cons first hstop)
      · exact Or.inr (by simpa using hstep.append (first.written ++ [',']))

end Timetable
