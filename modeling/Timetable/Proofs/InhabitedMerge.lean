import Timetable.Proofs.ClauseRules
import Timetable.Proofs.MergePoints
import Timetable.Proofs.PatternGrammar
import Timetable.Schedule

namespace Timetable

/-- The value that a clause starts from. -/
def Clause.start (d : Domain) (c : Clause) : Nat := (c.first.map UInt64.toNat).getD d.min

/-- A lawful clause stands at least for the value that it starts from, whatever its step. -/
theorem Clause.Lawful.denotes_start {field : Field} {c : Clause} (h : c.Lawful field) :
    c.Denotes field.domain (c.start field.domain) := by
  have hmin := field.domain.min_le_max
  have hmem := h.ends_mem
  have horder := h.first_le_last
  obtain ⟨_ | first, last, step⟩ := c
  · refine ⟨⟨Int.le_refl _, Int.ofNat_le.mpr hmin⟩, ?_⟩
    cases step <;> simp [start]
  · have hfirst := hmem first (by simp)
    refine ⟨⟨Int.ofNat_le.mpr hfirst.1, Int.ofNat_le.mpr hfirst.2⟩, ?_⟩
    cases last with
    | none => cases step <;> simp [start]
    | some last =>
      have hle : first.toNat ≤ last.toNat := UInt64.le_iff_toNat_le.mp (horder first last rfl rfl)
      cases step <;> simp [start, hle]

/-- Merging lawful clauses allows nothing only if there are none. -/
theorem PointSet.exists_has_ofClauses_iff {field : Field} {cs : List Clause}
    (h : ∀ c ∈ cs, c.Lawful field) :
    (∃ v, (ofClauses field.domain cs).has v = true) ↔ cs ≠ [] := by
  simp only [has_ofClauses]
  constructor
  · rintro ⟨v, c, hc, -⟩
    exact List.ne_nil_of_mem hc
  · intro hne
    obtain ⟨c, hc⟩ := List.exists_mem_of_ne_nil cs hne
    exact ⟨_, c, hc, (h c hc).denotes_start⟩

namespace Pattern

variable {p : Pattern} {a : Allowance}

theorem validate_eq_ok_iff : p.validate = .ok () ↔ ∀ f, violation? f (p.get f) = none := by
  have hfault : p.fault? = none ↔ ∀ f, violation? f (p.get f) = none := by
    simp [fault?, List.findSome?_eq_none_iff, Field.mem_all]
  rw [← hfault, validate]
  cases p.fault? with
  | none => simp
  | some fault => simp

theorem allowance_eq_ok_iff : p.allowance = .ok a ↔ p.validate = .ok () ∧ a = p.merge := by
  unfold allowance
  rw [except_bind_eq_ok]
  simp only [except_pure_eq_ok]
  exact ⟨fun ⟨_, h⟩ => h, fun h => ⟨(), h⟩⟩

/-- Merging a valid pattern leaves exactly the fields without clauses without points. -/
theorem exists_has_merge_iff (h : p.validate = .ok ()) (f : Field) :
    (∃ v, (p.merge.get f).has v = true) ↔ p.get f ≠ [] := by
  have hlawful := lawful_of_violation?_eq_none (validate_eq_ok_iff.mp h f)
  unfold merge
  rw [ByField.get_ofFn]
  exact PointSet.exists_has_ofClauses_iff hlawful

end Pattern

/-- A pattern that is accepted gives each field some point, unless it lists no clause for the
field. -/
theorem merged_field_inhabited_iff {p : Pattern} {a : Allowance} (h : p.allowance = .ok a)
    (f : Field) : (∃ v, (a.get f).has v = true) ↔ p.get f ≠ [] := by
  obtain ⟨hvalid, rfl⟩ := Pattern.allowance_eq_ok_iff.mp h
  exact Pattern.exists_has_merge_iff hvalid f

/-- A pattern that no text gives: it lists nothing for the hour. -/
def noHours : Pattern := { Pattern.always with hour := [] }

theorem merged_field_inhabited_iff_noHours :
    noHours.allowance = .ok noHours.merge ∧ (∃ v, (noHours.merge.get .minute).has v = true) ∧
      ¬∃ v, (noHours.merge.get .hour).has v = true := by
  have hok : noHours.allowance = .ok noHours.merge := rfl
  refine ⟨hok, (merged_field_inhabited_iff hok .minute).mpr (by decide), fun h => ?_⟩
  exact (merged_field_inhabited_iff hok .hour).mp h rfl

/-- Not every pattern that is accepted gives each field a point. -/
theorem accepted_pattern_with_empty_field : ¬∀ (p : Pattern) (a : Allowance),
    p.allowance = .ok a → ∀ f, ∃ v, (a.get f).has v = true := by
  intro h
  have hhour := h noHours noHours.merge rfl .hour
  exact (Pattern.exists_has_merge_iff rfl .hour).mp hhour rfl

namespace PatternForm

variable {l : PatternForm} {p : Pattern}

/-- A field is written, or it is left out and has the clause for that. -/
theorem Means.get_cases (h : l.Means p) (f : Field) :
    (∃ form, (f, form) ∈ l.parts ∧ p.get f = form.clauses) ∨ p.get f = [.any] ∨
      f = .millisecond ∧ p.get f = [.point 0] := by
  have hwritten : ∀ form, (f, form) ∈ l.parts → ∃ form, (f, form) ∈ l.parts ∧
      p.get f = form.clauses := fun form hform => ⟨form, hform, h.written _ hform⟩
  obtain ⟨date, weekday, hour, minute, second, millisecond⟩ := l
  cases f
  case hour => exact Or.inl (hwritten hour (by simp [Layout.parts]))
  case minute => exact Or.inl (hwritten minute (by simp [Layout.parts]))
  case second => exact Or.inl (hwritten second (by simp [Layout.parts]))
  case weekday =>
    cases weekday with
    | none => exact Or.inr (Or.inl (h.weekday rfl))
    | some weekday => exact Or.inl (hwritten weekday (by simp [Layout.parts]))
  case millisecond =>
    cases millisecond with
    | none => exact Or.inr (Or.inr ⟨rfl, h.millisecond rfl⟩)
    | some millisecond => exact Or.inl (hwritten millisecond (by simp [Layout.parts]))
  case year =>
    rcases date with _ | ⟨year, month, day⟩
    · exact Or.inr (Or.inl (h.date rfl).1)
    · exact Or.inl (hwritten year (by simp [Layout.parts]))
  case month =>
    rcases date with _ | ⟨year, month, day⟩
    · exact Or.inr (Or.inl (h.date rfl).2.1)
    · exact Or.inl (hwritten month (by simp [Layout.parts]))
  case day =>
    rcases date with _ | ⟨year, month, day⟩
    · exact Or.inr (Or.inl (h.date rfl).2.2)
    · exact Or.inl (hwritten day (by simp [Layout.parts]))

theorem Means.get_ne_nil (h : l.Means p) (f : Field) : p.get f ≠ [] := by
  rcases h.get_cases f with ⟨form, -, hform⟩ | hany | ⟨-, hzero⟩
  · rw [hform]
    exact form.clauses_ne_nil
  · rw [hany]
    exact List.cons_ne_nil _ _
  · rw [hzero]
    exact List.cons_ne_nil _ _

/-- Checking each written field is enough: what stands for the others is valid. -/
theorem Means.validate_eq_ok (h : l.Means p) (hvalid : l.Valid) : p.validate = .ok () := by
  refine Pattern.validate_eq_ok_iff.mpr fun f => ?_
  rcases h.get_cases f with ⟨form, hmem, hform⟩ | hany | ⟨rfl, hzero⟩
  · rw [hform]
    exact (hvalid _ hmem).violation_eq
  · rw [hany]
    cases f <;> rfl
  · rw [hzero]
    rfl

end PatternForm

/-- Merging what a text gives as if it were a pattern made by hand refuses nothing and changes
nothing. -/
theorem Schedule.allowance_pattern {text : String} {s : Schedule}
    (h : Schedule.ofText text = .ok s) : s.pattern.allowance = .ok s.allowance := by
  obtain ⟨hread, -, hmerge⟩ := Schedule.ofText_eq_ok_iff.mp h
  obtain ⟨l, -, hvalid, hmeans⟩ := Pattern.ofText_eq_ok_iff.mp hread
  exact Pattern.allowance_eq_ok_iff.mpr ⟨hmeans.validate_eq_ok hvalid, hmerge⟩

/-- What a text gives is a valid pattern without an empty field, so that merging it as a pattern
made by hand gives what reading the text gave, with some point for each field. -/
theorem text_pattern_merges {text : String} {s : Schedule} (h : Schedule.ofText text = .ok s) :
    (∀ f, s.pattern.get f ≠ []) ∧ s.pattern.validate = .ok () ∧
      s.pattern.allowance = .ok s.allowance ∧ ∀ f, ∃ v, (s.allowance.get f).has v = true := by
  obtain ⟨hread, -, -⟩ := Schedule.ofText_eq_ok_iff.mp h
  obtain ⟨l, -, -, hmeans⟩ := Pattern.ofText_eq_ok_iff.mp hread
  have hallowance := Schedule.allowance_pattern h
  obtain ⟨hvalidate, hmerge⟩ := Pattern.allowance_eq_ok_iff.mp hallowance
  refine ⟨hmeans.get_ne_nil, hvalidate, hallowance, fun f => ?_⟩
  rw [hmerge]
  exact (Pattern.exists_has_merge_iff hvalidate f).mpr (hmeans.get_ne_nil f)

theorem text_pattern_merges_leapDay :
    ∃ s, Schedule.ofText "2000/4.2.29 9-17/3:30/31:59" = .ok s ∧ (∀ f, s.pattern.get f ≠ []) ∧
      s.pattern.validate = .ok () ∧ s.pattern.allowance = .ok s.allowance ∧
      ∀ f, ∃ v, (s.allowance.get f).has v = true := by
  obtain ⟨s, hs⟩ := exists_ok_of_isOk (x := Schedule.ofText "2000/4.2.29 9-17/3:30/31:59")
    (by decide +kernel)
  exact ⟨s, hs, text_pattern_merges hs⟩

end Timetable
