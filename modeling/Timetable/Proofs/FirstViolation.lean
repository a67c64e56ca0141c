import Timetable.Proofs.ClauseRules

namespace Timetable

/-- Whether a number is one of the domain. -/
def Domain.Has (d : Domain) (value : UInt64) : Prop := d.min ≤ value.toNat ∧ value.toNat ≤ d.max

theorem Domain.contains_eq_false_iff {d : Domain} {value : UInt64} :
    d.contains value = false ↔ ¬d.Has value := by
  rw [← Bool.not_eq_true, Domain.contains_iff]
  rfl

namespace Clause

variable {field : Field} {c : Clause} {fault : Fault}

/-- Which fault a clause has by itself: that of the first rule which it breaks, where a missing
first value comes before a step of 0, this before an end out of the domain, the first value before
the last one, and a reversed range comes at the end. -/
inductive Breaks (field : Field) (c : Clause) : Fault → Prop
  | missingFirst {last : UInt64} (hfirst : c.first = none) (hlast : c.last = some last) :
    c.Breaks field (.missingFirst last)
  | zeroStep (hexpressible : c.Expressible) (hstep : c.step = some 0) :
    c.Breaks field (.zeroStep field)
  | firstOutside {first : UInt64} (hstep : c.step ≠ some 0) (hfirst : c.first = some first)
    (hout : ¬field.domain.Has first) : c.Breaks field (.outOfBounds field first)
  | lastOutside {first last : UInt64} (hstep : c.step ≠ some 0) (hfirst : c.first = some first)
    (hlast : c.last = some last) (hin : field.domain.Has first) (hout : ¬field.domain.Has last) :
    c.Breaks field (.outOfBounds field last)
  | reversed {first last : UInt64} (hstep : c.step ≠ some 0) (hfirst : c.first = some first)
    (hlast : c.last = some last) (hin : field.domain.Has first) (hin' : field.domain.Has last)
    (hlt : last < first) : c.Breaks field (.reversedRange field first last)

theorem Breaks.fault?_eq_some (h : c.Breaks field fault) : c.fault? field = some fault := by
  obtain ⟨first?, last?, step?⟩ := c
  cases h with
  | missingFirst hfirst hlast =>
    cases hfirst
    cases hlast
    rfl
  | zeroStep hexpressible hstep =>
    rw [fault?, lacksFirst?_eq_none_iff.mpr hexpressible, zeroStep?, if_pos hstep]
    rfl
  | @firstOutside first hstep hfirst hout =>
    cases hfirst
    have hcontains := Domain.contains_eq_false_iff.mpr hout
    rw [fault?, zeroStep?_eq_none_iff.mpr hstep]
    simp [lacksFirst?, outOfBounds?, hcontains]
  | @lastOutside first last hstep hfirst hlast hin hout =>
    cases hfirst
    cases hlast
    have hcontains := Domain.contains_eq_false_iff.mpr hout
    have hcontains' := Domain.contains_iff.mpr hin
    rw [fault?, zeroStep?_eq_none_iff.mpr hstep]
    simp [lacksFirst?, outOfBounds?, hcontains, hcontains']
  | @reversed first last hstep hfirst hlast hin hin' hlt =>
    cases hfirst
    cases hlast
    have hcontains := Domain.contains_iff.mpr hin
    have hcontains' := Domain.contains_iff.mpr hin'
    rw [fault?, zeroStep?_eq_none_iff.mpr hstep]
    simp [lacksFirst?, outOfBounds?, reversed?, hcontains, hcontains', hlt]

theorem breaks_of_outOfBounds?_eq_some (hexpressible : c.Expressible) (hstep : c.step ≠ some 0)
    (h : c.outOfBounds? field = some fault) : c.Breaks field fault := by
  obtain ⟨value, hvalue, rfl⟩ := Option.map_eq_some_iff.mp h
  cases hfirst : c.first with
  | none =>
    rw [hfirst, hexpressible hfirst] at hvalue
    cases hvalue
  | some first =>
    rw [hfirst] at hvalue
    by_cases hin : field.domain.Has first
    · have hcontains := Domain.contains_iff.mpr hin
      cases hlast : c.last with
      | none => simp [hlast, hcontains] at hvalue
      | some last =>
        obtain ⟨hout, rfl⟩ : field.domain.contains last = false ∧ last = value := by
          simpa [hlast, hcontains] using hvalue
        exact .lastOutside hstep hfirst hlast hin (Domain.contains_eq_false_iff.mp hout)
    · have hcontains := Domain.contains_eq_false_iff.mpr hin
      obtain rfl : first = value := by simpa [hcontains] using hvalue
      exact .firstOutside hstep hfirst hin

theorem breaks_of_fault?_eq_some (h : c.fault? field = some fault) : c.Breaks field fault := by
  simp only [fault?, Option.orElse_eq_orElse, Option.orElse_eq_or, Option.or_eq_some_iff,
    lacksFirst?_eq_none_iff, zeroStep?_eq_none_iff, outOfBounds?_eq_none_iff] at h
  rcases h with h | ⟨hexpressible, h | ⟨hstep, h | ⟨hends, h⟩⟩⟩
  · unfold lacksFirst? at h
    split at h
    next hfirst hlast =>
      cases h
      exact .missingFirst hfirst hlast
    next => cases h
  · unfold zeroStep? at h
    split at h
    next hstep =>
      cases h
      exact .zeroStep hexpressible hstep
    next => cases h
  · exact breaks_of_outOfBounds?_eq_some hexpressible hstep h
  · unfold reversed? at h
    split at h
    next first last hfirst hlast =>
      split at h
      next hlt =>
        cases h
        exact .reversed hstep hfirst hlast (hends first (by simp [hfirst]))
          (hends last (by simp [hlast])) hlt
      next => cases h
    next => cases h

theorem fault?_eq_some_iff : c.fault? field = some fault ↔ c.Breaks field fault :=
  ⟨breaks_of_fault?_eq_some, Breaks.fault?_eq_some⟩

theorem Breaks.not_lawful (h : c.Breaks field fault) : ¬c.Lawful field := by
  rw [← fault?_eq_none_iff, h.fault?_eq_some]
  exact Option.some_ne_none fault

end Clause

variable {field : Field} {cs : List Clause}

theorem firstFaulty?_eq_some {index : Nat} {v : Violation}
    (h : firstFaulty? field index cs = some v) :
    ∃ before c after, cs = before ++ c :: after ∧ v.index = index + before.length ∧
      (∀ earlier ∈ before, earlier.Lawful field) ∧ c.Breaks field v.fault := by
  induction cs generalizing index with
  | nil => cases h
  | cons c cs ih =>
    rw [firstFaulty?] at h
    split at h
    next fault hfault =>
      cases h
      exact ⟨[], c, cs, rfl, rfl, List.forall_mem_nil _, Clause.fault?_eq_some_iff.mp hfault⟩
    next hlawful =>
      obtain ⟨before, c', after, rfl, hindex, hbefore, hbreaks⟩ := ih h
      refine ⟨c :: before, c', after, rfl, ?_, ?_, hbreaks⟩
      · rw [hindex, List.length_cons]
        omega
      · exact List.forall_mem_cons.mpr ⟨Clause.fault?_eq_none_iff.mp hlawful, hbefore⟩

theorem mixedWildcard?_eq_none_iff :
    mixedWildcard? field cs = none ↔ cs.length ≤ 1 ∨ Clause.any ∉ cs := by
  unfold mixedWildcard?
  split
  next hlt =>
    rw [Option.map_eq_none_iff, List.findIdx?_eq_none_iff]
    constructor
    · intro h
      exact Or.inr fun hany => absurd (h _ hany) (by decide)
    · rintro (hle | hnone) c hc
      · omega
      · rw [← Bool.not_eq_true, Clause.isAny_iff]
        rintro rfl
        exact hnone hc
  next hle => simp [Nat.le_of_not_lt hle]

theorem mixedWildcard?_eq_some {v : Violation} (h : mixedWildcard? field cs = some v) :
    ∃ before after, cs = before ++ .any :: after ∧ v.index = before.length ∧
      Clause.any ∉ before ∧ v.fault = .ambiguousWildcard field := by
  unfold mixedWildcard? at h
  split at h
  next =>
    obtain ⟨i, hi, rfl⟩ := Option.map_eq_some_iff.mp h
    obtain ⟨hlt, hany, hbefore⟩ := List.findIdx?_eq_some_iff_getElem.mp hi
    have hlength : (cs.take i).length = i := List.length_take_of_le (Nat.le_of_lt hlt)
    refine ⟨cs.take i, cs.drop (i + 1), ?_, hlength.symm, ?_, rfl⟩
    · rw [← Clause.isAny_iff.mp hany, List.getElem_cons_drop, List.take_append_drop]
    · intro hmem
      obtain ⟨j, hj, he⟩ := List.mem_take_iff_getElem.mp hmem
      exact hbefore j (by omega) (Clause.isAny_iff.mpr he)
  next => cases h

theorem violation?_eq_none_iff :
    violation? field cs = none ↔
      (∀ c ∈ cs, c.Lawful field) ∧ (cs.length ≤ 1 ∨ Clause.any ∉ cs) := by
  unfold violation?
  rw [Option.orElse_eq_orElse, Option.orElse_eq_or, Option.or_eq_none_iff,
    firstFaulty?_eq_none_iff, mixedWildcard?_eq_none_iff]

/-- What is wrong with a list of clauses is wrong with the first of them that breaks a rule by
itself or, where there is none, with the first wildcard that stands beside others. -/
theorem violation?_eq_some {v : Violation} (h : violation? field cs = some v) :
    ∃ before c after, cs = before ++ c :: after ∧ v.index = before.length ∧
      ((∀ earlier ∈ before, earlier.Lawful field) ∧ c.Breaks field v.fault ∨
        (∀ c ∈ cs, c.Lawful field) ∧ c = .any ∧ Clause.any ∉ before ∧
          v.fault = .ambiguousWildcard field) := by
  unfold violation? at h
  rw [Option.orElse_eq_orElse, Option.orElse_eq_or, Option.or_eq_some_iff,
    firstFaulty?_eq_none_iff] at h
  rcases h with h | ⟨hlawful, h⟩
  · obtain ⟨before, c, after, hcs, hindex, hbefore, hbreaks⟩ := firstFaulty?_eq_some h
    exact ⟨before, c, after, hcs, hindex.trans (Nat.zero_add _), Or.inl ⟨hbefore, hbreaks⟩⟩
  · obtain ⟨before, after, hcs, hindex, hbefore, hfault⟩ := mixedWildcard?_eq_some h
    exact ⟨before, .any, after, hcs, hindex, Or.inr ⟨hlawful, rfl, hbefore, hfault⟩⟩

theorem index_lt_of_violation? {v : Violation} (h : violation? field cs = some v) :
    v.index < cs.length := by
  obtain ⟨before, c, after, rfl, hindex, -⟩ := violation?_eq_some h
  rw [hindex, List.length_append, List.length_cons]
  omega

/-- A list of clauses is accepted if each of them keeps the rules for one clause and no wildcard
stands beside others. Otherwise the position that is reported is one of the list: that of the first
clause that breaks a rule by itself, with the first rule that it breaks, or of the first wildcard if
each clause by itself is lawful. -/
theorem violation_is_first (field : Field) (cs : List Clause) :
    (violation? field cs = none ↔
      (∀ c ∈ cs, c.Lawful field) ∧ (cs.length ≤ 1 ∨ Clause.any ∉ cs)) ∧
    ∀ v, violation? field cs = some v →
      v.index < cs.length ∧
      ((∃ c ∈ cs, ¬c.Lawful field) →
        ∃ before c after, cs = before ++ c :: after ∧ v.index = before.length ∧
          (∀ earlier ∈ before, earlier.Lawful field) ∧ c.Breaks field v.fault) ∧
      ((∀ c ∈ cs, c.Lawful field) →
        v.fault = .ambiguousWildcard field ∧
          ∃ before after, cs = before ++ .any :: after ∧ v.index = before.length ∧
            Clause.any ∉ before) := by
  refine ⟨violation?_eq_none_iff, fun v h => ⟨index_lt_of_violation? h, ?_, ?_⟩⟩
  all_goals obtain ⟨before, c, after, hcs, hindex, ⟨hbefore, hbreaks⟩ | ⟨hlawful, hany, hfirst,
    hfault⟩⟩ := violation?_eq_some h
  · exact fun _ => ⟨before, c, after, hcs, hindex, hbefore, hbreaks⟩
  · rintro ⟨c', hc', hunlawful⟩
    exact absurd (hlawful c' hc') hunlawful
  · intro hlawful
    exact absurd (hlawful c (by simp [hcs])) hbreaks.not_lawful
  · subst hany
    exact fun _ => ⟨hfault, before, after, hcs, hindex, hfirst⟩

/-- A step of 0 comes before a value out of bounds, and either before the wildcard in front. -/
example : violation? .hour [.any, .point 3, .steppedRange 25 30 0] = some ⟨2, .zeroStep .hour⟩ := by
  decide

end Timetable
