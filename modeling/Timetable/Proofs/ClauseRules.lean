import Timetable.Proofs.FieldForm

namespace Timetable

theorem Domain.contains_iff {d : Domain} {value : UInt64} :
    d.contains value = true ↔ d.min ≤ value.toNat ∧ value.toNat ≤ d.max := decide_eq_true_iff

namespace Clause

/-- Whether a clause keeps the rules that a clause of the field has to keep by itself. -/
structure Lawful (field : Field) (c : Clause) : Prop where
  expressible : c.Expressible
  step_ne_zero : c.step ≠ some 0
  ends_mem : ∀ value ∈ c.first.toList ++ c.last.toList,
    field.domain.min ≤ value.toNat ∧ value.toNat ≤ field.domain.max
  first_le_last : ∀ first last, c.first = some first → c.last = some last → first ≤ last

variable {field : Field} {c : Clause}

theorem lacksFirst?_eq_none_iff : c.lacksFirst? = none ↔ c.Expressible := by
  obtain ⟨_ | first, _ | last, step⟩ := c <;> simp [lacksFirst?, Expressible]

theorem zeroStep?_eq_none_iff : c.zeroStep? field = none ↔ c.step ≠ some 0 := by
  by_cases h : c.step = some 0
  · simp [zeroStep?, h]
  · simp [zeroStep?, h]

theorem outOfBounds?_eq_none_iff :
    c.outOfBounds? field = none ↔ ∀ value ∈ c.first.toList ++ c.last.toList,
      field.domain.min ≤ value.toNat ∧ value.toNat ≤ field.domain.max := by
  unfold outOfBounds?
  rw [Option.map_eq_none_iff, List.find?_eq_none]
  refine forall₂_congr fun value _ => ?_
  rw [← Domain.contains_iff, Bool.not_eq_true', Bool.not_eq_false]

theorem reversed?_eq_none_iff :
    c.reversed? field = none ↔
      ∀ first last, c.first = some first → c.last = some last → first ≤ last := by
  obtain ⟨_ | first, _ | last, step⟩ := c <;> simp [reversed?]

/-- A clause is faultless by itself if it is lawful. -/
theorem fault?_eq_none_iff : c.fault? field = none ↔ c.Lawful field := by
  unfold fault?
  simp only [Option.orElse_eq_orElse, Option.orElse_eq_or, Option.or_eq_none_iff,
    lacksFirst?_eq_none_iff, zeroStep?_eq_none_iff, outOfBounds?_eq_none_iff,
    reversed?_eq_none_iff]
  constructor
  · rintro ⟨hexpressible, hstep, hends, horder⟩
    exact ⟨hexpressible, hstep, hends, horder⟩
  · rintro ⟨hexpressible, hstep, hends, horder⟩
    exact ⟨hexpressible, hstep, hends, horder⟩

end Clause

theorem firstFaulty?_eq_none_iff {field : Field} {cs : List Clause} {index : Nat} :
    firstFaulty? field index cs = none ↔ ∀ c ∈ cs, c.Lawful field := by
  induction cs generalizing index with
  | nil => simp [firstFaulty?]
  | cons c cs ih =>
    rw [List.forall_mem_cons, ← Clause.fault?_eq_none_iff, firstFaulty?]
    cases c.fault? field with
    | none => simpa using ih
    | some fault => simp

/-- In a list that is found faultless every clause is lawful. -/
theorem lawful_of_violation?_eq_none {field : Field} {cs : List Clause}
    (h : violation? field cs = none) : ∀ c ∈ cs, c.Lawful field := by
  unfold violation? at h
  rw [Option.orElse_eq_orElse, Option.orElse_eq_or, Option.or_eq_none_iff] at h
  exact firstFaulty?_eq_none_iff.mp h.1

end Timetable
