import Timetable.Proofs.InhabitedMerge
import Timetable.Settle

namespace Timetable

namespace Clause

/-- Whether one of the clause's ends is written as the last day of the month. -/
def NamesMark (c : Clause) : Prop :=
  ∃ value ∈ c.first.toList ++ c.last.toList, value.toNat = lastDayMark

instance (c : Clause) : Decidable c.NamesMark :=
  inferInstanceAs (Decidable (∃ value ∈ c.first.toList ++ c.last.toList, _))

/-- Whether a clause without a last value meets the mark in counting from where it starts. -/
def RunsOntoMark (c : Clause) : Prop :=
  c.last = none ∧ ∃ step, c.step = some step ∧
    step.toNat ∣ lastDayMark - c.start Field.day.domain

variable {c : Clause}

/-- The mark is an ordinary number of the domain for a clause that does not name it: besides the
bare wildcard it is met by steps alone. -/
theorem Lawful.denotes_mark_iff (h : c.Lawful .day) (hnames : ¬c.NamesMark) :
    c.Denotes Field.day.domain lastDayMark ↔ c = any ∨ c.RunsOntoMark := by
  have hends : ∀ value ∈ c.first.toList ++ c.last.toList, value.toNat < lastDayMark := by
    intro value hvalue
    have hne : value.toNat ≠ lastDayMark := fun hv => hnames ⟨value, hvalue, hv⟩
    have hle : value.toNat ≤ lastDayMark := (h.ends_mem value hvalue).2
    omega
  have hexpressible := h.expressible
  obtain ⟨_ | first, _ | last, step⟩ := c
  · cases step with
    | none => simp [Denotes, any, Field.domain, lastDayMark]
    | some step =>
      -- From the first day to the mark it is 31 days.
      have hdvd : ((step.toNat : Int) ∣ ((31 : Nat) : Int)) ↔ step.toNat ∣ 31 :=
        Int.natCast_dvd_natCast
      simpa [Denotes, any, RunsOntoMark, start, Field.domain, lastDayMark] using hdvd
  · cases hexpressible rfl
  · have hfirst : first.toNat < lastDayMark := hends first (by simp)
    have hcast : (lastDayMark : Int) - first.toNat = ((lastDayMark - first.toNat : Nat) : Int) := by
      omega
    cases step with
    | none =>
      have hne : (lastDayMark : Int) ≠ first.toNat := by omega
      simp [Denotes, any, RunsOntoMark, hne]
    | some step =>
      have hle : (first.toNat : Int) ≤ lastDayMark := by omega
      have hmem : (Field.day.domain.min : Int) ≤ lastDayMark ∧
          (lastDayMark : Int) ≤ Field.day.domain.max := by decide
      simp only [Denotes, hmem, hle, hcast, Int.natCast_dvd_natCast, true_and, and_self]
      simp [any, RunsOntoMark, start]
  · have hlast : last.toNat < lastDayMark := hends last (by simp)
    have hgt : ¬(lastDayMark : Int) ≤ last.toNat := by omega
    cases step <;> simp [Denotes, any, RunsOntoMark, hgt]

end Clause

/-- Without a clause that names the mark, a date is allowed by its own day of the month, or as the
last of its month because the steps of an open-ended clause go on to meet the mark. -/
theorem allowsDate_iff_of_not_namesMark {p : Pattern} (h : violation? .day p.day = none)
    (hnames : ∀ c ∈ p.day, ¬c.NamesMark) (d : Date) :
    p.merge.allowsDate d = true ↔ p.merge.weekday.has d.weekday = true ∧
      (p.merge.day.has d.day = true ∨
        d.day = d.daysInMonth ∧ ∃ c ∈ p.day, c.RunsOntoMark) := by
  have hlawful := lawful_of_violation?_eq_none h
  have hday : ∀ v : Int, p.merge.day.has v = true ↔ ∃ c ∈ p.day, c.Denotes Field.day.domain v :=
    PointSet.has_ofClauses p.day
  have hmem : Field.day.domain.min ≤ (d.day : Int) ∧ (d.day : Int) ≤ Field.day.domain.max := by
    have := d.day_mem
    have := monthLength_le d.year d.month
    simp only [Field.domain, lastDayMark]
    omega
  unfold Allowance.allowsDate
  rw [Bool.and_eq_true, Bool.or_eq_true, Bool.and_eq_true, beq_iff_eq]
  refine and_congr_right fun _ => ?_
  constructor
  · rintro (hown | ⟨hmark, hlast⟩)
    · exact Or.inl hown
    · obtain ⟨c, hc, hdenotes⟩ := (hday lastDayMark).mp hmark
      rcases ((hlawful c hc).denotes_mark_iff (hnames c hc)).mp hdenotes with rfl | hruns
      · -- what allows the mark here allows every day
        exact Or.inl ((hday d.day).mpr ⟨_, hc, hmem, trivial⟩)
      · exact Or.inr ⟨hlast, c, hc, hruns⟩
  · rintro (hown | ⟨hlast, c, hc, hruns⟩)
    · exact Or.inl hown
    · have hdenotes := ((hlawful c hc).denotes_mark_iff (hnames c hc)).mpr (Or.inr hruns)
      exact Or.inr ⟨(hday lastDayMark).mpr ⟨c, hc, hdenotes⟩, hlast⟩

/-- The pattern `*.*.10-12,*/31 *:*:*.*`. -/
def thirtyOneSteps : Pattern := { Pattern.always with day := [.range 10 12, .every 31] }

def februaryEnd : Date := ⟨2001, 2, 28, by decide, by decide, by decide⟩

theorem allowsDate_iff_of_not_namesMark_thirtyOneSteps :
    violation? .day thirtyOneSteps.day = none ∧
      (∀ c ∈ thirtyOneSteps.day, ¬c.NamesMark) ∧
      thirtyOneSteps.merge.allowsDate februaryEnd = true ∧
      thirtyOneSteps.merge.day.has februaryEnd.day = false := by
  have hvalid : violation? .day thirtyOneSteps.day = none := by decide
  have hnames : ∀ c ∈ thirtyOneSteps.day, ¬c.NamesMark := by decide
  have hruns : (Clause.every 31).RunsOntoMark := ⟨rfl, 31, rfl, Nat.dvd_refl 31⟩
  have hlast : februaryEnd.day = februaryEnd.daysInMonth := rfl
  refine ⟨hvalid, hnames, ?_, by decide +kernel⟩
  refine (allowsDate_iff_of_not_namesMark hvalid hnames februaryEnd).mpr ⟨by decide +kernel, ?_⟩
  exact Or.inr ⟨hlast, .every 31, by simp [thirtyOneSteps], hruns⟩

/-- A last day can be allowed although neither its number nor the mark is asked for. -/
theorem last_day_met_by_steps : ¬∀ (p : Pattern) (d : Date), violation? .day p.day = none →
    (∀ c ∈ p.day, ¬c.NamesMark) → p.merge.allowsDate d = true →
    p.merge.day.has d.day = true := by
  intro h
  have hday := h thirtyOneSteps februaryEnd (by decide) (by decide) (by decide +kernel)
  exact absurd hday (by decide +kernel)

end Timetable
