import Timetable.Merge
import Timetable.Proofs.Enumeration

namespace Timetable

/-- What comes before a field in the cascade are exactly the coarser fields. -/
theorem Field.exists_cascade_eq {f : Field} (hf : f ∈ cascade) :
    ∃ after, f.coarser ++ f :: after = cascade := by
  obtain ⟨before, after, h⟩ := List.append_of_mem hf
  rw [coarser_of_cascade h.symm] at h
  exact ⟨after, h.symm⟩

theorem Field.ne_weekday_of_mem_coarser {f g : Field} (hg : g ∈ f.coarser) : g ≠ .weekday := by
  rintro rfl
  revert hg
  cases f <;> decide

namespace Allowance

/-- Whether the schedule admits nothing from `i` up to `j`, with `i` and without `j`. An instant is
taken to the millisecond here, as it is when it is compared with a schedule. -/
def Vacant (a : Allowance) (dir : Direction) (i j : Instant) : Prop :=
  ∀ q : Instant, dir.Reaches i q.truncate → dir.Beyond q.truncate j → a.admits q = false

/-- Whether the schedule admits nothing from `i` on, taken to the millisecond. -/
def VacantFrom (a : Allowance) (dir : Direction) (i : Instant) : Prop :=
  ∀ q : Instant, dir.Reaches i q.truncate → a.admits q = false

variable {a : Allowance} {dir : Direction} {i j q : Instant}

/-- What is admitted is a match once it is taken to the millisecond. -/
theorem match_truncate (h : a.admits q = true) : a.Match q.truncate := by
  have hw := q.isWhole_truncate
  refine ⟨hw, ?_⟩
  rw [admits, Instant.truncate_of_isWhole hw]
  exact h

theorem Clear.vacant (h : a.Clear dir i j) : a.Vacant dir i j := by
  intro q hr hb
  by_contra hadmits
  have hm := match_truncate (Bool.not_eq_false _ ▸ hadmits)
  exact Direction.not_beyond.mpr (h _ hm hr) hb

theorem vacantFrom_of_not_reaches (h : ∀ q, a.Match q → ¬dir.Reaches i q) :
    a.VacantFrom dir i := by
  intro q hr
  by_contra hadmits
  exact h _ (match_truncate (Bool.not_eq_false _ ▸ hadmits)) hr

end Allowance

/-- What settling the field `f` in the instant `i` promises, whatever comes of it. -/
def Step.Promised (a : Allowance) (dir : Direction) (f : Field) (i : Instant) : Step → Prop
  | .settled j => dir.Reaches i j ∧ (∀ g ∈ f.coarser, j.value g = i.value g) ∧
      a.allows f j = true ∧ a.Vacant dir i j
  | .carried j => dir.Beyond i j ∧ a.Vacant dir i j
  | .exhausted => a.VacantFrom dir i

/-- Instants in one unit of the parent field agree on every coarser field. -/
theorem Instant.value_eq_of_sameParent {f g : Field} {i j : Instant} (hs : j.SameParent f i)
    (hg : g ∈ f.coarser) : j.value g = i.value g :=
  value_eq_of_slot_eq (Field.ne_weekday_of_mem_coarser hg) (slot_eq_of_coarser hs hg)

theorem Step.Sound.promised {a : Allowance} {dir : Direction} {f : Field} {i : Instant} {s : Step}
    (h : s.Sound a dir f i) : s.Promised a dir f i := by
  cases s with
  | settled j =>
    obtain ⟨⟨-, hr, hsame⟩, hallows, hclear⟩ := h
    exact ⟨hr, fun g hg => Instant.value_eq_of_sameParent hsame hg, hallows, hclear.vacant⟩
  | carried j =>
    obtain ⟨-, hb, hclear⟩ := h
    exact ⟨hb, hclear.vacant⟩
  | exhausted => exact Allowance.vacantFrom_of_not_reaches h.2

/-- Settling one field is sound, where all coarser fields are allowed. The instant either moves on
within the units of the coarser fields until the field is allowed, or it moves beyond them, or
there is nothing left; either way it passes over nothing that the schedule admits. So a pass that
ends with an instant ends with one that is allowed in every field. -/
theorem settling_promised (a : Allowance) (dir : Direction) :
    (∀ f ∈ cascade, ∀ i : Instant, i.IsWhole → (∀ g ∈ f.coarser, a.allows g i = true) →
      (settle a dir f i).Promised a dir f i) ∧
    ∀ i j : Instant, i.IsWhole → settleAll a dir cascade i = .found j →
      ∀ f ∈ cascade, a.allows f j = true := by
  constructor
  · intro f hf i hw ha
    obtain ⟨after, hcascade⟩ := Field.exists_cascade_eq hf
    exact (settle_sound_of_before dir hcascade hw ha).promised
  · intro i j hw hfound f hf
    have hpass := settleAll_sound a dir (List.nil_append cascade) hw fun g hg => by cases hg
    rw [hfound] at hpass
    obtain ⟨hmatch, -, -⟩ := hpass
    exact hmatch.allows hf

/-- The leap second at the end of June 2015, from its first millisecond. -/
def juneLeapSecond : Instant :=
  ⟨⟨2015, 6, 30, by decide, by decide, by decide⟩, leapSecond.time⟩

/-- Every instant of every 29th. -/
def twentyNinths : Allowance := Pattern.merge { Pattern.always with day := [.point 29] }

/-- Backward the day moves within June, forward it moves beyond it. -/
theorem settling_promised_juneLeapSecond :
    juneLeapSecond.IsWhole ∧ juneLeapSecond.IsLeap ∧
      (∃ d, settle twentyNinths .backward .day juneLeapSecond = .settled (.dayEnd d) ∧
        (d.year = 2015 ∧ d.month = 6 ∧ d.day = 29) ∧
        twentyNinths.Vacant .backward juneLeapSecond (.dayEnd d)) ∧
      (∃ d, settle twentyNinths .forward .day juneLeapSecond = .carried (.dayStart d) ∧
        (d.year = 2015 ∧ d.month = 7 ∧ d.day = 1) ∧
        twentyNinths.Vacant .forward juneLeapSecond (.dayStart d)) ∧
      ∃ j, settleAll twentyNinths .backward cascade juneLeapSecond = .found j ∧
        ∀ f ∈ cascade, twentyNinths.allows f j = true := by
  have hw : juneLeapSecond.IsWhole := by decide
  have hday : Field.day ∈ cascade := by decide
  have hcoarser : ∀ g ∈ Field.day.coarser, twentyNinths.allows g juneLeapSecond = true := by
    decide +kernel
  let before : Date := ⟨2015, 6, 29, by decide, by decide, by decide⟩
  let after : Date := ⟨2015, 7, 1, by decide, by decide, by decide⟩
  have hbackward :
      settle twentyNinths .backward .day juneLeapSecond = .settled (.dayEnd before) := by
    decide +kernel
  have hforward :
      settle twentyNinths .forward .day juneLeapSecond = .carried (.dayStart after) := by
    decide +kernel
  have hfound :
      settleAll twentyNinths .backward cascade juneLeapSecond = .found (.dayEnd before) := by
    decide +kernel
  have hback := (settling_promised twentyNinths .backward).1 .day hday _ hw hcoarser
  have hforth := (settling_promised twentyNinths .forward).1 .day hday _ hw hcoarser
  rw [hbackward] at hback
  rw [hforward] at hforth
  exact ⟨hw, by decide, ⟨before, hbackward, ⟨rfl, rfl, rfl⟩, hback.2.2.2⟩,
    ⟨after, hforward, ⟨rfl, rfl, rfl⟩, hforth.2⟩, .dayEnd before, hfound,
    (settling_promised twentyNinths .backward).2 _ _ hw hfound⟩

end Timetable
