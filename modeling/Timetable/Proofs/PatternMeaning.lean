import Timetable.Proofs.Calendar
import Timetable.Proofs.MergePoints
import Timetable.Proofs.Slot
import Timetable.Schedule

namespace Timetable

/-- Whether some clause of the field's list stands for the value. -/
def Pattern.Denotes (p : Pattern) (f : Field) (v : Int) : Prop :=
  ∃ c ∈ p.get f, c.Denotes f.domain v

/-- What a pattern asks of an instant, taken to the millisecond. Day 32 asks for the last day of
the month. -/
structure Pattern.Describes (p : Pattern) (t : Instant) : Prop where
  not_leap : ¬t.truncate.IsLeap
  values : ∀ f, f ≠ .day → f ≠ .weekday → p.Denotes f (t.truncate.value f)
  weekday : ∃ w : Nat, t.date.FallsOn w ∧ p.Denotes .weekday w
  day : p.Denotes .day t.date.day ∨ p.Denotes .day 32 ∧ t.date.IsLastOfMonth

namespace Pattern

variable {p : Pattern}

theorem has_merge (f : Field) (v : Int) : (p.merge.get f).has v = true ↔ p.Denotes f v := by
  unfold merge
  rw [ByField.get_ofFn, PointSet.has_ofClauses]
  rfl

theorem allowsDate_merge_iff (d : Date) :
    p.merge.allowsDate d = true ↔ (∃ w : Nat, d.FallsOn w ∧ p.Denotes .weekday w) ∧
      (p.Denotes .day d.day ∨ p.Denotes .day 32 ∧ d.IsLastOfMonth) := by
  have hweekday := has_merge (p := p) .weekday d.weekday
  have hday := has_merge (p := p) .day d.day
  have hmark := has_merge (p := p) .day lastDayMark
  simp only [ByField.get] at hweekday hday hmark
  simp only [Allowance.allowsDate, Bool.and_eq_true, Bool.or_eq_true, beq_iff_eq, hweekday, hday,
    hmark, Date.isLastOfMonth_iff, Date.fallsOn_iff, exists_eq_left]
  rfl

theorem not_leap_of_denotes {t : Instant} (h : p.Denotes .millisecond (t.value .millisecond)) :
    ¬t.IsLeap := by
  obtain ⟨c, -, ⟨-, hmax⟩, -⟩ := h
  have hle : ((t.time.nano / 1000000 : Nat) : Int) ≤ (999 : Nat) := hmax
  unfold Instant.IsLeap
  omega

/-- Merging a pattern keeps what it means. -/
theorem admits_merge_iff (t : Instant) : p.merge.admits t = true ↔ p.Describes t := by
  have hvalue : ∀ f, f ≠ .day →
      (p.merge.allows f t.truncate = true ↔ p.Denotes f (t.truncate.value f)) := by
    intro f hf
    rw [← has_merge]
    cases f
    case day => exact absurd rfl hf
    all_goals rfl
  have hdate : p.merge.allows .day t.truncate = true ↔ _ := allowsDate_merge_iff t.date
  unfold Allowance.admits
  rw [List.all_eq_true]
  constructor
  · intro h
    have hvalues : ∀ f, f ≠ .day → f ≠ .weekday → p.Denotes f (t.truncate.value f) := by
      intro f hd hw
      refine (hvalue f hd).mp (h f ?_)
      cases f
      case weekday => exact absurd rfl hw
      all_goals decide
    obtain ⟨hweekday, hday⟩ := hdate.mp (h .day (by decide))
    exact ⟨not_leap_of_denotes (hvalues .millisecond (by decide) (by decide)), hvalues, hweekday,
      hday⟩
  · rintro ⟨-, hvalues, hweekday, hday⟩ f hf
    by_cases hd : f = .day
    · subst hd
      exact hdate.mpr ⟨hweekday, hday⟩
    · refine (hvalue f hd).mpr (hvalues f hd ?_)
      rintro rfl
      exact weekday_notMem_cascade hf

end Pattern

/-- A schedule that was read from a text admits exactly the instants that the text's pattern
describes. -/
theorem admits_iff_describes {text : String} {s : Schedule} (h : Schedule.ofText text = .ok s) :
    Pattern.ofText text = .ok s.pattern ∧
      ∀ t : Instant, s.admits t = true ↔ s.pattern.Describes t := by
  obtain ⟨hpattern, -, hmerge⟩ := Schedule.ofText_eq_ok_iff.mp h
  refine ⟨hpattern, fun t => ?_⟩
  unfold Schedule.admits
  rw [hmerge]
  exact Pattern.admits_merge_iff t

/-- Every half hour in the hours 8, 13 and 18 of a working day that ends February. -/
def februaryEnds : Pattern where
  year := [.any]
  month := [.point 2]
  day := [.point 32]
  weekday := [.range 1 5]
  hour := [.steppedRange 8 18 5]
  minute := [.every 30]
  second := [.point 0]
  millisecond := [.point 0]

/-- 28 February is the last day in 2011, and 29 February is in 2012. All three are working days, and
the part of a millisecond does not count. -/
theorem admits_iff_describes_february_ends :
    ∃ s, Schedule.ofText "*.2.32 1-5 8-18/5:*/30:0" = .ok s ∧ s.pattern = februaryEnds ∧
      ∃ common eve leap, Instant.ofParts? 2011 2 28 13 30 0 999999 = some common ∧
        Instant.ofParts? 2012 2 28 13 30 0 999999 = some eve ∧
        Instant.ofParts? 2012 2 29 13 30 0 999999 = some leap ∧
        (s.admits common = true ∧ februaryEnds.Describes common) ∧
        (s.admits eve = false ∧ ¬februaryEnds.Describes eve) ∧
        (s.admits leap = true ∧ februaryEnds.Describes leap) := by
  let s : Schedule := ⟨"*.2.32 1-5 8-18/5:*/30:0", februaryEnds, februaryEnds.merge⟩
  let afternoon : TimeOfDay := ⟨13, 30, 0, 999999, by decide, by decide, by decide, by decide⟩
  let common : Instant := ⟨⟨2011, 2, 28, by decide, by decide, by decide⟩, afternoon⟩
  let eve : Instant := ⟨⟨2012, 2, 28, by decide, by decide, by decide⟩, afternoon⟩
  let leap : Instant := ⟨⟨2012, 2, 29, by decide, by decide, by decide⟩, afternoon⟩
  have hclauses : Pattern.ofText s.text = .ok februaryEnds := by decide +kernel
  have hs : Schedule.ofText s.text = .ok s := Schedule.ofText_eq_ok_iff.mpr ⟨hclauses, rfl, rfl⟩
  obtain ⟨-, hadmits⟩ := admits_iff_describes hs
  have hcommon : s.admits common = true := by decide +kernel
  have heve : s.admits eve = false := by decide +kernel
  have hleap : s.admits leap = true := by decide +kernel
  refine ⟨s, hs, rfl, common, eve, leap, rfl, rfl, rfl, ⟨hcommon, (hadmits common).mp hcommon⟩,
    ⟨heve, fun h => ?_⟩, hleap, (hadmits leap).mp hleap⟩
  cases heve.symm.trans ((hadmits eve).mpr h)

end Timetable
