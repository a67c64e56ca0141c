import Timetable.Merge
import Timetable.Proofs.DayLoop

namespace Timetable

namespace Date

/-- The dates of the date's month, from its first to its last. -/
def monthDates (d : Date) : List Date := (List.range' 1 d.daysInMonth).filterMap d.withDay?

variable {d e : Date}

theorem mem_monthDates : e ∈ d.monthDates ↔ e.year = d.year ∧ e.month = d.month := by
  simp only [monthDates, List.mem_filterMap, List.mem_range'_1, withDay?_eq_some_iff]
  constructor
  · rintro ⟨v, -, h, -⟩
    exact h
  · intro h
    have hday := e.day_mem
    have hlen : monthLength e.year e.month = d.daysInMonth := daysInMonth_eq h
    exact ⟨e.day, by omega, h, rfl⟩

theorem pairwise_monthDates (d : Date) : d.monthDates.Pairwise fun e e' => e.day < e'.day := by
  refine List.Pairwise.filterMap _ ?_ List.pairwise_lt_range'
  intro v w hlt e he e' he'
  rw [(withDay?_eq_some_iff.mp he).2, (withDay?_eq_some_iff.mp he').2]
  exact hlt

end Date

namespace Direction

/-- The dates of the month beyond the date, in the order in which a search meets them. -/
def datesPast (dir : Direction) (d : Date) : List Date :=
  match dir with
  | .forward => d.monthDates.filter fun e => decide (d.day < e.day)
  | .backward => (d.monthDates.filter fun e => decide (e.day < d.day)).reverse

/-- Where a search meets a date: on its first millisecond going forward, on its last going
backward. -/
def edgeOf (dir : Direction) (d : Date) : Instant :=
  match dir with
  | .forward => .dayStart d
  | .backward => .dayEnd d

/-- Whether a search that leaves the month of `d` meets the next month on its way on the date `e`:
on the first date of the month after it, or on the last of the month before it. -/
def MeetsMonth (dir : Direction) (d e : Date) : Prop :=
  match dir with
  | .forward => e.day = 1 ∧ e.year * 12 + e.month = d.year * 12 + d.month + 1
  | .backward => e.day = e.daysInMonth ∧ e.year * 12 + e.month + 1 = d.year * 12 + d.month

variable {dir : Direction} {d e : Date}

theorem mem_datesPast :
    e ∈ dir.datesPast d ↔ (e.year = d.year ∧ e.month = d.month) ∧ dir.Past d.day e.day := by
  cases dir
  · simp [datesPast, Date.mem_monthDates, Past]
  · simp [datesPast, Date.mem_monthDates, Past]

theorem pairwise_datesPast (dir : Direction) (d : Date) :
    (dir.datesPast d).Pairwise fun e e' => dir.Past e.day e'.day := by
  have hdates := d.pairwise_monthDates
  cases dir
  · exact (hdates.filter _).imp Int.ofNat_lt.mpr
  · exact List.pairwise_reverse.mpr ((hdates.filter _).imp Int.ofNat_lt.mpr)

end Direction

/-- A scan of an ordered list finds the member that comes before all others of its kind. -/
theorem find?_eq_some_of_pairwise {α : Type} {l : List α} {r : α → α → Prop} {p : α → Bool} {x : α}
    (h : l.Pairwise r) (hx : x ∈ l) (hp : p x = true)
    (hfirst : ∀ y ∈ l, p y = true → ¬r y x) : l.find? p = some x := by
  induction l with
  | nil => cases hx
  | cons y l ih =>
    obtain ⟨hy, hl⟩ := List.pairwise_cons.mp h
    obtain ⟨hfirsty, hfirstl⟩ := List.forall_mem_cons.mp hfirst
    rcases List.mem_cons.mp hx with rfl | hmem
    · exact List.find?_cons_of_pos hp
    · have hpy : ¬p y = true := fun hpy => hfirsty hpy (hy x hmem)
      rw [List.find?_cons_of_neg hpy]
      exact ih hl hmem hfirstl

namespace Allowance

/-- The first allowed date that a scan of the rest of the month meets. -/
def scanMonth? (a : Allowance) (dir : Direction) (d : Date) : Option Date :=
  (dir.datesPast d).find? a.allowsDate

variable {a : Allowance} {dir : Direction} {d e : Date} {i : Instant}

theorem FirstDatePast.scanMonth?_eq (h : a.FirstDatePast dir d d.day e) :
    a.scanMonth? dir d = some e := by
  refine find?_eq_some_of_pairwise (dir.pairwise_datesPast d)
    (Direction.mem_datesPast.mpr ⟨h.month, h.past⟩) h.allowed fun y hy hyallowed => ?_
  obtain ⟨hmonth, hpast⟩ := Direction.mem_datesPast.mp hy
  exact Direction.not_past.mpr (h.first y hmonth hyallowed hpast)

theorem NoDatePast.scanMonth?_eq (h : a.NoDatePast dir d d.day) : a.scanMonth? dir d = none := by
  refine List.find?_eq_none.mpr fun y hy hyallowed => ?_
  obtain ⟨hmonth, hpast⟩ := Direction.mem_datesPast.mp hy
  exact h y hmonth hyallowed hpast

/-- Entering a date of the month settles the day. -/
theorem ofMove_enter?_day (h : e.year = i.date.year ∧ e.month = i.date.month) :
    Step.ofMove .day i (i.enter? dir .day e.day) = .settled (dir.edgeOf e) := by
  have hd : i.date.withDay? e.day = some e := Date.withDay?_eq_some_iff.mpr ⟨h, rfl⟩
  have hsame : (dir.edgeOf e).SameParent .day i := by
    cases dir
    · exact Instant.sameParent_day h.1 h.2
    · exact Instant.sameParent_day h.1 h.2
  have henter : i.enter? dir .day e.day = some (dir.edgeOf e) := by
    cases dir
    · exact congrArg (Option.map Instant.dayStart) hd
    · exact congrArg (Option.map Instant.dayEnd) hd
  rw [henter, ofMove_of_sameParent hsame]

/-- Leaving the month carries to where the search meets the next month on its way. -/
theorem ofMove_leave?_day (dir : Direction)
    (hy : firstYear < i.date.year ∧ i.date.year < lastYear) :
    ∃ e, dir.MeetsMonth i.date e ∧
      Step.ofMove .day i (i.leave? dir .day) = .carried (dir.edgeOf e) := by
  obtain ⟨j, hj⟩ := Instant.leave?_exists (f := .day) dir rfl hy
  rw [hj, ofMove_of_leave? (f := .day) rfl hj]
  cases dir
  · obtain ⟨e, he, rfl⟩ := Option.map_eq_some_iff.mp hj
    refine ⟨e, ?_, rfl⟩
    obtain ⟨hday, ⟨hyear, hmonth⟩ | ⟨hlast, hfirst, hnext⟩⟩ := Date.monthAfter?_parts he
    · exact ⟨hday, by omega⟩
    · have hyear := (Date.yearAfter?_parts hnext).1
      exact ⟨hday, by omega⟩
  · obtain ⟨e, he, rfl⟩ := Option.map_eq_some_iff.mp hj
    refine ⟨e, ?_, rfl⟩
    obtain ⟨hday, ⟨hyear, hmonth, hlt⟩ | ⟨hfirst, hlast, hprevious⟩⟩ := Date.monthBefore?_parts he
    · exact ⟨hday, by omega⟩
    · have hyear := (Date.yearBefore?_parts hprevious).1
      exact ⟨hday, by omega⟩

end Allowance

/-- Settling the day does what a scan of the month does. Where the date is not allowed, it enters
the first allowed date of the same month on its way, or leaves the month if there is none. -/
theorem day_settling_scans_month {a : Allowance} {i : Instant}
    (hy : 2000 ≤ i.date.year ∧ i.date.year ≤ 2100) (hi : a.allowsDate i.date = false)
    (dir : Direction) :
    match a.scanMonth? dir i.date with
    | some e => settle a dir .day i = .settled (dir.edgeOf e)
    | none => ∃ e, dir.MeetsMonth i.date e ∧ settle a dir .day i = .carried (dir.edgeOf e) := by
  have hallows : ¬a.allows .day i = true := Bool.eq_false_iff.mp hi
  have hstep : settle a dir .day i = settleDayFrom a dir i i.date.day := if_neg hallows
  rw [hstep]
  rcases a.settleDayFrom_cases dir i.date.day_mem.2 with ⟨e, he, hmove⟩ | ⟨hnone, hmove⟩
  · rw [he.scanMonth?_eq, hmove]
    exact Allowance.ofMove_enter?_day he.month
  · rw [hnone.scanMonth?_eq, hmove]
    refine Allowance.ofMove_leave?_day dir ?_
    unfold firstYear lastYear
    omega

/-- Every 13th and every last day of a month, where it is a Friday. -/
def bookingFridays : Allowance :=
  Pattern.merge { Pattern.always with day := [.point 13, .point 32], weekday := [.point 5] }

/-- In the leap February of 2008 the last day is a Friday and the 13th is none. -/
theorem day_settling_scans_month_leapFebruary :
    ∃ middle last before : Date, (middle.year = 2008 ∧ middle.month = 2 ∧ middle.day = 14) ∧
      (last.year = 2008 ∧ last.month = 2 ∧ last.day = 29) ∧
      settle bookingFridays .forward .day (.dayStart middle) = .settled (.dayStart last) ∧
      (before.day = before.daysInMonth ∧ before.year * 12 + before.month + 1 = 2008 * 12 + 2) ∧
      settle bookingFridays .backward .day (.dayStart middle) = .carried (.dayEnd before) := by
  let middle : Date := ⟨2008, 2, 14, by decide, by decide, by decide⟩
  let last : Date := ⟨2008, 2, 29, by decide, by decide, by decide⟩
  have hy : 2000 ≤ (Instant.dayStart middle).date.year ∧
      (Instant.dayStart middle).date.year ≤ 2100 := by
    decide
  have hi : bookingFridays.allowsDate (Instant.dayStart middle).date = false := by decide +kernel
  have hforward := day_settling_scans_month hy hi .forward
  have hbackward := day_settling_scans_month hy hi .backward
  rw [show bookingFridays.scanMonth? .forward (Instant.dayStart middle).date = some last by
    decide +kernel] at hforward
  rw [show bookingFridays.scanMonth? .backward (Instant.dayStart middle).date = none by
    decide +kernel] at hbackward
  obtain ⟨before, hmeets, hcarried⟩ := hbackward
  exact ⟨middle, last, before, ⟨rfl, rfl, rfl⟩, ⟨rfl, rfl, rfl⟩, hforward, hmeets, hcarried⟩

end Timetable
