import Mathlib.Data.Set.Card
import Timetable.Proofs.DayLoop

namespace Timetable

namespace Date

/-- The same day of the next month, or that month's last day if it is shorter. -/
def oneMonthOn? (d : Date) : Option Date :=
  if d.month < 12 then
    ofParts? d.year (d.month + 1) (min d.day (monthLength d.year (d.month + 1)))
  else ofParts? (d.year + 1) 1 (min d.day (monthLength (d.year + 1) 1))

/-- The length of the month as the calendar shows it: the number of the day before the first of the
next month. Where the calendar has no next month, the length is taken to be 31. -/
def lengthByNextMonth (d : Date) : Nat :=
  let first := (d.withDay? 1).getD d
  (first.oneMonthOn?.bind dayBefore?).elim 31 (·.day)

variable {d e : Date}

/-- No month is too short for a first day. -/
theorem oneMonthOn?_of_first (h : d.day = 1) : d.oneMonthOn? = d.monthAfter? := by
  have hnext := monthLength_pos d.year (d.month + 1)
  have hjan := monthLength_pos (d.year + 1) 1
  unfold oneMonthOn? monthAfter? yearAfter?
  rw [h, Nat.min_eq_left hnext, Nat.min_eq_left hjan]

theorem monthAfter?_congr (h : e.year = d.year ∧ e.month = d.month) :
    e.monthAfter? = d.monthAfter? := by
  unfold monthAfter? yearAfter?
  rw [h.1, h.2]

/-- Only December can be the last month of the calendar. -/
theorem month_eq_of_monthAfter?_none (h : d.monthAfter? = none) : d.month = 12 := by
  have hm := d.month_mem
  by_contra hne
  have hnext : d.monthAfter? = ofParts? d.year (d.month + 1) 1 := if_pos (by omega)
  obtain ⟨e, he⟩ : ∃ e, ofParts? d.year (d.month + 1) 1 = some e :=
    ofParts?_exists d.year_mem (by omega) ⟨Nat.le_refl 1, monthLength_pos _ _⟩
  cases (h.symm.trans hnext).trans he

theorem dayAfter?_of_last (h : d.day = d.daysInMonth) : d.dayAfter? = d.monthAfter? :=
  if_neg (by omega)

theorem dayBefore?_of_dayAfter? (h : d.dayAfter? = some e) : e.dayBefore? = some d := by
  have hself := d.ofParts?_self
  have hm := d.month_mem.1
  have hd := d.day_mem.1
  unfold dayBefore? withDay?
  rcases dayAfter?_parts h with ⟨hy, hmonth, hday⟩ | ⟨hlast, hfirst, hnext⟩
  · rw [hy, hmonth, if_pos (by omega), show e.day - 1 = d.day by omega]
    exact hself
  · unfold daysInMonth at hlast
    rw [if_neg (by omega), monthBefore?]
    rw [hlast] at hself
    rcases (monthAfter?_parts hnext).2 with ⟨hy, hmonth⟩ | ⟨hdec, hjan, hyear⟩
    · rw [if_pos (by omega), hy, show e.month - 1 = d.month by omega]
      exact hself
    · have hy := (yearAfter?_parts hyear).1
      rw [if_neg (by omega), yearBefore?, show e.year - 1 = d.year by omega]
      rw [hdec] at hself
      exact hself

/-- Before the first day of the next month comes the last day of this one. The calendar ends with a
December, so that 31 is right where it has no next month. -/
theorem lengthByNextMonth_eq (d : Date) : d.lengthByNextMonth = d.daysInMonth := by
  obtain ⟨first, hfirst⟩ := ofParts?_exists d.year_mem d.month_mem
    ⟨Nat.le_refl 1, monthLength_pos d.year d.month⟩
  obtain ⟨hmonth, hday⟩ := withDay?_eq_some_iff.mp hfirst
  let last : Date := ⟨d.year, d.month, d.daysInMonth, d.year_mem, d.month_mem,
    monthLength_pos _ _, Nat.le_refl _⟩
  have hnext : first.oneMonthOn? = last.dayAfter? := by
    rw [oneMonthOn?_of_first hday, dayAfter?_of_last (d := last) rfl, monthAfter?_congr hmonth,
      monthAfter?_congr (d := d) (e := last) ⟨rfl, rfl⟩]
  unfold lengthByNextMonth
  simp only [withDay?, hfirst, Option.getD_some, hnext]
  cases hlast : last.dayAfter? with
  | some e =>
    rw [Option.bind_some, dayBefore?_of_dayAfter? hlast]
    rfl
  | none =>
    rw [dayAfter?_of_last (d := last) rfl] at hlast
    have hdec : d.month = 12 := month_eq_of_monthAfter?_none hlast
    rw [daysInMonth, hdec]
    rfl

theorem ncard_month (d : Date) :
    {e : Date | e.year = d.year ∧ e.month = d.month}.ncard = d.daysInMonth := by
  refine Set.ncard_eq_of_bijective
    (fun i hi => ⟨d.year, d.month, i + 1, d.year_mem, d.month_mem, Nat.le_add_left 1 i, hi⟩)
    ?_ ?_ ?_
  · rintro e ⟨hy, hm⟩
    obtain ⟨year, month, day, hyear, hmonth, hday⟩ := e
    simp only at hy hm
    subst hy hm
    exact ⟨day - 1, by unfold daysInMonth; omega, by simp only [mk.injEq, true_and]; omega⟩
  · exact fun i hi => ⟨rfl, rfl⟩
  · intro i j hi hj h
    simp only [mk.injEq, true_and] at h
    omega

/-- No date lies between a date and the one after it. -/
theorem rank_le_of_dayAfter? {x : Date} (h : d.dayAfter? = some e) (hlt : d.rank < x.rank) :
    e.rank ≤ x.rank := by
  have hleaves := Instant.leaves_dayAfter (i := .dayStart d) h
  have hle : Instant.dayStart e ≤ .dayStart x :=
    (hleaves (.dayStart x) (Instant.isPlain_dayStart x)).mpr hlt
  exact Instant.slot_mono .day hle

/-- There is a date after every date but the last of the calendar. -/
theorem dayAfter?_exists_of_ne (h : ¬(d.year = lastYear ∧ d.month = 12 ∧ d.day = 31)) :
    ∃ e, d.dayAfter? = some e := by
  have hd := d.day_mem
  by_cases hlast : d.day = d.daysInMonth
  · rw [dayAfter?_of_last hlast]
    by_contra hnone
    have hn : d.monthAfter? = none := Option.eq_none_iff_forall_ne_some.mpr (not_exists.mp hnone)
    have hdec := month_eq_of_monthAfter?_none hn
    have hyear : ¬d.year < lastYear := fun hlt => hnone (monthAfter?_exists hlt)
    have hy := d.year_mem.2
    rw [daysInMonth, hdec] at hlast
    exact h ⟨by omega, hdec, hlast⟩
  · have hlt : d.day < d.daysInMonth := Nat.lt_of_le_of_ne hd.2 hlast
    rw [dayAfter?, if_pos hlt]
    exact ofParts?_exists d.year_mem d.month_mem ⟨Nat.le_add_left 1 _, hlt⟩

/-- A date with a later one is not the last of the calendar. -/
theorem dayAfter?_exists_of_lt (h : d.rank < e.rank) : ∃ next, d.dayAfter? = some next := by
  refine dayAfter?_exists_of_ne fun ⟨hy, hm, hd⟩ => ?_
  have hy' := e.year_mem.2
  have hm' := e.month_mem.2
  have hd' := e.day_le_31
  unfold rank at h
  omega

/-- Later dates have greater numbers. -/
theorem dayNumber_lt {d e : Date} (h : d.rank < e.rank) : d.dayNumber < e.dayNumber := by
  -- By induction on how far `e` lies ahead: each day on the way adds one.
  obtain ⟨next, hnext⟩ := dayAfter?_exists_of_lt h
  have hone := dayNumber_dayAfter hnext
  have hlt := rank_lt_dayAfter hnext
  rcases lt_or_eq_of_le (rank_le_of_dayAfter? hnext h) with hahead | hsame
  · have hrest := dayNumber_lt hahead
    omega
  · rw [← eq_of_rank_eq hsame]
    omega
termination_by (e.rank - d.rank).toNat
decreasing_by omega

/-- The date with the next number is the one after it, and there is no other. -/
theorem dayAfter?_eq_some_iff : d.dayAfter? = some e ↔ e.dayNumber = d.dayNumber + 1 := by
  refine ⟨dayNumber_dayAfter, fun h => ?_⟩
  have hlt : d.rank < e.rank := by
    by_contra hn
    rcases lt_or_eq_of_le (not_lt.mp hn) with hback | hsame
    · have hnumber := dayNumber_lt hback
      omega
    · rw [eq_of_rank_eq hsame] at h
      omega
  obtain ⟨next, hnext⟩ := dayAfter?_exists_of_lt hlt
  have hone := dayNumber_dayAfter hnext
  rcases lt_or_eq_of_le (rank_le_of_dayAfter? hnext hlt) with hahead | hsame
  · have hnumber := dayNumber_lt hahead
    omega
  · rw [hnext, eq_of_rank_eq hsame]

/-- A month ends where the date after it, if there is one, is a first. -/
theorem day_eq_daysInMonth_iff :
    d.day = d.daysInMonth ↔ ∀ e : Date, e.dayNumber = d.dayNumber + 1 → e.day = 1 := by
  constructor
  · intro hlast e he
    have hafter := dayAfter?_eq_some_iff.mpr he
    rw [dayAfter?_of_last hlast] at hafter
    exact (monthAfter?_parts hafter).1
  · intro h
    by_contra hne
    have hd := d.day_mem
    have hlt : d.day < d.daysInMonth := Nat.lt_of_le_of_ne hd.2 hne
    obtain ⟨e, he⟩ := Instant.withDay?_exists (d := d) ⟨Nat.le_add_left 1 d.day, hlt⟩
    have hday := (withDay?_eq_some_iff.mp he).2
    have hafter : d.dayAfter? = some e := by rw [dayAfter?, if_pos hlt, he]
    have hfirst := h e (dayNumber_dayAfter hafter)
    omega

end Date

/-- The length of a month is right for every date of the calendar, also in its last December, which
no month follows. It is what the calendar shows, and it is how many dates the month has. A date is the
last of its month iff the date after it, if there is one, is a first; and every date but the last of
the calendar has a date after it, by the count of days that the weekdays follow too. -/
theorem month_length_exact (d : Date) :
    d.daysInMonth = d.lengthByNextMonth ∧
      {e : Date | e.year = d.year ∧ e.month = d.month}.ncard = d.lengthByNextMonth ∧
      (d.day = d.lengthByNextMonth ↔ ∀ e : Date, e.dayNumber = d.dayNumber + 1 → e.day = 1) ∧
      ((d.year = lastYear ∧ d.month = 12 ∧ d.day = 31) ∨
        ∃ e : Date, e.dayNumber = d.dayNumber + 1) := by
  rw [d.lengthByNextMonth_eq]
  refine ⟨rfl, d.ncard_month, Date.day_eq_daysInMonth_iff, ?_⟩
  by_cases hlast : d.year = lastYear ∧ d.month = 12 ∧ d.day = 31
  · exact Or.inl hlast
  · obtain ⟨e, he⟩ := Date.dayAfter?_exists_of_ne hlast
    exact Or.inr ⟨e, Date.dayNumber_dayAfter he⟩

-- From the last December there is no month to go on to.
example : Date.oneMonthOn? ⟨lastYear, 12, 1, by decide, by decide, by decide⟩ = none ∧
    Date.lengthByNextMonth ⟨lastYear, 12, 7, by decide, by decide, by decide⟩ = 31 := by
  decide

end Timetable
