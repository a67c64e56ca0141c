import Timetable.Proofs.Leaving

namespace Timetable

namespace Date

/-- Whether a date falls on a day of the week, counted from Sunday. The first day of 2000 was a
Saturday, and the seven days follow each other in turn. -/
inductive FallsOn : Date → Nat → Prop
  | anchor {d : Date} (hy : d.year = 2000) (hm : d.month = 1) (hd : d.day = 1) : FallsOn d 6
  | after {d e : Date} {w : Nat} (h : FallsOn d w) (he : d.dayAfter? = some e) :
    FallsOn e ((w + 1) % 7)
  | before {d e : Date} {w : Nat} (h : FallsOn e w) (he : d.dayAfter? = some e) :
    FallsOn d ((w + 6) % 7)

/-- Whether no date of the same month is later. -/
def IsLastOfMonth (d : Date) : Prop :=
  ∀ e : Date, e.year = d.year → e.month = d.month → e.day ≤ d.day

variable {d e : Date}

theorem isLastOfMonth_iff : d.IsLastOfMonth ↔ d.day = d.daysInMonth := by
  have hd := d.day_mem
  constructor
  · intro h
    have hlast := h ⟨d.year, d.month, d.daysInMonth, d.year_mem, d.month_mem,
      monthLength_pos _ _, Nat.le_refl _⟩ rfl rfl
    exact Nat.le_antisymm hd.2 hlast
  · intro h e hy hm
    have he := e.day_mem.2
    rw [hy, hm] at he
    rw [h]
    exact he

/-- Consecutive dates have consecutive numbers, over the ends of months and years too. -/
theorem dayNumber_dayAfter (h : d.dayAfter? = some e) : e.dayNumber = d.dayNumber + 1 := by
  have hm := d.month_mem
  have hd := d.day_mem.1
  rcases dayAfter?_parts h with ⟨hy, hmonth, hday⟩ | ⟨hlast, hfirst, hnext⟩
  · simp only [dayNumber, hy, hmonth, hday]
    omega
  · rcases (monthAfter?_parts hnext).2 with ⟨hy, hmonth⟩ | ⟨hdec, hjan, hyear⟩
    · have hm' := e.month_mem.2
      have hcases : d.month = 1 ∨ d.month = 2 ∨ d.month = 3 ∨ d.month = 4 ∨ d.month = 5 ∨
          d.month = 6 ∨ d.month = 7 ∨ d.month = 8 ∨ d.month = 9 ∨ d.month = 10 ∨
          d.month = 11 := by omega
      simp only [daysInMonth] at hlast
      -- The months differ in their lengths, and only February's depends on the year.
      rcases hcases with hc | hc | hc | hc | hc | hc | hc | hc | hc | hc | hc
      case inr.inl =>
        simp only [hc, monthLength, isLeapYear, decide_eq_true_eq] at hlast
        simp only [dayNumber, hy, hmonth, hc, hfirst, Nat.reduceAdd, Nat.reduceLeDiff, ↓reduceIte]
        split at hlast
        · omega
        · omega
      all_goals
        simp only [hc, monthLength] at hlast
        simp only [dayNumber, hy, hmonth, hc, hfirst, hlast]
        omega
    · obtain ⟨hy, -, -⟩ := yearAfter?_parts hyear
      have hlen : d.day = 31 := by rw [hlast, daysInMonth, hdec]; rfl
      simp only [dayNumber, hy, hjan, hdec, hfirst, hlen]
      omega

theorem weekday_lt (d : Date) : d.weekday < 7 := by
  unfold weekday
  omega

theorem weekday_dayAfter (h : d.dayAfter? = some e) : e.weekday = (d.weekday + 1) % 7 := by
  have hn := dayNumber_dayAfter h
  unfold weekday
  omega

theorem weekday_anchor (hy : d.year = 2000) (hm : d.month = 1) (hd : d.day = 1) :
    d.weekday = 6 := by
  simp [weekday, dayNumber, hy, hm, hd]

theorem FallsOn.eq_weekday {w : Nat} (h : d.FallsOn w) : w = d.weekday := by
  induction h with
  | anchor hy hm hd => exact (weekday_anchor hy hm hd).symm
  | after _ he ih => rw [ih, weekday_dayAfter he]
  | @before d e w _ he ih =>
    have hlt := d.weekday_lt
    rw [ih, weekday_dayAfter he]
    omega

theorem ofParts?_self (d : Date) : ofParts? d.year d.month d.day = some d :=
  dif_pos ⟨d.year_mem, d.month_mem, d.day_mem⟩

theorem dayAfter?_of_dayBefore? (h : d.dayBefore? = some e) : e.dayAfter? = some d := by
  have hself := d.ofParts?_self
  have hd := d.day_mem.2
  have hm := d.month_mem.2
  unfold dayAfter? withDay? daysInMonth
  rcases dayBefore?_parts h with ⟨hy, hmonth, hday, hlt⟩ | ⟨hfirst, hlast, hprev⟩
  · rw [hy, hmonth, if_pos (by omega), show e.day + 1 = d.day by omega]
    exact hself
  · unfold daysInMonth at hlast
    rw [if_neg (by omega), monthAfter?]
    rw [hfirst] at hself
    rcases (monthBefore?_parts hprev).2 with ⟨hy, hmonth, hlt⟩ | ⟨hjan, hdec, hyear⟩
    · rw [if_pos (by omega), hy, show e.month + 1 = d.month by omega]
      exact hself
    · have hy := (yearBefore?_parts hyear).1
      rw [if_neg (by omega), yearAfter?, show e.year + 1 = d.year by omega]
      rw [hjan] at hself
      exact hself

/-- From 2000 on every date is reached day by day from the first. -/
theorem fallsOn_weekday_of_le (d : Date) (hd : 2000 ≤ d.year) : d.FallsOn d.weekday := by
  by_cases hfirst : d.year = 2000 ∧ d.month = 1 ∧ d.day = 1
  · obtain ⟨hy, hm, hday⟩ := hfirst
    rw [weekday_anchor hy hm hday]
    exact FallsOn.anchor hy hm hday
  · -- The day before still lies in 2000 or later, since only the first day of a year leaves it.
    obtain ⟨e, he⟩ := dayBefore?_exists (d := d) (by unfold firstYear; omega)
    have hback := dayAfter?_of_dayBefore? he
    have hlt := rank_gt_dayBefore he
    have hpos : 0 < d.rank := by
      have hm := d.month_mem.1
      unfold rank
      omega
    have hy : 2000 ≤ e.year := by
      rcases dayBefore?_parts he with ⟨hy, -⟩ | ⟨hday, -, hmonth⟩
      · omega
      · rcases (monthBefore?_parts hmonth).2 with ⟨hy, -⟩ | ⟨hm, -, hyear⟩
        · omega
        · have hy := (yearBefore?_parts hyear).1
          omega
    rw [weekday_dayAfter hback]
    exact (fallsOn_weekday_of_le e hy).after hback
termination_by d.rank.toNat
decreasing_by omega

theorem fallsOn_weekday (d : Date) : d.FallsOn d.weekday := by
  by_cases hd : 2000 ≤ d.year
  · exact fallsOn_weekday_of_le d hd
  · obtain ⟨e, he⟩ := dayAfter?_exists (d := d) (by unfold lastYear; omega)
    have hlt := rank_lt_dayAfter he
    have hw : d.weekday = (e.weekday + 6) % 7 := by
      have hd := d.weekday_lt
      rw [weekday_dayAfter he]
      omega
    rw [hw]
    exact (fallsOn_weekday e).before he
termination_by (2001 * 372 - d.rank).toNat
decreasing_by
  have hm := d.month_mem.2
  have hday := d.day_le_31
  have hbound : d.rank < 2001 * 372 := by
    unfold rank
    omega
  omega

theorem fallsOn_iff {w : Nat} : d.FallsOn w ↔ w = d.weekday := by
  constructor
  · exact FallsOn.eq_weekday
  · rintro rfl
    exact fallsOn_weekday d

-- A Thursday, since 1900 had no leap day.
example : weekday ⟨1900, 3, 1, by decide, by decide, by decide⟩ = 4 := by decide

end Date

end Timetable
