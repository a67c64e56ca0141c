import Timetable.Proofs.Adjacent

namespace Timetable

namespace Instant

theorem isEdge_second_start {j : Instant} (hn : j.time.nano = 0) :
    Direction.forward.IsEdge .second j := by
  have hw : j.IsWhole := by rw [IsWhole, hn]
  refine (Direction.isEdge_millisecond hw).parent (by decide) rfl ?_
  refine meetsFirst_forward (by decide) ?_
  rw [value, hn]
  rfl

theorem isEdge_second_end {j : Instant} (hn : j.time.nano = 999000000) :
    Direction.backward.IsEdge .second j := by
  have hw : j.IsWhole := by rw [IsWhole, hn]
  refine (Direction.isEdge_millisecond hw).parent (by decide) rfl ?_
  refine meetsFirst_backward (by decide) (by decide) ?_
  rw [value, hn]
  rfl

theorem isEdge_minute_start {j : Instant} (h : j.time.second = 0 ∧ j.time.nano = 0) :
    Direction.forward.IsEdge .minute j := by
  refine (isEdge_second_start h.2).parent (by decide) rfl ?_
  exact meetsFirst_forward (by decide) (congrArg Int.ofNat h.1)

theorem isEdge_minute_end {j : Instant} (h : j.time.second = 59 ∧ j.time.nano = 999000000) :
    Direction.backward.IsEdge .minute j := by
  refine (isEdge_second_end h.2).parent (by decide) rfl ?_
  exact meetsFirst_backward (by decide) (by decide) (congrArg Int.ofNat h.1)

theorem isEdge_hour_start {j : Instant}
    (h : j.time.minute = 0 ∧ j.time.second = 0 ∧ j.time.nano = 0) :
    Direction.forward.IsEdge .hour j := by
  refine (isEdge_minute_start h.2).parent (by decide) rfl ?_
  exact meetsFirst_forward (by decide) (congrArg Int.ofNat h.1)

theorem isEdge_hour_end {j : Instant}
    (h : j.time.minute = 59 ∧ j.time.second = 59 ∧ j.time.nano = 999000000) :
    Direction.backward.IsEdge .hour j := by
  refine (isEdge_minute_end h.2).parent (by decide) rfl ?_
  exact meetsFirst_backward (by decide) (by decide) (congrArg Int.ofNat h.1)

theorem isEdge_day_start (d : Date) : Direction.forward.IsEdge .day (dayStart d) := by
  refine (isEdge_hour_start ⟨rfl, rfl, rfl⟩).parent (by decide) rfl ?_
  exact meetsFirst_forward (by decide) rfl

theorem isEdge_day_end (d : Date) : Direction.backward.IsEdge .day (dayEnd d) := by
  refine (isEdge_hour_end ⟨rfl, rfl, rfl⟩).parent (by decide) rfl ?_
  exact meetsFirst_backward (by decide) (by decide) rfl

theorem isEdge_month_start {d : Date} (h : d.day = 1) :
    Direction.forward.IsEdge .month (dayStart d) := by
  refine (isEdge_day_start d).parent (by decide) rfl ?_
  exact meetsFirst_forward (by decide) (congrArg Int.ofNat h)

theorem isEdge_month_end {d : Date} (h : d.day = d.daysInMonth) :
    Direction.backward.IsEdge .month (dayEnd d) := by
  refine (isEdge_day_end d).parent (by decide) rfl ?_
  exact meetsFirst_backward_day h

theorem isEdge_year_start {d : Date} (h : d.month = 1 ∧ d.day = 1) :
    Direction.forward.IsEdge .year (dayStart d) := by
  refine (isEdge_month_start h.2).parent (by decide) rfl ?_
  exact meetsFirst_forward (by decide) (congrArg Int.ofNat h.1)

theorem isEdge_year_end {d : Date} (h : d.month = 12 ∧ d.day = 31) :
    Direction.backward.IsEdge .year (dayEnd d) := by
  have hlast : d.day = d.daysInMonth := by
    rw [Date.daysInMonth, h.1, h.2]
    rfl
  refine (isEdge_month_end hlast).parent (by decide) rfl ?_
  exact meetsFirst_backward (by decide) (by decide) (congrArg Int.ofNat h.1)

theorem isPlain_of_nano_eq {j : Instant} {milli : Nat} (hm : milli < 1000)
    (hn : j.time.nano = milli * 1000000) : j.IsPlain := by
  unfold IsPlain IsWhole IsLeap
  omega

theorem isPlain_dayStart (d : Date) : (dayStart d).IsPlain :=
  isPlain_of_nano_eq (show 0 < 1000 by decide) rfl

theorem isPlain_dayEnd (d : Date) : (dayEnd d).IsPlain :=
  isPlain_of_nano_eq (show 999 < 1000 by decide) rfl

theorem leaves_yearAfter {i : Instant} {e : Date} (h : i.date.yearAfter? = some e) :
    Direction.forward.Leaves .year i (dayStart e) := by
  obtain ⟨hy, hm, hd⟩ := Date.yearAfter?_parts h
  refine Direction.leaves_of_isEdge (isEdge_year_start ⟨hm, hd⟩) fun p => ?_
  show i.date.year < p ↔ e.year ≤ p
  omega

theorem leaves_monthAfter {i : Instant} {e : Date} (h : i.date.monthAfter? = some e) :
    Direction.forward.Leaves .month i (dayStart e) := by
  obtain ⟨hd, ⟨hy, hm⟩ | ⟨hlast, -, hyear⟩⟩ := Date.monthAfter?_parts h
  · refine Direction.leaves_of_isEdge (isEdge_month_start hd) fun p => ?_
    show i.date.year * 12 + i.date.month < p ↔ e.year * 12 + e.month ≤ p
    omega
  · refine (leaves_yearAfter hyear).of_parent (by decide) rfl ?_
    exact meetsFirst_backward (by decide) (by decide) (congrArg Int.ofNat hlast)

theorem leaves_dayAfter {i : Instant} {e : Date} (h : i.date.dayAfter? = some e) :
    Direction.forward.Leaves .day i (dayStart e) := by
  rcases Date.dayAfter?_parts h with ⟨hy, hm, hd⟩ | ⟨hlast, -, hmonth⟩
  · refine Direction.leaves_of_isEdge (isEdge_day_start e) fun p => ?_
    show i.date.rank < p ↔ e.rank ≤ p
    simp only [Date.rank]
    omega
  · refine (leaves_monthAfter hmonth).of_parent (by decide) rfl ?_
    exact meetsFirst_backward_day hlast

theorem leaves_hourAfter {i j : Instant} (h : i.hourAfter? = some j) :
    Direction.forward.Leaves .hour i j := by
  obtain ⟨hfine, ⟨hd, hh⟩ | ⟨hlast, -, hday⟩⟩ := hourAfter?_parts h
  · refine Direction.leaves_of_isEdge (isEdge_hour_start hfine) fun p => ?_
    show i.date.rank * 24 + i.time.hour < p ↔ j.date.rank * 24 + j.time.hour ≤ p
    rw [hd]
    omega
  · obtain ⟨e, he, rfl⟩ := Option.map_eq_some_iff.mp hday
    refine (leaves_dayAfter he).of_parent (by decide) rfl ?_
    exact meetsFirst_backward (by decide) (by decide) (congrArg Int.ofNat hlast)

theorem leaves_minuteAfter {i j : Instant} (h : i.minuteAfter? = some j) :
    Direction.forward.Leaves .minute i j := by
  obtain ⟨hfine, ⟨hd, hh, hm⟩ | ⟨hlast, -, hhour⟩⟩ := minuteAfter?_parts h
  · refine Direction.leaves_of_isEdge (isEdge_minute_start hfine) fun p => ?_
    show (i.date.rank * 24 + i.time.hour) * 60 + i.time.minute < p ↔
      (j.date.rank * 24 + j.time.hour) * 60 + j.time.minute ≤ p
    rw [hd, hh]
    omega
  · refine (leaves_hourAfter hhour).of_parent (by decide) rfl ?_
    exact meetsFirst_backward (by decide) (by decide) (congrArg Int.ofNat hlast)

theorem leaves_secondAfter {i j : Instant} (h : i.secondAfter? = some j) :
    Direction.forward.Leaves .second i j := by
  obtain ⟨hfine, ⟨hd, hs, -⟩ | ⟨hlast, -, hminute⟩⟩ := secondAfter?_parts h
  · refine Direction.leaves_of_isEdge (isEdge_second_start hfine) fun p => ?_
    show i.date.rank * 86400 + i.time.secondOfDay < p ↔
      j.date.rank * 86400 + j.time.secondOfDay ≤ p
    rw [hd]
    omega
  · refine (leaves_minuteAfter hminute).of_parent (by decide) rfl ?_
    exact meetsFirst_backward (by decide) (by decide) (congrArg Int.ofNat hlast)

theorem leaves_yearBefore {i : Instant} {e : Date} (h : i.date.yearBefore? = some e) :
    Direction.backward.Leaves .year i (dayEnd e) := by
  obtain ⟨hy, hm, hd⟩ := Date.yearBefore?_parts h
  refine Direction.leaves_of_isEdge (isEdge_year_end ⟨hm, hd⟩) fun p => ?_
  show p < i.date.year ↔ p ≤ e.year
  omega

theorem leaves_monthBefore {i : Instant} {e : Date} (h : i.date.monthBefore? = some e) :
    Direction.backward.Leaves .month i (dayEnd e) := by
  obtain ⟨hd, ⟨hy, hm, hlt⟩ | ⟨hfirst, -, hyear⟩⟩ := Date.monthBefore?_parts h
  · refine Direction.leaves_of_isEdge (isEdge_month_end hd) fun p => ?_
    show p < i.date.year * 12 + i.date.month ↔ p ≤ e.year * 12 + e.month
    omega
  · refine (leaves_yearBefore hyear).of_parent (by decide) rfl ?_
    exact meetsFirst_forward (by decide) (congrArg Int.ofNat hfirst)

theorem leaves_dayBefore {i : Instant} {e : Date} (h : i.date.dayBefore? = some e) :
    Direction.backward.Leaves .day i (dayEnd e) := by
  rcases Date.dayBefore?_parts h with ⟨hy, hm, hd, hlt⟩ | ⟨hfirst, -, hmonth⟩
  · refine Direction.leaves_of_isEdge (isEdge_day_end e) fun p => ?_
    show p < i.date.rank ↔ p ≤ e.rank
    simp only [Date.rank]
    omega
  · refine (leaves_monthBefore hmonth).of_parent (by decide) rfl ?_
    exact meetsFirst_forward (by decide) (congrArg Int.ofNat hfirst)

theorem leaves_hourBefore {i j : Instant} (h : i.hourBefore? = some j) :
    Direction.backward.Leaves .hour i j := by
  obtain ⟨hfine, ⟨hd, hh, hlt⟩ | ⟨hfirst, -, hday⟩⟩ := hourBefore?_parts h
  · refine Direction.leaves_of_isEdge (isEdge_hour_end hfine) fun p => ?_
    show p < i.date.rank * 24 + i.time.hour ↔ p ≤ j.date.rank * 24 + j.time.hour
    rw [hd]
    omega
  · obtain ⟨e, he, rfl⟩ := Option.map_eq_some_iff.mp hday
    refine (leaves_dayBefore he).of_parent (by decide) rfl ?_
    exact meetsFirst_forward (by decide) (congrArg Int.ofNat hfirst)

theorem leaves_minuteBefore {i j : Instant} (h : i.minuteBefore? = some j) :
    Direction.backward.Leaves .minute i j := by
  obtain ⟨hfine, ⟨hd, hh, hm, hlt⟩ | ⟨hfirst, -, hhour⟩⟩ := minuteBefore?_parts h
  · refine Direction.leaves_of_isEdge (isEdge_minute_end hfine) fun p => ?_
    show p < (i.date.rank * 24 + i.time.hour) * 60 + i.time.minute ↔
      p ≤ (j.date.rank * 24 + j.time.hour) * 60 + j.time.minute
    rw [hd, hh]
    omega
  · refine (leaves_hourBefore hhour).of_parent (by decide) rfl ?_
    exact meetsFirst_forward (by decide) (congrArg Int.ofNat hfirst)

theorem leaves_secondBefore {i j : Instant} (h : i.secondBefore? = some j) :
    Direction.backward.Leaves .second i j := by
  obtain ⟨hfine, ⟨hd, hs, -⟩ | ⟨hfirst, -, hminute⟩⟩ := secondBefore?_parts h
  · refine Direction.leaves_of_isEdge (isEdge_second_end hfine) fun p => ?_
    show p < i.date.rank * 86400 + i.time.secondOfDay ↔
      p ≤ j.date.rank * 86400 + j.time.secondOfDay
    rw [hd]
    omega
  · refine (leaves_minuteBefore hminute).of_parent (by decide) rfl ?_
    exact meetsFirst_forward (by decide) (congrArg Int.ofNat hfirst)

end Instant

end Timetable
