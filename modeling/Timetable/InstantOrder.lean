import Timetable.Direction
import Timetable.Instant

namespace Timetable

theorem Date.ofParts?_eq_some {year : Int} {month day : Nat} {d : Date}
    (h : Date.ofParts? year month day = some d) :
    d.year = year ∧ d.month = month ∧ d.day = day := by
  unfold Date.ofParts? at h
  split at h
  next => cases h; exact ⟨rfl, rfl, rfl⟩
  next => cases h

theorem TimeOfDay.ofParts?_eq_some {hour minute second nano : Nat} {t : TimeOfDay}
    (h : TimeOfDay.ofParts? hour minute second nano = some t) :
    t.hour = hour ∧ t.minute = minute ∧ t.second = second ∧ t.nano = nano := by
  unfold TimeOfDay.ofParts? at h
  split at h
  next => cases h; exact ⟨rfl, rfl, rfl, rfl⟩
  next => cases h

theorem Date.day_le_31 (d : Date) : d.day ≤ 31 := Nat.le_trans d.day_mem.2 (monthLength_le _ _)

/-- Dates are ordered as these numbers are. -/
def Date.rank (d : Date) : Int := (d.year * 12 + d.month) * 31 + d.day

/-- The number of the second within the day. A leap second counts as part of the
second that it follows. -/
def TimeOfDay.secondOfDay (t : TimeOfDay) : Nat := (t.hour * 60 + t.minute) * 60 + t.second

theorem TimeOfDay.secondOfDay_lt (t : TimeOfDay) : t.secondOfDay < 86400 := by
  have := t.hour_lt
  have := t.minute_lt
  have := t.second_lt
  unfold secondOfDay
  omega

namespace Instant

theorem rank_eq (i : Instant) :
    i.rank = (i.date.rank * 86400 + i.time.secondOfDay) * 2000000000 + i.time.nano := by
  simp only [rank, secondSlot, Date.rank, TimeOfDay.secondOfDay]
  omega

theorem lt_of_date_lt {i j : Instant} (h : i.date.rank < j.date.rank) : i < j := by
  have := i.time.secondOfDay_lt
  have := i.time.nano_lt
  show i.rank < j.rank
  rw [rank_eq, rank_eq]
  omega

theorem lt_of_second_lt {i j : Instant} (hd : i.date = j.date)
    (h : i.time.secondOfDay < j.time.secondOfDay) : i < j := by
  have := i.time.nano_lt
  show i.rank < j.rank
  rw [rank_eq, rank_eq, hd]
  omega

theorem lt_of_nano_lt {i j : Instant} (hd : i.date = j.date)
    (hs : i.time.secondOfDay = j.time.secondOfDay) (h : i.time.nano < j.time.nano) : i < j := by
  show i.rank < j.rank
  rw [rank_eq, rank_eq, hd, hs]
  omega

/-- A rank above that of every instant. -/
def rankLimit : Int := (lastYear + 2) * 372 * 86400 * 2000000000

/-- A rank below that of every instant. -/
def rankFloor : Int := firstYear * 372 * 86400 * 2000000000

theorem rank_lt_limit (i : Instant) : i.rank < rankLimit := by
  have := i.date.year_mem.2
  have := i.date.month_mem.2
  have := i.date.day_le_31
  have := i.time.secondOfDay_lt
  have := i.time.nano_lt
  rw [rank_eq]
  simp only [rankLimit, lastYear, Date.rank] at *
  omega

theorem floor_lt_rank (i : Instant) : rankFloor < i.rank := by
  have := i.date.year_mem.1
  have := i.date.month_mem.1
  have := i.date.day_mem.1
  rw [rank_eq]
  simp only [rankFloor, firstYear, Date.rank] at *
  omega

end Instant

/-- Whether `j` lies farther on than `i`. -/
def Direction.Beyond (dir : Direction) (i j : Instant) : Prop :=
  match dir with
  | .forward => i < j
  | .backward => j < i

/-- How much of the calendar a search from `i` still has before it. -/
def Direction.room (dir : Direction) (i : Instant) : Nat :=
  match dir with
  | .forward => (Instant.rankLimit - i.rank).toNat
  | .backward => (i.rank - Instant.rankFloor).toNat

theorem Direction.Beyond.room_lt {dir : Direction} {i j : Instant} (h : dir.Beyond i j) :
    dir.room j < dir.room i := by
  have := i.rank_lt_limit
  have := i.floor_lt_rank
  cases dir
  · have h : i.rank < j.rank := h
    simp only [room]
    omega
  · have h : j.rank < i.rank := h
    simp only [room]
    omega

theorem Direction.Beyond.trans {dir : Direction} {i j k : Instant} (h : dir.Beyond i j)
    (h' : dir.Beyond j k) : dir.Beyond i k := by
  cases dir
  · exact Int.lt_trans h h'
  · exact Int.lt_trans h' h

namespace Date

theorem rank_lt_yearAfter {d e : Date} (h : d.yearAfter? = some e) : d.rank < e.rank := by
  obtain ⟨hy, hm, hd⟩ := ofParts?_eq_some h
  have := d.month_mem.2
  have := d.day_le_31
  simp only [rank, hy, hm, hd]
  omega

theorem rank_lt_monthAfter {d e : Date} (h : d.monthAfter? = some e) : d.rank < e.rank := by
  unfold monthAfter? at h
  split at h
  next =>
    obtain ⟨hy, hm, hd⟩ := ofParts?_eq_some h
    have := d.day_le_31
    simp only [rank, hy, hm, hd]
    omega
  next => exact rank_lt_yearAfter h

theorem rank_lt_dayAfter {d e : Date} (h : d.dayAfter? = some e) : d.rank < e.rank := by
  unfold dayAfter? at h
  split at h
  next =>
    obtain ⟨hy, hm, hd⟩ := ofParts?_eq_some h
    simp only [rank, hy, hm, hd]
    omega
  next => exact rank_lt_monthAfter h

theorem rank_gt_yearBefore {d e : Date} (h : d.yearBefore? = some e) : e.rank < d.rank := by
  obtain ⟨hy, hm, hd⟩ := ofParts?_eq_some h
  have := d.month_mem.1
  have := d.day_mem.1
  simp only [rank, hy, hm, hd]
  omega

theorem rank_gt_monthBefore {d e : Date} (h : d.monthBefore? = some e) : e.rank < d.rank := by
  unfold monthBefore? at h
  split at h
  next =>
    obtain ⟨hy, hm, hd⟩ := ofParts?_eq_some h
    have := d.day_mem.1
    have := monthLength_le d.year (d.month - 1)
    simp only [rank, hy, hm, hd]
    omega
  next => exact rank_gt_yearBefore h

theorem rank_gt_dayBefore {d e : Date} (h : d.dayBefore? = some e) : e.rank < d.rank := by
  unfold dayBefore? at h
  split at h
  next =>
    obtain ⟨hy, hm, hd⟩ := ofParts?_eq_some h
    simp only [rank, hy, hm, hd]
    omega
  next => exact rank_gt_monthBefore h

end Date

namespace Instant

theorem atTime?_eq_some {i j : Instant} {hour minute second milli : Nat}
    (h : i.atTime? hour minute second milli = some j) :
    j.date = i.date ∧ j.time.hour = hour ∧ j.time.minute = minute ∧ j.time.second = second ∧
      j.time.nano = milli * 1000000 := by
  obtain ⟨t, ht, rfl⟩ := Option.map_eq_some_iff.mp h
  exact ⟨rfl, TimeOfDay.ofParts?_eq_some ht⟩

theorem secondOfDay_of_atTime? {i j : Instant} {hour minute second milli : Nat}
    (h : i.atTime? hour minute second milli = some j) :
    i.date = j.date ∧ j.time.secondOfDay = (hour * 60 + minute) * 60 + second := by
  obtain ⟨hd, hh, hm, hs, -⟩ := atTime?_eq_some h
  exact ⟨hd.symm, by simp only [TimeOfDay.secondOfDay, hh, hm, hs]⟩

theorem lt_of_map_dayStart {i j : Instant} {d : Option Date}
    (hd : ∀ e, d = some e → i.date.rank < e.rank) (h : d.map dayStart = some j) : i < j := by
  obtain ⟨e, he, rfl⟩ := Option.map_eq_some_iff.mp h
  exact lt_of_date_lt (hd e he)

theorem gt_of_map_dayEnd {i j : Instant} {d : Option Date}
    (hd : ∀ e, d = some e → e.rank < i.date.rank) (h : d.map dayEnd = some j) : j < i := by
  obtain ⟨e, he, rfl⟩ := Option.map_eq_some_iff.mp h
  exact lt_of_date_lt (hd e he)

theorem lt_dayStart {i j : Instant} {year : Int} {month day : Nat}
    (hr : i.date.rank < (year * 12 + month) * 31 + day)
    (h : (Date.ofParts? year month day).map dayStart = some j) : i < j := by
  refine lt_of_map_dayStart (fun e he => ?_) h
  obtain ⟨hy, hm, hd⟩ := Date.ofParts?_eq_some he
  simpa only [Date.rank, hy, hm, hd] using hr

theorem gt_dayEnd {i j : Instant} {year : Int} {month day : Nat}
    (hr : (year * 12 + month) * 31 + day < i.date.rank)
    (h : (Date.ofParts? year month day).map dayEnd = some j) : j < i := by
  refine gt_of_map_dayEnd (fun e he => ?_) h
  obtain ⟨hy, hm, hd⟩ := Date.ofParts?_eq_some he
  simpa only [Date.rank, hy, hm, hd] using hr

theorem lt_hourAfter {i j : Instant} (h : i.hourAfter? = some j) : i < j := by
  unfold hourAfter? at h
  split at h
  next =>
    obtain ⟨hd, hs⟩ := secondOfDay_of_atTime? h
    have := i.time.minute_lt
    have := i.time.second_lt
    apply lt_of_second_lt hd
    rw [hs, TimeOfDay.secondOfDay]
    omega
  next => exact lt_of_map_dayStart (fun _ => Date.rank_lt_dayAfter) h

theorem lt_minuteAfter {i j : Instant} (h : i.minuteAfter? = some j) : i < j := by
  unfold minuteAfter? at h
  split at h
  next =>
    obtain ⟨hd, hs⟩ := secondOfDay_of_atTime? h
    have := i.time.second_lt
    apply lt_of_second_lt hd
    rw [hs, TimeOfDay.secondOfDay]
    omega
  next => exact lt_hourAfter h

theorem lt_secondAfter {i j : Instant} (h : i.secondAfter? = some j) : i < j := by
  unfold secondAfter? at h
  split at h
  next =>
    obtain ⟨hd, hs⟩ := secondOfDay_of_atTime? h
    apply lt_of_second_lt hd
    rw [hs, TimeOfDay.secondOfDay]
    omega
  next => exact lt_minuteAfter h

theorem gt_hourBefore {i j : Instant} (h : i.hourBefore? = some j) : j < i := by
  unfold hourBefore? at h
  split at h
  next =>
    obtain ⟨hd, hs⟩ := secondOfDay_of_atTime? h
    apply lt_of_second_lt hd.symm
    rw [hs, TimeOfDay.secondOfDay]
    omega
  next => exact gt_of_map_dayEnd (fun _ => Date.rank_gt_dayBefore) h

theorem gt_minuteBefore {i j : Instant} (h : i.minuteBefore? = some j) : j < i := by
  unfold minuteBefore? at h
  split at h
  next =>
    obtain ⟨hd, hs⟩ := secondOfDay_of_atTime? h
    apply lt_of_second_lt hd.symm
    rw [hs, TimeOfDay.secondOfDay]
    omega
  next => exact gt_hourBefore h

theorem gt_secondBefore {i j : Instant} (h : i.secondBefore? = some j) : j < i := by
  unfold secondBefore? at h
  split at h
  next =>
    obtain ⟨hd, hs⟩ := secondOfDay_of_atTime? h
    apply lt_of_second_lt hd.symm
    rw [hs, TimeOfDay.secondOfDay]
    omega
  next => exact gt_minuteBefore h

/-- Entering a later unit of a field leads forward. -/
theorem lt_unitStart {i j : Instant} {f : Field} {v : Nat} (hf : f ≠ .weekday)
    (hv : i.value f < v) (h : i.unitStart? f v = some j) : i < j := by
  have := i.date.month_mem.2
  have := i.date.day_le_31
  have := i.time.minute_lt
  have := i.time.second_lt
  cases f <;> simp only [value, unitStart?, Date.withDay?] at hv h
  case weekday => exact absurd rfl hf
  case year => exact lt_dayStart (by simp only [Date.rank]; omega) h
  case month => exact lt_dayStart (by simp only [Date.rank]; omega) h
  case day => exact lt_dayStart (by simp only [Date.rank]; omega) h
  case millisecond =>
    obtain ⟨hd, hh, hm, hs, hn⟩ := atTime?_eq_some h
    apply lt_of_nano_lt hd.symm
    · simp only [TimeOfDay.secondOfDay, hh, hm, hs]
    · omega
  all_goals
    obtain ⟨hd, hs⟩ := secondOfDay_of_atTime? h
    apply lt_of_second_lt hd
    rw [hs, TimeOfDay.secondOfDay]
    omega

/-- Entering an earlier unit of a field leads backward. -/
theorem gt_unitEnd {i j : Instant} {f : Field} {v : Nat} (hf : f ≠ .weekday)
    (hv : v < i.value f) (h : i.unitEnd? f v = some j) : j < i := by
  have := i.date.month_mem.1
  have := i.date.day_mem.1
  cases f <;> simp only [value, unitEnd?, Date.withDay?] at hv h
  case weekday => exact absurd rfl hf
  case year => exact gt_dayEnd (by simp only [Date.rank]; omega) h
  case month =>
    have := monthLength_le i.date.year v
    exact gt_dayEnd (by simp only [Date.rank]; omega) h
  case day => exact gt_dayEnd (by simp only [Date.rank]; omega) h
  case millisecond =>
    obtain ⟨hd, hh, hm, hs, hn⟩ := atTime?_eq_some h
    apply lt_of_nano_lt hd
    · simp only [TimeOfDay.secondOfDay, hh, hm, hs]
    · omega
  all_goals
    obtain ⟨hd, hs⟩ := secondOfDay_of_atTime? h
    apply lt_of_second_lt hd.symm
    rw [hs, TimeOfDay.secondOfDay]
    omega

end Instant

end Timetable
