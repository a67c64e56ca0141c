import Timetable.Proofs.Edge

namespace Timetable

namespace Date

theorem yearAfter?_parts {d e : Date} (h : d.yearAfter? = some e) :
    e.year = d.year + 1 ∧ e.month = 1 ∧ e.day = 1 := ofParts?_eq_some h

theorem monthAfter?_parts {d e : Date} (h : d.monthAfter? = some e) :
    e.day = 1 ∧ (e.year = d.year ∧ e.month = d.month + 1 ∨
      d.month = 12 ∧ e.month = 1 ∧ d.yearAfter? = some e) := by
  have hm := d.month_mem.2
  unfold monthAfter? at h
  split at h
  next =>
    obtain ⟨hy, hmonth, hday⟩ := ofParts?_eq_some h
    exact ⟨hday, Or.inl ⟨hy, hmonth⟩⟩
  next =>
    obtain ⟨-, hmonth, hday⟩ := yearAfter?_parts h
    exact ⟨hday, Or.inr ⟨by omega, hmonth, h⟩⟩

theorem dayAfter?_parts {d e : Date} (h : d.dayAfter? = some e) :
    e.year = d.year ∧ e.month = d.month ∧ e.day = d.day + 1 ∨
      d.day = d.daysInMonth ∧ e.day = 1 ∧ d.monthAfter? = some e := by
  have hd := d.day_mem.2
  unfold dayAfter? at h
  split at h
  next => exact Or.inl (ofParts?_eq_some h)
  next hlast =>
    unfold daysInMonth at hlast ⊢
    exact Or.inr ⟨by omega, (monthAfter?_parts h).1, h⟩

theorem yearBefore?_parts {d e : Date} (h : d.yearBefore? = some e) :
    e.year = d.year - 1 ∧ e.month = 12 ∧ e.day = 31 := ofParts?_eq_some h

theorem monthBefore?_parts {d e : Date} (h : d.monthBefore? = some e) :
    e.day = e.daysInMonth ∧ (e.year = d.year ∧ e.month = d.month - 1 ∧ 1 < d.month ∨
      d.month = 1 ∧ e.month = 12 ∧ d.yearBefore? = some e) := by
  have hm := d.month_mem.1
  unfold monthBefore? at h
  split at h
  next hlt =>
    obtain ⟨hy, hmonth, hday⟩ := ofParts?_eq_some h
    refine ⟨?_, Or.inl ⟨hy, hmonth, hlt⟩⟩
    rw [daysInMonth, hy, hmonth, hday]
  next =>
    obtain ⟨-, hmonth, hday⟩ := yearBefore?_parts h
    refine ⟨?_, Or.inr ⟨by omega, hmonth, h⟩⟩
    rw [daysInMonth, hmonth, hday]
    rfl

theorem dayBefore?_parts {d e : Date} (h : d.dayBefore? = some e) :
    e.year = d.year ∧ e.month = d.month ∧ e.day = d.day - 1 ∧ 1 < d.day ∨
      d.day = 1 ∧ e.day = e.daysInMonth ∧ d.monthBefore? = some e := by
  have hd := d.day_mem.1
  unfold dayBefore? at h
  split at h
  next hlt =>
    obtain ⟨hy, hm, hday⟩ := ofParts?_eq_some h
    exact Or.inl ⟨hy, hm, hday, hlt⟩
  next => exact Or.inr ⟨by omega, (monthBefore?_parts h).1, h⟩

end Date

namespace Instant

theorem hourAfter?_parts {i j : Instant} (h : i.hourAfter? = some j) :
    (j.time.minute = 0 ∧ j.time.second = 0 ∧ j.time.nano = 0) ∧
      (j.date = i.date ∧ j.time.hour = i.time.hour + 1 ∨
        i.time.hour = 23 ∧ j.time.hour = 0 ∧ i.date.dayAfter?.map dayStart = some j) := by
  have hh := i.time.hour_lt
  unfold hourAfter? at h
  split at h
  next =>
    obtain ⟨hd, hhour, hm, hs, hn⟩ := atTime?_eq_some h
    exact ⟨⟨hm, hs, hn⟩, Or.inl ⟨hd, hhour⟩⟩
  next =>
    obtain ⟨e, -, he⟩ := Option.map_eq_some_iff.mp h
    subst he
    exact ⟨⟨rfl, rfl, rfl⟩, Or.inr ⟨by omega, rfl, h⟩⟩

theorem minuteAfter?_parts {i j : Instant} (h : i.minuteAfter? = some j) :
    (j.time.second = 0 ∧ j.time.nano = 0) ∧
      (j.date = i.date ∧ j.time.hour = i.time.hour ∧ j.time.minute = i.time.minute + 1 ∨
        i.time.minute = 59 ∧ j.time.minute = 0 ∧ i.hourAfter? = some j) := by
  have hm := i.time.minute_lt
  unfold minuteAfter? at h
  split at h
  next =>
    obtain ⟨hd, hhour, hmin, hs, hn⟩ := atTime?_eq_some h
    exact ⟨⟨hs, hn⟩, Or.inl ⟨hd, hhour, hmin⟩⟩
  next =>
    obtain ⟨⟨hmin, hs, hn⟩, -⟩ := hourAfter?_parts h
    exact ⟨⟨hs, hn⟩, Or.inr ⟨by omega, hmin, h⟩⟩

theorem secondAfter?_parts {i j : Instant} (h : i.secondAfter? = some j) :
    j.time.nano = 0 ∧
      (j.date = i.date ∧ j.time.secondOfDay = i.time.secondOfDay + 1 ∧
          j.time.second = i.time.second + 1 ∨
        i.time.second = 59 ∧ j.time.second = 0 ∧ i.minuteAfter? = some j) := by
  have hs := i.time.second_lt
  unfold secondAfter? at h
  split at h
  next =>
    obtain ⟨hd, hhour, hmin, hsec, hn⟩ := atTime?_eq_some h
    refine ⟨hn, Or.inl ⟨hd, ?_, hsec⟩⟩
    simp only [TimeOfDay.secondOfDay, hhour, hmin, hsec]
    omega
  next =>
    obtain ⟨⟨hsec, hn⟩, -⟩ := minuteAfter?_parts h
    exact ⟨hn, Or.inr ⟨by omega, hsec, h⟩⟩

theorem hourBefore?_parts {i j : Instant} (h : i.hourBefore? = some j) :
    (j.time.minute = 59 ∧ j.time.second = 59 ∧ j.time.nano = 999000000) ∧
      (j.date = i.date ∧ j.time.hour = i.time.hour - 1 ∧ 0 < i.time.hour ∨
        i.time.hour = 0 ∧ j.time.hour = 23 ∧ i.date.dayBefore?.map dayEnd = some j) := by
  unfold hourBefore? at h
  split at h
  next hlt =>
    obtain ⟨hd, hhour, hm, hs, hn⟩ := atTime?_eq_some h
    exact ⟨⟨hm, hs, hn⟩, Or.inl ⟨hd, hhour, hlt⟩⟩
  next =>
    obtain ⟨e, -, he⟩ := Option.map_eq_some_iff.mp h
    subst he
    exact ⟨⟨rfl, rfl, rfl⟩, Or.inr ⟨by omega, rfl, h⟩⟩

theorem minuteBefore?_parts {i j : Instant} (h : i.minuteBefore? = some j) :
    (j.time.second = 59 ∧ j.time.nano = 999000000) ∧
      (j.date = i.date ∧ j.time.hour = i.time.hour ∧ j.time.minute = i.time.minute - 1 ∧
          0 < i.time.minute ∨
        i.time.minute = 0 ∧ j.time.minute = 59 ∧ i.hourBefore? = some j) := by
  unfold minuteBefore? at h
  split at h
  next hlt =>
    obtain ⟨hd, hhour, hmin, hs, hn⟩ := atTime?_eq_some h
    exact ⟨⟨hs, hn⟩, Or.inl ⟨hd, hhour, hmin, hlt⟩⟩
  next =>
    obtain ⟨⟨hmin, hs, hn⟩, -⟩ := hourBefore?_parts h
    exact ⟨⟨hs, hn⟩, Or.inr ⟨by omega, hmin, h⟩⟩

theorem secondBefore?_parts {i j : Instant} (h : i.secondBefore? = some j) :
    j.time.nano = 999000000 ∧
      (j.date = i.date ∧ j.time.secondOfDay + 1 = i.time.secondOfDay ∧
          j.time.second + 1 = i.time.second ∨
        i.time.second = 0 ∧ j.time.second = 59 ∧ i.minuteBefore? = some j) := by
  unfold secondBefore? at h
  split at h
  next hlt =>
    obtain ⟨hd, hhour, hmin, hsec, hn⟩ := atTime?_eq_some h
    refine ⟨hn, Or.inl ⟨hd, ?_, by omega⟩⟩
    simp only [TimeOfDay.secondOfDay, hhour, hmin, hsec]
    omega
  next =>
    obtain ⟨⟨hsec, hn⟩, -⟩ := minuteBefore?_parts h
    exact ⟨hn, Or.inr ⟨by omega, hsec, h⟩⟩

end Instant

end Timetable
