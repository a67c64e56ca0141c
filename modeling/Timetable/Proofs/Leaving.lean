import Timetable.Proofs.UnitEdges

namespace Timetable

theorem Date.ofParts?_exists {year : Int} {month day : Nat}
    (hy : firstYear ≤ year ∧ year ≤ lastYear) (hm : 1 ≤ month ∧ month ≤ 12)
    (hd : 1 ≤ day ∧ day ≤ monthLength year month) :
    ∃ d, Date.ofParts? year month day = some d := ⟨_, dif_pos ⟨hy, hm, hd⟩⟩

theorem Instant.atTime?_exists (i : Instant) {hour minute second milli : Nat} (hh : hour < 24)
    (hm : minute < 60) (hs : second < 60) (hn : milli < 1000) :
    ∃ j, i.atTime? hour minute second milli = some j := by
  have hn' : milli * 1000000 < 1000000000 ∨ second = 59 ∧ milli * 1000000 < 2000000000 :=
    Or.inl (by omega)
  have ht : TimeOfDay.ofParts? hour minute second (milli * 1000000) =
      some ⟨hour, minute, second, milli * 1000000, hh, hm, hs, by omega⟩ :=
    dif_pos ⟨hh, hm, hs, hn'⟩
  exact ⟨_, by rw [atTime?, ht, Option.map_some]⟩

namespace Date

variable {d : Date}

theorem monthLength_pos (year : Int) (month : Nat) : 1 ≤ monthLength year month :=
  Nat.le_trans (by decide) (monthLength_ge year month)

theorem yearAfter?_exists (h : d.year < lastYear) : ∃ e, d.yearAfter? = some e := by
  have hy := d.year_mem
  exact ofParts?_exists (by omega) (by decide) ⟨Nat.le_refl 1, monthLength_pos _ _⟩

theorem monthAfter?_exists (h : d.year < lastYear) : ∃ e, d.monthAfter? = some e := by
  have hm := d.month_mem
  unfold monthAfter?
  split
  · exact ofParts?_exists d.year_mem (by omega) ⟨Nat.le_refl 1, monthLength_pos _ _⟩
  · exact yearAfter?_exists h

theorem dayAfter?_exists (h : d.year < lastYear) : ∃ e, d.dayAfter? = some e := by
  unfold dayAfter?
  split
  next hlt => exact ofParts?_exists d.year_mem d.month_mem ⟨Nat.le_add_left 1 _, hlt⟩
  next => exact monthAfter?_exists h

theorem yearBefore?_exists (h : firstYear < d.year) : ∃ e, d.yearBefore? = some e := by
  have hy := d.year_mem
  exact ofParts?_exists (by omega) (by decide) ⟨by decide, Nat.le_refl 31⟩

theorem monthBefore?_exists (h : firstYear < d.year) : ∃ e, d.monthBefore? = some e := by
  have hm := d.month_mem
  unfold monthBefore?
  split
  · exact ofParts?_exists d.year_mem (by omega) ⟨monthLength_pos _ _, Nat.le_refl _⟩
  · exact yearBefore?_exists h

theorem dayBefore?_exists (h : firstYear < d.year) : ∃ e, d.dayBefore? = some e := by
  have hd := d.day_mem
  unfold dayBefore?
  split
  · exact ofParts?_exists d.year_mem d.month_mem (by omega)
  · exact monthBefore?_exists h

end Date

namespace Instant

theorem map_exists {α β : Type} {o : Option α} (g : α → β) (h : ∃ a, o = some a) :
    ∃ b, o.map g = some b := by
  obtain ⟨a, rfl⟩ := h
  exact ⟨g a, rfl⟩

/-- Before the last year of the calendar every unit has one after it. -/
theorem unitAfter?_exists {i : Instant} {g : Field} (hg : g ≠ .millisecond)
    (h : i.date.year < lastYear) : ∃ j, i.unitAfter? g = some j := by
  have hh := i.time.hour_lt
  have hm := i.time.minute_lt
  have hday := map_exists dayStart (Date.dayAfter?_exists h)
  have hhour : ∃ j, i.hourAfter? = some j := by
    unfold hourAfter?
    split
    · exact i.atTime?_exists (by omega) (by decide) (by decide) (by decide)
    · exact hday
  have hminute : ∃ j, i.minuteAfter? = some j := by
    unfold minuteAfter?
    split
    · exact i.atTime?_exists hh (by omega) (by decide) (by decide)
    · exact hhour
  have hsecond : ∃ j, i.secondAfter? = some j := by
    unfold secondAfter?
    split
    · exact i.atTime?_exists hh hm (by omega) (by decide)
    · exact hminute
  cases g
  case year => exact map_exists dayStart (Date.yearAfter?_exists h)
  case month => exact map_exists dayStart (Date.monthAfter?_exists h)
  case day => exact hday
  case weekday => exact hday
  case hour => exact hhour
  case minute => exact hminute
  case second => exact hsecond
  case millisecond => exact absurd rfl hg

/-- After the first year of the calendar every unit has one before it. -/
theorem unitBefore?_exists {i : Instant} {g : Field} (hg : g ≠ .millisecond)
    (h : firstYear < i.date.year) : ∃ j, i.unitBefore? g = some j := by
  have hh := i.time.hour_lt
  have hm := i.time.minute_lt
  have hs := i.time.second_lt
  have hday := map_exists dayEnd (Date.dayBefore?_exists h)
  have hhour : ∃ j, i.hourBefore? = some j := by
    unfold hourBefore?
    split
    · exact i.atTime?_exists (by omega) (by decide) (by decide) (by decide)
    · exact hday
  have hminute : ∃ j, i.minuteBefore? = some j := by
    unfold minuteBefore?
    split
    · exact i.atTime?_exists hh (by omega) (by decide) (by decide)
    · exact hhour
  have hsecond : ∃ j, i.secondBefore? = some j := by
    unfold secondBefore?
    split
    · exact i.atTime?_exists hh hm (by omega) (by decide)
    · exact hminute
  cases g
  case year => exact map_exists dayEnd (Date.yearBefore?_exists h)
  case month => exact map_exists dayEnd (Date.monthBefore?_exists h)
  case day => exact hday
  case weekday => exact hday
  case hour => exact hhour
  case minute => exact hminute
  case second => exact hsecond
  case millisecond => exact absurd rfl hg

theorem parent_ne_millisecond {f g : Field} (hg : f.parent? = some g) : g ≠ .millisecond := by
  cases f <;> cases hg <;> decide

/-- Away from the ends of the calendar the parent unit of a field can be left. -/
theorem leave?_exists {i : Instant} (dir : Direction) {f g : Field} (hg : f.parent? = some g)
    (h : firstYear < i.date.year ∧ i.date.year < lastYear) : ∃ j, i.leave? dir f = some j := by
  unfold leave?
  rw [hg, Option.bind_some]
  cases dir
  · exact unitAfter?_exists (parent_ne_millisecond hg) h.2
  · exact unitBefore?_exists (parent_ne_millisecond hg) h.1

theorem unitAfter?_leaves {i j : Instant} {f g : Field} (hg : f.parent? = some g)
    (h : i.unitAfter? g = some j) :
    j.IsPlain ∧ Direction.forward.Leaves g i j ∧ j.value g ≠ i.value g := by
  have zero : (0 : Nat) < 1000 := by decide
  cases f <;> cases hg
  case month =>
    obtain ⟨e, he, rfl⟩ := Option.map_eq_some_iff.mp h
    refine ⟨isPlain_dayStart e, leaves_yearAfter he, ?_⟩
    have hy := (Date.yearAfter?_parts he).1
    show e.year ≠ i.date.year
    omega
  case hour =>
    obtain ⟨e, he, rfl⟩ := Option.map_eq_some_iff.mp h
    refine ⟨isPlain_dayStart e, leaves_dayAfter he, ?_⟩
    have hlen := monthLength_ge i.date.year i.date.month
    show (e.day : Int) ≠ i.date.day
    rcases Date.dayAfter?_parts he with ⟨-, -, hd⟩ | ⟨hlast, hd, -⟩
    · omega
    · unfold Date.daysInMonth at hlast
      omega
  case minute =>
    obtain ⟨⟨-, -, hn⟩, hparts⟩ := hourAfter?_parts h
    refine ⟨isPlain_of_nano_eq zero hn, leaves_hourAfter h, ?_⟩
    show (j.time.hour : Int) ≠ i.time.hour
    omega
  case second =>
    obtain ⟨⟨-, hn⟩, hparts⟩ := minuteAfter?_parts h
    refine ⟨isPlain_of_nano_eq zero hn, leaves_minuteAfter h, ?_⟩
    show (j.time.minute : Int) ≠ i.time.minute
    omega
  case millisecond =>
    obtain ⟨hn, hparts⟩ := secondAfter?_parts h
    refine ⟨isPlain_of_nano_eq zero hn, leaves_secondAfter h, ?_⟩
    show (j.time.second : Int) ≠ i.time.second
    omega
  all_goals
    obtain ⟨e, he, rfl⟩ := Option.map_eq_some_iff.mp h
    refine ⟨isPlain_dayStart e, leaves_monthAfter he, ?_⟩
    have hparts := (Date.monthAfter?_parts he).2
    show (e.month : Int) ≠ i.date.month
    omega

theorem unitBefore?_leaves {i j : Instant} {f g : Field} (hg : f.parent? = some g)
    (h : i.unitBefore? g = some j) :
    j.IsPlain ∧ Direction.backward.Leaves g i j ∧ j.value g ≠ i.value g := by
  have last : (999 : Nat) < 1000 := by decide
  cases f <;> cases hg
  case month =>
    obtain ⟨e, he, rfl⟩ := Option.map_eq_some_iff.mp h
    refine ⟨isPlain_dayEnd e, leaves_yearBefore he, ?_⟩
    have hy := (Date.yearBefore?_parts he).1
    show e.year ≠ i.date.year
    omega
  case hour =>
    obtain ⟨e, he, rfl⟩ := Option.map_eq_some_iff.mp h
    refine ⟨isPlain_dayEnd e, leaves_dayBefore he, ?_⟩
    have hlen := monthLength_ge e.year e.month
    show (e.day : Int) ≠ i.date.day
    rcases Date.dayBefore?_parts he with ⟨-, -, hd, hlt⟩ | ⟨hfirst, hd, -⟩
    · omega
    · unfold Date.daysInMonth at hd
      omega
  case minute =>
    obtain ⟨⟨-, -, hn⟩, hparts⟩ := hourBefore?_parts h
    refine ⟨isPlain_of_nano_eq last hn, leaves_hourBefore h, ?_⟩
    show (j.time.hour : Int) ≠ i.time.hour
    omega
  case second =>
    obtain ⟨⟨-, hn⟩, hparts⟩ := minuteBefore?_parts h
    refine ⟨isPlain_of_nano_eq last hn, leaves_minuteBefore h, ?_⟩
    show (j.time.minute : Int) ≠ i.time.minute
    omega
  case millisecond =>
    obtain ⟨hn, hparts⟩ := secondBefore?_parts h
    refine ⟨isPlain_of_nano_eq last hn, leaves_secondBefore h, ?_⟩
    show (j.time.second : Int) ≠ i.time.second
    omega
  all_goals
    obtain ⟨e, he, rfl⟩ := Option.map_eq_some_iff.mp h
    refine ⟨isPlain_dayEnd e, leaves_monthBefore he, ?_⟩
    have hparts := (Date.monthBefore?_parts he).2
    show (e.month : Int) ≠ i.date.month
    omega

/-- Leaving the parent unit leads to where the search leaves it, and shows there. -/
theorem leave?_leaves {i j : Instant} {dir : Direction} {f g : Field} (hg : f.parent? = some g)
    (h : i.leave? dir f = some j) : j.IsPlain ∧ dir.Leaves g i j ∧ j.value g ≠ i.value g := by
  unfold leave? at h
  rw [hg, Option.bind_some] at h
  cases dir
  · exact unitAfter?_leaves hg h
  · exact unitBefore?_leaves hg h

end Instant

end Timetable
