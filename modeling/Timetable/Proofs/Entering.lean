import Timetable.Proofs.Leaving

namespace Timetable

namespace Instant

/-- What holds of the edge of the unit of `f` numbered `v`, inside the parent unit of `i`. -/
structure IsEntry (dir : Direction) (f : Field) (i : Instant) (v : Nat) (j : Instant) : Prop where
  plain : j.IsPlain
  edge : dir.IsEdge f j
  sameParent : SameParent f j i
  value_eq : j.value f = v

section SameParent

variable {i j : Instant}

theorem sameParent_year (i j : Instant) : SameParent .year j i := by
  intro g hg
  cases hg

theorem sameParent_month (hy : j.date.year = i.date.year) : SameParent .month j i :=
  sameParent_of_slot rfl hy

theorem sameParent_day (hy : j.date.year = i.date.year) (hm : j.date.month = i.date.month) :
    SameParent .day j i := by
  refine sameParent_of_slot rfl ?_
  show j.date.year * 12 + j.date.month = i.date.year * 12 + i.date.month
  rw [hy, hm]

theorem sameParent_hour (hd : j.date = i.date) : SameParent .hour j i :=
  sameParent_of_slot rfl (congrArg Date.rank hd)

theorem sameParent_minute (hd : j.date = i.date) (hh : j.time.hour = i.time.hour) :
    SameParent .minute j i := by
  refine sameParent_of_slot rfl ?_
  show j.date.rank * 24 + j.time.hour = i.date.rank * 24 + i.time.hour
  rw [hd, hh]

theorem sameParent_second (hd : j.date = i.date) (hh : j.time.hour = i.time.hour)
    (hm : j.time.minute = i.time.minute) : SameParent .second j i := by
  refine sameParent_of_slot rfl ?_
  show (j.date.rank * 24 + j.time.hour) * 60 + j.time.minute =
    (i.date.rank * 24 + i.time.hour) * 60 + i.time.minute
  rw [hd, hh, hm]

theorem sameParent_millisecond (hd : j.date = i.date)
    (hs : j.time.secondOfDay = i.time.secondOfDay) : SameParent .millisecond j i := by
  refine sameParent_of_slot rfl ?_
  show j.date.rank * 86400 + j.time.secondOfDay = i.date.rank * 86400 + i.time.secondOfDay
  rw [hd, hs]

end SameParent

/-- Entering a millisecond is the same from either side. -/
theorem isEntry_millisecond {i j : Instant} (dir : Direction) {v : Nat} (hv : v ≤ 999)
    (h : i.atTime? i.time.hour i.time.minute i.time.second v = some j) :
    IsEntry dir .millisecond i v j := by
  obtain ⟨hd, hh, hm, hs, hn⟩ := atTime?_eq_some h
  have hplain : j.IsPlain := isPlain_of_nano_eq (Nat.lt_succ_of_le hv) hn
  have hsecond : j.time.secondOfDay = i.time.secondOfDay := by
    simp only [TimeOfDay.secondOfDay, hh, hm, hs]
  refine ⟨hplain, Direction.isEdge_millisecond hplain.1, sameParent_millisecond hd hsecond, ?_⟩
  show ((j.time.nano / 1000000 : Nat) : Int) = v
  omega

theorem isEntry_unitStart {i j : Instant} {f : Field} {v : Nat} (hf : f ≠ .weekday)
    (hv : v ≤ f.domain.max) (h : i.unitStart? f v = some j) :
    IsEntry .forward f i v j := by
  cases f
  case weekday => exact absurd rfl hf
  case year =>
    obtain ⟨e, he, rfl⟩ := Option.map_eq_some_iff.mp h
    obtain ⟨hy, hm, hd⟩ := Date.ofParts?_eq_some he
    exact ⟨isPlain_dayStart e, isEdge_year_start ⟨hm, hd⟩, sameParent_year _ _, hy⟩
  case month =>
    obtain ⟨e, he, rfl⟩ := Option.map_eq_some_iff.mp h
    obtain ⟨hy, hm, hd⟩ := Date.ofParts?_eq_some he
    exact ⟨isPlain_dayStart e, isEdge_month_start hd, sameParent_month hy, congrArg Int.ofNat hm⟩
  case day =>
    obtain ⟨e, he, rfl⟩ := Option.map_eq_some_iff.mp h
    obtain ⟨hy, hm, hd⟩ := Date.ofParts?_eq_some he
    exact ⟨isPlain_dayStart e, isEdge_day_start e, sameParent_day hy hm, congrArg Int.ofNat hd⟩
  case hour =>
    obtain ⟨hd, hh, hm, hs, hn⟩ := atTime?_eq_some h
    exact ⟨isPlain_of_nano_eq (by decide) hn, isEdge_hour_start ⟨hm, hs, hn⟩, sameParent_hour hd,
      congrArg Int.ofNat hh⟩
  case minute =>
    obtain ⟨hd, hh, hm, hs, hn⟩ := atTime?_eq_some h
    exact ⟨isPlain_of_nano_eq (by decide) hn, isEdge_minute_start ⟨hs, hn⟩,
      sameParent_minute hd hh, congrArg Int.ofNat hm⟩
  case second =>
    obtain ⟨hd, hh, hm, hs, hn⟩ := atTime?_eq_some h
    exact ⟨isPlain_of_nano_eq (by decide) hn, isEdge_second_start hn, sameParent_second hd hh hm,
      congrArg Int.ofNat hs⟩
  case millisecond => exact isEntry_millisecond .forward hv h

theorem isEntry_unitEnd {i j : Instant} {f : Field} {v : Nat} (hf : f ≠ .weekday)
    (hv : v ≤ f.domain.max) (h : i.unitEnd? f v = some j) :
    IsEntry .backward f i v j := by
  cases f
  case weekday => exact absurd rfl hf
  case year =>
    obtain ⟨e, he, rfl⟩ := Option.map_eq_some_iff.mp h
    obtain ⟨hy, hm, hd⟩ := Date.ofParts?_eq_some he
    exact ⟨isPlain_dayEnd e, isEdge_year_end ⟨hm, hd⟩, sameParent_year _ _, hy⟩
  case month =>
    obtain ⟨e, he, rfl⟩ := Option.map_eq_some_iff.mp h
    obtain ⟨hy, hm, hd⟩ := Date.ofParts?_eq_some he
    have hlast : e.day = e.daysInMonth := by rw [Date.daysInMonth, hy, hm, hd]
    exact ⟨isPlain_dayEnd e, isEdge_month_end hlast, sameParent_month hy, congrArg Int.ofNat hm⟩
  case day =>
    obtain ⟨e, he, rfl⟩ := Option.map_eq_some_iff.mp h
    obtain ⟨hy, hm, hd⟩ := Date.ofParts?_eq_some he
    exact ⟨isPlain_dayEnd e, isEdge_day_end e, sameParent_day hy hm, congrArg Int.ofNat hd⟩
  case hour =>
    obtain ⟨hd, hh, hm, hs, hn⟩ := atTime?_eq_some h
    exact ⟨isPlain_of_nano_eq (by decide) hn, isEdge_hour_end ⟨hm, hs, hn⟩, sameParent_hour hd,
      congrArg Int.ofNat hh⟩
  case minute =>
    obtain ⟨hd, hh, hm, hs, hn⟩ := atTime?_eq_some h
    exact ⟨isPlain_of_nano_eq (by decide) hn, isEdge_minute_end ⟨hs, hn⟩,
      sameParent_minute hd hh, congrArg Int.ofNat hm⟩
  case second =>
    obtain ⟨hd, hh, hm, hs, hn⟩ := atTime?_eq_some h
    exact ⟨isPlain_of_nano_eq (by decide) hn, isEdge_second_end hn, sameParent_second hd hh hm,
      congrArg Int.ofNat hs⟩
  case millisecond => exact isEntry_millisecond .backward hv h

theorem enter?_isEntry {i j : Instant} {dir : Direction} {f : Field} {v : Nat}
    (hf : f ≠ .weekday) (hv : v ≤ f.domain.max) (h : i.enter? dir f v = some j) :
    IsEntry dir f i v j := by
  cases dir
  · exact isEntry_unitStart hf hv h
  · exact isEntry_unitEnd hf hv h

theorem withDay?_exists {d : Date} {v : Nat} (hv : 1 ≤ v ∧ v ≤ d.daysInMonth) :
    ∃ e, d.withDay? v = some e := Date.ofParts?_exists d.year_mem d.month_mem hv

/-- Every day of the month can be entered. -/
theorem enter?_day_exists {i : Instant} (dir : Direction) {v : Nat}
    (hv : 1 ≤ v ∧ v ≤ i.date.daysInMonth) : ∃ j, i.enter? dir .day v = some j := by
  cases dir
  · exact map_exists dayStart (withDay?_exists hv)
  · exact map_exists dayEnd (withDay?_exists hv)

/-- Every unit that a field's domain numbers can be entered; days may be too many. -/
theorem enter?_exists {i : Instant} (dir : Direction) {f : Field} {v : Nat} (hd : f ≠ .day)
    (hw : f ≠ .weekday) (hv : f.domain.min ≤ v ∧ v ≤ f.domain.max) :
    ∃ j, i.enter? dir f v = some j := by
  have hh := i.time.hour_lt
  have hm := i.time.minute_lt
  have hs := i.time.second_lt
  have hlen := Date.monthLength_pos i.date.year v
  cases f <;> simp only [Field.domain] at hv
  case day => exact absurd rfl hd
  case weekday => exact absurd rfl hw
  case year =>
    have hy : firstYear ≤ v ∧ v ≤ lastYear := by
      unfold firstYear lastYear
      omega
    cases dir
    · exact map_exists dayStart (Date.ofParts?_exists hy (by decide) ⟨Nat.le_refl 1,
        Date.monthLength_pos _ _⟩)
    · exact map_exists dayEnd (Date.ofParts?_exists hy (by decide) ⟨by decide, Nat.le_refl 31⟩)
  case month =>
    cases dir
    · exact map_exists dayStart (Date.ofParts?_exists i.date.year_mem hv ⟨Nat.le_refl 1, hlen⟩)
    · exact map_exists dayEnd (Date.ofParts?_exists i.date.year_mem hv ⟨hlen, Nat.le_refl _⟩)
  case hour =>
    cases dir
    · exact i.atTime?_exists (by omega) (by decide) (by decide) (by decide)
    · exact i.atTime?_exists (by omega) (by decide) (by decide) (by decide)
  case minute =>
    cases dir
    · exact i.atTime?_exists hh (by omega) (by decide) (by decide)
    · exact i.atTime?_exists hh (by omega) (by decide) (by decide)
  case second =>
    cases dir
    · exact i.atTime?_exists hh hm (by omega) (by decide)
    · exact i.atTime?_exists hh hm (by omega) (by decide)
  case millisecond =>
    cases dir
    · exact i.atTime?_exists hh hm hs (by omega)
    · exact i.atTime?_exists hh hm hs (by omega)

end Instant

end Timetable
