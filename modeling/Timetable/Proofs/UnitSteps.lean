import Timetable.Proofs.MonthLength
import Timetable.Proofs.SearchPasses
import Timetable.Proofs.StrictInstant

namespace Timetable

namespace TimeOfDay

/-- The reading that many seconds into the day. -/
def ofSeconds (seconds nano : Nat) (h : nano < 2000000000) : TimeOfDay where
  hour := seconds / 3600 % 24
  minute := seconds / 60 % 60
  second := seconds % 60
  nano := nano
  hour_lt := Nat.mod_lt _ (by decide)
  minute_lt := Nat.mod_lt _ (by decide)
  second_lt := Nat.mod_lt _ (by decide)
  nano_lt := h

theorem secondOfDay_ofSeconds {seconds nano : Nat} {h : nano < 2000000000}
    (hs : seconds < 86400) : (ofSeconds seconds nano h).secondOfDay = seconds := by
  simp only [secondOfDay, ofSeconds]
  omega

end TimeOfDay

namespace Instant

/-- So many seconds on, at most a day of them. They start with the second that a leap second
follows. -/
def secondsOn? (i : Instant) (n : Nat) : Option Instant :=
  let seconds := i.time.secondOfDay + n
  let time := TimeOfDay.ofSeconds (seconds % 86400) (i.time.nano % 1000000000) (by omega)
  if seconds < 86400 then some ⟨i.date, time⟩ else i.date.dayAfter?.map (⟨·, time⟩)

/-- The start of the unit of `f` after the one that starts at `i`. -/
def followingUnit? (i : Instant) : Field → Option Instant
  | .year => (Date.ofParts? (i.date.year + 1) 1 1).map dayStart
  | .month => i.date.oneMonthOn?.map (⟨·, i.time⟩)
  | .day | .weekday => i.secondsOn? 86400
  | .hour => i.secondsOn? 3600
  | .minute => i.secondsOn? 60
  | .second => i.secondsOn? 1
  | .millisecond => i.nextMilli?

/-- The start of the unit of `f` that holds `i`. -/
def startOf? (i : Instant) : Field → Option Instant
  | .year => (Date.ofParts? i.date.year 1 1).map dayStart
  | f => i.unitStart? f (i.value f).toNat

/-- Enters a unit by building what lies on the way: its start and, going backward, the start of the
following unit and the millisecond before that. -/
def enterBySteps? (i : Instant) (dir : Direction) (f : Field) (v : Nat) : Option Instant := do
  let start ← i.unitStart? f v
  match dir with
  | .forward => some start
  | .backward =>
    let next ← start.followingUnit? f
    next.previousMilli?

/-- Leaves the unit of `g` by building what lies on the way: its start, and from there the start of
the following unit or the millisecond before. -/
def leaveBySteps? (i : Instant) (dir : Direction) (g : Field) : Option Instant := do
  let start ← i.startOf? g
  match dir with
  | .forward => start.followingUnit? g
  | .backward => start.previousMilli?

/-- Whether everything finer than the unit of `f` is at its start. -/
def StartsUnit (s : Instant) : Field → Prop
  | .year => (s.date.month = 1 ∧ s.date.day = 1) ∧ s.time = .midnight
  | .month => s.date.day = 1 ∧ s.time = .midnight
  | .day | .weekday => s.time = .midnight
  | .hour => s.time.minute = 0 ∧ s.time.second = 0 ∧ s.time.nano = 0
  | .minute => s.time.second = 0 ∧ s.time.nano = 0
  | .second => s.time.nano = 0
  | .millisecond => s.IsWhole

variable {i s : Instant}

theorem secondsOn?_eq_atTime? {n hour minute second : Nat} (hh : hour < 24) (hm : minute < 60)
    (hs : second < 60) (hn : i.time.nano = 0)
    (h : i.time.hour * 3600 + i.time.minute * 60 + i.time.second + n =
      hour * 3600 + minute * 60 + second) :
    i.secondsOn? n = i.atTime? hour minute second 0 := by
  obtain ⟨j, hj⟩ := i.atTime?_exists hh hm hs (show 0 < 1000 by decide)
  obtain ⟨hd, hhour, hmin, hsec, hnano⟩ := atTime?_eq_some hj
  have hsum : i.time.secondOfDay + n = (hour * 60 + minute) * 60 + second := by
    unfold TimeOfDay.secondOfDay
    omega
  have hlt : i.time.secondOfDay + n < 86400 := by
    rw [hsum]
    omega
  have htime : TimeOfDay.ofSeconds ((i.time.secondOfDay + n) % 86400)
      (i.time.nano % 1000000000) (by omega) = j.time := by
    apply TimeOfDay.eq_of_secondOfDay_eq
    · rw [TimeOfDay.secondOfDay_ofSeconds (Nat.mod_lt _ (by decide)), Nat.mod_eq_of_lt hlt, hsum]
      simp only [TimeOfDay.secondOfDay, hhour, hmin, hsec]
    · simp only [TimeOfDay.ofSeconds, hn, hnano]
  rw [hj, secondsOn?]
  simp only [if_pos hlt, htime, ← hd]

theorem secondsOn?_eq_dayAfter? {n : Nat} (hn : i.time.nano = 0)
    (h : i.time.hour * 3600 + i.time.minute * 60 + i.time.second + n = 86400) :
    i.secondsOn? n = i.date.dayAfter?.map dayStart := by
  have hsum : i.time.secondOfDay + n = 86400 := by
    unfold TimeOfDay.secondOfDay
    omega
  have htime : TimeOfDay.ofSeconds ((i.time.secondOfDay + n) % 86400)
      (i.time.nano % 1000000000) (by omega) = .midnight := by
    simp only [TimeOfDay.ofSeconds, hn, hsum]
    rfl
  have hge : ¬i.time.secondOfDay + n < 86400 := by
    rw [hsum]
    decide
  simp only [secondsOn?, htime, if_neg hge]
  rfl

theorem secondsOn?_eq_hourAfter? {n : Nat} (hn : i.time.nano = 0)
    (h : i.time.minute * 60 + i.time.second + n = 3600) : i.secondsOn? n = i.hourAfter? := by
  have hh := i.time.hour_lt
  unfold hourAfter?
  split
  next => exact secondsOn?_eq_atTime? (by omega) (by decide) (by decide) hn (by omega)
  next => exact secondsOn?_eq_dayAfter? hn (by omega)

theorem secondsOn?_eq_minuteAfter? {n : Nat} (hn : i.time.nano = 0)
    (h : i.time.second + n = 60) : i.secondsOn? n = i.minuteAfter? := by
  have hm := i.time.minute_lt
  unfold minuteAfter?
  split
  next => exact secondsOn?_eq_atTime? i.time.hour_lt (by omega) (by decide) hn (by omega)
  next => exact secondsOn?_eq_hourAfter? hn (by omega)

theorem secondsOn?_eq_secondAfter? (hn : i.time.nano = 0) : i.secondsOn? 1 = i.secondAfter? := by
  have hs := i.time.second_lt
  unfold secondAfter?
  split
  next => exact secondsOn?_eq_atTime? i.time.hour_lt i.time.minute_lt (by omega) hn (by omega)
  next => exact secondsOn?_eq_minuteAfter? hn (by omega)

/-- From the start of a unit a plain addition leads to the following one. -/
theorem followingUnit?_of_startsUnit {f : Field} (h : s.StartsUnit f) :
    s.followingUnit? f = s.unitAfter? f := by
  have hday (ht : s.time = .midnight) : s.secondsOn? 86400 = s.date.dayAfter?.map dayStart :=
    secondsOn?_eq_dayAfter? (by rw [ht]; rfl) (by rw [ht]; decide)
  cases f
  case year => rfl
  case month =>
    obtain ⟨hd, ht⟩ := h
    simp only [followingUnit?, Date.oneMonthOn?_of_first hd, ht]
    rfl
  case day => exact hday h
  case weekday => exact hday h
  case hour =>
    obtain ⟨hm, hs, hn⟩ := h
    show s.secondsOn? 3600 = s.hourAfter?
    exact secondsOn?_eq_hourAfter? hn (by omega)
  case minute =>
    obtain ⟨hs, hn⟩ := h
    show s.secondsOn? 60 = s.minuteAfter?
    exact secondsOn?_eq_minuteAfter? hn (by omega)
  case second => exact secondsOn?_eq_secondAfter? h
  case millisecond =>
    show s.nextMilli? = s.truncate.nextMilli?
    rw [truncate_of_isWhole h]

theorem startsUnit_of_unitStart? {f : Field} {v : Nat} (h : i.unitStart? f v = some s) :
    s.StartsUnit f := by
  cases f
  case year =>
    obtain ⟨e, he, rfl⟩ := Option.map_eq_some_iff.mp h
    exact ⟨(Date.ofParts?_eq_some he).2, rfl⟩
  case month =>
    obtain ⟨e, he, rfl⟩ := Option.map_eq_some_iff.mp h
    exact ⟨(Date.ofParts?_eq_some he).2.2, rfl⟩
  case day =>
    obtain ⟨e, -, rfl⟩ := Option.map_eq_some_iff.mp h
    rfl
  case weekday =>
    obtain ⟨e, -, rfl⟩ := Option.map_eq_some_iff.mp h
    rfl
  case hour =>
    obtain ⟨-, -, hm, hs, hn⟩ := atTime?_eq_some h
    exact ⟨hm, hs, hn⟩
  case minute =>
    obtain ⟨-, -, -, hs, hn⟩ := atTime?_eq_some h
    exact ⟨hs, hn⟩
  case second => exact (atTime?_eq_some h).2.2.2.2
  case millisecond =>
    have hn := (atTime?_eq_some h).2.2.2.2
    show s.time.nano % 1000000 = 0
    omega

end Instant

namespace Direction

variable {dir : Direction} {g : Field} {i j k s : Instant}

/-- Plain instants are the same if the search meets the same plain instants from them on. -/
theorem eq_of_reaches_iff (dir : Direction) (hj : j.IsPlain) (hk : k.IsPlain)
    (h : ∀ q : Instant, q.IsPlain → (dir.Reaches j q ↔ dir.Reaches k q)) : j = k :=
  ((h k hk).mpr (Reaches.refl k)).antisymm ((h j hj).mp (Reaches.refl j))

/-- There is one place at which the search leaves a unit. -/
theorem Leaves.unique (hj : j.IsPlain) (hk : k.IsPlain) (hs : s.slot g = i.slot g)
    (h : dir.Leaves g s j) (h' : dir.Leaves g i k) : j = k := by
  refine eq_of_reaches_iff dir hj hk fun q hq => ?_
  rw [h q hq, h' q hq, hs]

end Direction

namespace Instant

variable {i j k s : Instant} {f g : Field}

theorem isPlain_of_previousMilli? (hi : i.IsPlain) (h : i.previousMilli? = some j) :
    j.IsPlain := by
  have hn := hi.nano_le
  have hw : i.time.nano % 1000000 = 0 := hi.1
  unfold IsPlain IsWhole IsLeap
  rcases previousMilli?_parts h with ⟨-, hback⟩ | ⟨-, hback, hlt⟩
  · omega
  · omega

theorem isPlain_of_nextMilli? (hi : i.IsPlain) (h : i.nextMilli? = some j) : j.IsPlain := by
  have hn := hi.nano_le
  have hw : i.time.nano % 1000000 = 0 := hi.1
  have hend := secondEnd_cases i.time
  unfold IsPlain IsWhole IsLeap
  rcases nextMilli?_parts h with ⟨-, hon, hlt⟩ | ⟨-, hon⟩
  · omega
  · omega

/-- The unit of a plain instant's millisecond is left one millisecond on. -/
theorem leaves_nextMilli? (hi : i.IsPlain) (h : i.nextMilli? = some j) :
    Direction.forward.Leaves .millisecond i j := by
  have halign : i.align? .forward = some i := by
    have hw : i.time.nano % 1000000 = 0 := hi.1
    simp only [align?, if_pos hw, truncate_of_isWhole hi.1]
  intro q hq
  show j ≤ q ↔ i.slot .millisecond < q.slot .millisecond
  rw [le_nextMilli?_iff h halign hq, ← not_le, ← not_le]
  exact not_congr ⟨slot_mono .millisecond, le_of_slot_millisecond hq.1⟩

theorem followingUnit?_leaves (hf : f ≠ .weekday) (hu : s.StartsUnit f) (hs : s.IsPlain)
    (h : s.followingUnit? f = some k) : k.IsPlain ∧ Direction.forward.Leaves f s k := by
  have hafter {c : Field} (hc : c.parent? = some f) :
      k.IsPlain ∧ Direction.forward.Leaves f s k := by
    rw [followingUnit?_of_startsUnit hu] at h
    obtain ⟨hplain, hleaves, -⟩ := unitAfter?_leaves hc h
    exact ⟨hplain, hleaves⟩
  cases f
  case weekday => exact absurd rfl hf
  case year => exact hafter (c := .month) rfl
  case month => exact hafter (c := .day) rfl
  case day => exact hafter (c := .hour) rfl
  case hour => exact hafter (c := .minute) rfl
  case minute => exact hafter (c := .second) rfl
  case second => exact hafter (c := .millisecond) rfl
  case millisecond => exact ⟨isPlain_of_nextMilli? hs h, leaves_nextMilli? hs h⟩

theorem followingUnit?_exists (hu : s.StartsUnit f) (hy : s.date.year < lastYear) :
    ∃ k, s.followingUnit? f = some k := by
  by_cases hf : f = .millisecond
  · subst hf
    exact nextMilli?_exists hy
  · rw [followingUnit?_of_startsUnit hu]
    exact unitAfter?_exists hf hy

/-- One millisecond before its start the search backward leaves a unit. -/
theorem previousMilli?_leaves (he : Direction.forward.IsEdge g s) (hs : s.IsPlain)
    (h : s.previousMilli? = some j) : Direction.backward.Leaves g s j := by
  intro q hq
  show q ≤ j ↔ q.slot g < s.slot g
  rw [previousMilli?_le_iff h hq, truncate_of_isWhole hs.1, ← not_le, ← not_le]
  exact not_congr ⟨slot_mono g, he q hq⟩

/-- Going backward the steps end at the last millisecond of the unit. -/
theorem enterBySteps?_backward {v : Nat} (hf : f ≠ .weekday) (hv : v ≤ f.domain.max)
    (hs : i.unitStart? f v = some s) (hj : i.unitEnd? f v = some j)
    (hy : firstYear < s.date.year ∧ s.date.year < lastYear) :
    i.enterBySteps? .backward f v = some j := by
  have hstart := isEntry_unitStart hf hv hs
  have hend := isEntry_unitEnd hf hv hj
  have hunit := startsUnit_of_unitStart? hs
  have hslot : s.slot f = j.slot f := by
    have hsub := slot_sub_slot hf fun g hg =>
      (hstart.sameParent g hg).trans (hend.sameParent g hg).symm
    rw [hstart.value_eq, hend.value_eq] at hsub
    omega
  obtain ⟨k, hk⟩ := followingUnit?_exists hunit hy.2
  obtain ⟨hplain, hleaves⟩ := followingUnit?_leaves hf hunit hstart.plain hk
  have hlater : s.slot f < k.slot f := (hleaves k hplain).mp (le_refl k)
  have hyear := year_le_of_slot_le (le_of_lt hlater)
  obtain ⟨u, hu⟩ := previousMilli?_exists (i := k) (by omega)
  have hsame : u = j := by
    refine Direction.eq_of_reaches_iff .backward (isPlain_of_previousMilli? hplain hu)
      hend.plain fun q hq => ?_
    have hnext : k ≤ q ↔ s.slot f < q.slot f := hleaves q hq
    show q ≤ u ↔ q ≤ j
    rw [previousMilli?_le_iff hu hq, truncate_of_isWhole hplain.1, ← not_le, hnext, hslot, not_lt]
    exact ⟨hend.edge q hq, slot_mono f⟩
  simp only [enterBySteps?, hs, hk, hu, hsame, Option.bind_eq_bind, Option.bind_some]

/-- Entering a unit step by step is entering it, away from the ends of the calendar. -/
theorem enterBySteps?_eq {v : Nat} (dir : Direction) (hf : f ≠ .weekday)
    (hv : v ≤ f.domain.max) (hexists : ∀ dir, ∃ j, i.enter? dir f v = some j)
    (hy : f ≠ .year → firstYear < i.date.year ∧ i.date.year < lastYear) :
    i.enterBySteps? dir f v = i.enter? dir f v := by
  obtain ⟨s, hs⟩ := hexists .forward
  obtain ⟨j, hj⟩ := hexists .backward
  cases dir
  · show (i.unitStart? f v).bind some = i.unitStart? f v
    rw [Option.bind_fun_some]
  · have hstart := isEntry_unitStart hf hv hs
    have hyear : firstYear < s.date.year ∧ s.date.year < lastYear := by
      by_cases hne : f = .year
      · subst hne
        have hvalue : s.date.year = v := hstart.value_eq
        have hmax : v ≤ 2100 := hv
        unfold firstYear lastYear
        omega
      · have hsame : s.date.year = i.date.year :=
          slot_eq_of_coarser hstart.sameParent (Field.year_mem_coarser hne)
        rw [hsame]
        exact hy hne
    rw [enterBySteps?_backward hf hv hs hj hyear]
    exact hj.symm

theorem startOf?_exists (hw : g ≠ .weekday) (hm : g ≠ .millisecond) (i : Instant) :
    ∃ s, i.startOf? g = some s := by
  have hmonth := i.date.month_mem
  have hday := i.date.day_mem
  have hhour := i.time.hour_lt
  have hminute := i.time.minute_lt
  have hsecond := i.time.second_lt
  cases g
  case weekday => exact absurd rfl hw
  case millisecond => exact absurd rfl hm
  case year =>
    exact map_exists dayStart (Date.ofParts?_exists i.date.year_mem (by decide)
      ⟨Nat.le_refl 1, Date.monthLength_pos _ _⟩)
  case month =>
    exact map_exists dayStart (Date.ofParts?_exists i.date.year_mem hmonth
      ⟨Nat.le_refl 1, Date.monthLength_pos _ _⟩)
  case day => exact map_exists dayStart (withDay?_exists hday)
  case hour => exact i.atTime?_exists hhour (by decide) (by decide) (by decide)
  case minute => exact i.atTime?_exists hhour hminute (by decide) (by decide)
  case second => exact i.atTime?_exists hhour hminute hsecond (by decide)

theorem startOf?_of_ne_year (hy : g ≠ .year) (i : Instant) :
    i.startOf? g = i.unitStart? g (i.value g).toNat := by
  cases g
  case year => exact absurd rfl hy
  all_goals rfl

/-- Only the milliseconds of a leap second run on behind the end of their domain. -/
theorem value_le_max (hy : g ≠ .year) (hw : g ≠ .weekday) (hm : g ≠ .millisecond) (i : Instant) :
    i.value g ≤ g.domain.max := by
  let z : Instant := ⟨i.date, i.time.withNano 0 (by decide)⟩
  have hz : z.IsPlain := isPlain_of_nano_eq (show 0 < 1000 by decide) rfl
  have hvalue : z.value g = i.value g := by
    cases g
    case millisecond => exact absurd rfl hm
    all_goals rfl
  rw [← hvalue]
  exact hz.value_le_max hy hw

/-- The start of a unit lies in it, and the search forward meets it first there. -/
theorem startOf?_spec (hw : g ≠ .weekday) (hm : g ≠ .millisecond) (h : i.startOf? g = some s) :
    s.StartsUnit g ∧ s.IsPlain ∧ Direction.forward.IsEdge g s ∧ s.slot g = i.slot g := by
  by_cases hy : g = .year
  · subst hy
    obtain ⟨e, he, rfl⟩ := Option.map_eq_some_iff.mp h
    obtain ⟨hyear, hfirst⟩ := Date.ofParts?_eq_some he
    exact ⟨⟨hfirst, rfl⟩, isPlain_dayStart e, isEdge_year_start hfirst, hyear⟩
  · rw [startOf?_of_ne_year hy] at h
    have hvalue : ((i.value g).toNat : Int) = i.value g := by
      have hmin := i.min_le_value hy
      omega
    have hmax : (i.value g).toNat ≤ g.domain.max := by
      have hle := i.value_le_max hy hw hm
      omega
    have hentry := isEntry_unitStart hw hmax h
    have hsub := slot_sub_slot hw hentry.sameParent
    rw [hentry.value_eq, hvalue] at hsub
    exact ⟨startsUnit_of_unitStart? h, hentry.plain, hentry.edge, by omega⟩

/-- Leaving a unit step by step leads to where the search leaves it. -/
theorem leaveBySteps?_leaves (dir : Direction) (hw : g ≠ .weekday) (hm : g ≠ .millisecond)
    (hy : firstYear < i.date.year ∧ i.date.year < lastYear) :
    ∃ j, i.leaveBySteps? dir g = some j ∧ j.IsPlain ∧ dir.Leaves g i j := by
  obtain ⟨s, hs⟩ := startOf?_exists hw hm i
  obtain ⟨hunit, hplain, hedge, hslot⟩ := startOf?_spec hw hm hs
  have hyear : s.date.year = i.date.year := by
    have hback := year_le_of_slot_le hslot.le
    have hforth := year_le_of_slot_le hslot.ge
    omega
  cases dir
  · obtain ⟨j, hj⟩ := followingUnit?_exists hunit (hyear ▸ hy.2)
    obtain ⟨hjplain, hleaves⟩ := followingUnit?_leaves hw hunit hplain hj
    refine ⟨j, by simp only [leaveBySteps?, hs, hj, Option.bind_eq_bind, Option.bind_some],
      hjplain, fun q hq => ?_⟩
    rw [hleaves q hq, hslot]
  · obtain ⟨j, hj⟩ := previousMilli?_exists (hyear ▸ hy.1)
    have hleaves := previousMilli?_leaves hedge hplain hj
    refine ⟨j, by simp only [leaveBySteps?, hs, hj, Option.bind_eq_bind, Option.bind_some],
      isPlain_of_previousMilli? hplain hj, fun q hq => ?_⟩
    rw [hleaves q hq, hslot]

/-- Leaving the parent unit step by step is leaving it, away from the ends of the calendar. -/
theorem leaveBySteps?_eq (dir : Direction) (hg : f.parent? = some g)
    (hy : firstYear < i.date.year ∧ i.date.year < lastYear) :
    i.leaveBySteps? dir g = i.leave? dir f := by
  obtain ⟨j, hj, hplain, hleaves⟩ :=
    leaveBySteps?_leaves dir (parent_ne_weekday hg) (parent_ne_millisecond hg) hy
  obtain ⟨k, hk⟩ := leave?_exists dir hg hy
  obtain ⟨hkplain, hkleaves, -⟩ := leave?_leaves hg hk
  rw [hj, hk, hleaves.unique hplain hkplain rfl hkleaves]

end Instant

end Timetable
