import Timetable.Proofs.Calendar
import Timetable.Proofs.SettleSound

namespace Timetable

/-- Whether a day of a month with `last` days is allowed by its number or as the last. -/
def DayAllowed (days : PointSet Field.day.domain) (last w : Nat) : Prop :=
  days.has w = true ∨ days.has lastDayMark = true ∧ w = last

theorem Allowance.dayAllowed_of_allowsDate {a : Allowance} {d : Date}
    (h : a.allowsDate d = true) : DayAllowed a.day d.daysInMonth d.day := by
  unfold allowsDate at h
  rw [Bool.and_eq_true, Bool.or_eq_true, Bool.and_eq_true, beq_iff_eq] at h
  exact h.2

/-- Of two optional least elements the smaller one is the least of both sets together. -/
theorem LeastOf.union {s t : Set Nat} {v w : Option Nat} :
    LeastOf s v → LeastOf t w → LeastOf (s ∪ t) (match v, w with
      | some v, some w => some (min v w)
      | v, w => v.or w) := by
  intro hs ht
  cases v with
  | none =>
    refine ht.congr fun x => ⟨Or.inr, fun hx => ?_⟩
    exact hx.resolve_left (hs x)
  | some v =>
    cases w with
    | none =>
      refine hs.congr fun x => ⟨Or.inl, fun hx => ?_⟩
      exact hx.resolve_right (ht x)
    | some w =>
      refine ⟨?_, ?_⟩
      · rcases Nat.le_total v w with hle | hle
        · rw [Nat.min_eq_left hle]
          exact Or.inl hs.1
        · rw [Nat.min_eq_right hle]
          exact Or.inr ht.1
      · rintro x (hx | hx)
        · exact Nat.le_trans (Nat.min_le_left v w) (hs.2 hx)
        · exact Nat.le_trans (Nat.min_le_right v w) (ht.2 hx)

theorem nextDay?_leastOf (days : PointSet Field.day.domain) (day last : Nat) :
    LeastOf {w | day < w ∧ w ≤ last ∧ DayAllowed days last w} (nextDay? days day last) := by
  have listed : LeastOf {w : Nat | (days.has w = true ∧ (day : Int) < w) ∧ w ≤ last}
      ((days.next? day).filter fun v => decide (v ≤ last)) := by
    have hl := PointSet.next?_leastOf days day
    cases hn : days.next? day with
    | none =>
      rw [hn] at hl
      exact fun w hw => hl w hw.1
    | some v =>
      rw [hn] at hl
      rw [Option.filter_some]
      split
      next hv => exact ⟨⟨hl.1, of_decide_eq_true hv⟩, fun w hw => hl.2 hw.1⟩
      next hv =>
        intro w hw
        have hle : v ≤ w := hl.2 hw.1
        exact hv (decide_eq_true (Nat.le_trans hle hw.2))
  have marked : LeastOf {w : Nat | (days.has lastDayMark = true ∧ day < last) ∧ w = last}
      (if days.has lastDayMark && decide (day < last) then some last else none) := by
    split
    next hc =>
      rw [Bool.and_eq_true, decide_eq_true_eq] at hc
      exact ⟨⟨hc, rfl⟩, fun w hw => Nat.le_of_eq hw.2.symm⟩
    next hc =>
      rintro w ⟨hw, -⟩
      rw [Bool.and_eq_true, decide_eq_true_eq] at hc
      exact hc hw
  refine (listed.union marked).congr fun w => ?_
  constructor
  · rintro (⟨⟨hh, hlt⟩, hle⟩ | ⟨⟨hm, hlt⟩, rfl⟩)
    · exact ⟨Int.ofNat_lt.mp hlt, hle, Or.inl hh⟩
    · exact ⟨hlt, Nat.le_refl _, Or.inr ⟨hm, rfl⟩⟩
  · rintro ⟨hlt, hle, hh | ⟨hm, rfl⟩⟩
    · exact Or.inl ⟨⟨hh, Int.ofNat_lt.mpr hlt⟩, hle⟩
    · exact Or.inr ⟨⟨hm, hlt⟩, rfl⟩

section DayPast

variable {dir : Direction} {days : PointSet Field.day.domain} {day last : Nat}

/-- The day tried next lies in the month and passes over no day that may be allowed. -/
theorem Direction.dayPast?_some {v : Nat} (hday : day ≤ last)
    (h : dir.dayPast? days day last = some v) :
    (1 ≤ v ∧ v ≤ last) ∧
      ∀ w : Nat, w ≤ last → DayAllowed days last w → dir.Past day w → dir.AtOrPast v w := by
  cases dir
  · have hl := nextDay?_leastOf days day last
    rw [show nextDay? days day last = some v from h] at hl
    obtain ⟨⟨hlt, hle, -⟩, hfirst⟩ := hl
    refine ⟨⟨by omega, hle⟩, fun w hw ha hp => ?_⟩
    exact Int.ofNat_le.mpr (hfirst ⟨Int.ofNat_lt.mp hp, hw, ha⟩)
  · have hg := PointSet.previous?_greatestOf days day
    rw [show days.previous? day = some v from h] at hg
    obtain ⟨⟨hhas, hlt⟩, hlast⟩ := hg
    have hmem := PointSet.has_mem hhas
    simp only [Field.domain] at hmem
    refine ⟨by omega, fun w hw ha hp => ?_⟩
    have hp' : (w : Int) < day := hp
    have hhas' : days.has w = true := ha.resolve_right fun hm => by omega
    exact Int.ofNat_le.mpr (hlast ⟨hhas', hp'⟩)

theorem Direction.dayPast?_none (hday : day ≤ last) (h : dir.dayPast? days day last = none)
    (w : Nat) (hw : w ≤ last) (ha : DayAllowed days last w) : ¬dir.Past day w := by
  intro hp
  cases dir
  · have hl := nextDay?_leastOf days day last
    rw [show nextDay? days day last = none from h] at hl
    exact hl w ⟨Int.ofNat_lt.mp hp, hw, ha⟩
  · have hg := PointSet.previous?_greatestOf days day
    rw [show days.previous? day = none from h] at hg
    have hp' : (w : Int) < day := hp
    have hhas : days.has w = true := ha.resolve_right fun hm => by omega
    exact hg w ⟨hhas, hp'⟩

end DayPast

section Month

namespace Date

variable {d e : Date}

theorem withDay?_eq_some_iff {v : Nat} :
    d.withDay? v = some e ↔ (e.year = d.year ∧ e.month = d.month) ∧ e.day = v := by
  constructor
  · intro h
    obtain ⟨hy, hm, hday⟩ := ofParts?_eq_some h
    exact ⟨⟨hy, hm⟩, hday⟩
  · rintro ⟨⟨hy, hm⟩, rfl⟩
    rw [withDay?, ← hy, ← hm]
    exact e.ofParts?_self

theorem daysInMonth_eq (h : e.year = d.year ∧ e.month = d.month) :
    e.daysInMonth = d.daysInMonth := by
  rw [daysInMonth, daysInMonth, h.1, h.2]

end Date

namespace Allowance

variable {a : Allowance} {dir : Direction} {d e : Date} {i : Instant}

theorem dayAllowed_of_allowsDate_of_month (h : e.year = d.year ∧ e.month = d.month)
    (ha : a.allowsDate e = true) :
    e.day ≤ d.daysInMonth ∧ DayAllowed a.day d.daysInMonth e.day := by
  have hcand := dayAllowed_of_allowsDate ha
  rw [Date.daysInMonth_eq h] at hcand
  have hle : e.day ≤ e.daysInMonth := e.day_mem.2
  rw [Date.daysInMonth_eq h] at hle
  exact ⟨hle, hcand⟩

/-- Whether no date of the month of `d` beyond the day is allowed. -/
def NoDatePast (a : Allowance) (dir : Direction) (d : Date) (day : Nat) : Prop :=
  ∀ e : Date, e.year = d.year ∧ e.month = d.month → a.allowsDate e = true → ¬dir.Past day e.day

/-- Whether `e` is the allowed date of the month of `d` that lies nearest beyond the day. -/
structure FirstDatePast (a : Allowance) (dir : Direction) (d : Date) (day : Nat) (e : Date) :
    Prop where
  month : e.year = d.year ∧ e.month = d.month
  allowed : a.allowsDate e = true
  past : dir.Past day e.day
  first : ∀ e' : Date, e'.year = d.year ∧ e'.month = d.month → a.allowsDate e' = true →
    dir.Past day e'.day → dir.AtOrPast e.day e'.day

/-- Trying days one after another enters the first allowed date beyond the day, or leaves the
month if that has none. -/
theorem settleDayFrom_cases (a : Allowance) (dir : Direction) {day : Nat}
    (hday : day ≤ i.date.daysInMonth) :
    (∃ e, a.FirstDatePast dir i.date day e ∧
        settleDayFrom a dir i day = .ofMove .day i (i.enter? dir .day e.day)) ∨
      a.NoDatePast dir i.date day ∧
        settleDayFrom a dir i day = .ofMove .day i (i.leave? dir .day) := by
  fun_induction settleDayFrom a dir i day with
  | case1 day hn =>
    refine Or.inr ⟨fun e hmonth ha => ?_, rfl⟩
    obtain ⟨hle, hcand⟩ := dayAllowed_of_allowsDate_of_month hmonth ha
    exact Direction.dayPast?_none hday hn e.day hle hcand
  | case2 day v hv hnone =>
    obtain ⟨hrange, -⟩ := Direction.dayPast?_some hday hv
    obtain ⟨e, he⟩ := Instant.withDay?_exists hrange
    cases he.symm.trans hnone
  | case3 day v hv d hd ha =>
    obtain ⟨-, hfirst⟩ := Direction.dayPast?_some hday hv
    obtain ⟨hmonth, rfl⟩ := Date.withDay?_eq_some_iff.mp hd
    refine Or.inl ⟨d, ⟨hmonth, ha, Direction.past_of_dayPast? hv, ?_⟩, rfl⟩
    intro e hmonth' ha' hp
    obtain ⟨hle, hcand⟩ := dayAllowed_of_allowsDate_of_month hmonth' ha'
    exact hfirst e.day hle hcand hp
  | case4 day v hv d hd ha ih =>
    obtain ⟨hrange, hfirst⟩ := Direction.dayPast?_some hday hv
    obtain ⟨hmonth, rfl⟩ := Date.withDay?_eq_some_iff.mp hd
    have hpast := Direction.past_of_dayPast? hv
    -- Between the day and the refused date there is no candidate, so what lies beyond the one
    -- lies beyond the other.
    have hskip : ∀ e : Date, e.year = i.date.year ∧ e.month = i.date.month →
        a.allowsDate e = true → dir.Past day e.day → dir.Past d.day e.day := by
      intro e hmonth' ha' hp
      obtain ⟨hle, hcand⟩ := dayAllowed_of_allowsDate_of_month hmonth' ha'
      rcases Direction.atOrPast_iff.mp (hfirst e.day hle hcand hp) with hlt | heq
      · exact hlt
      · have hsame := Date.withDay?_eq_some_iff.mpr ⟨hmonth', (Int.ofNat_inj.mp heq).symm⟩
        cases hd.symm.trans hsame
        exact absurd ha' ha
    rcases ih hrange.2 with ⟨e, he, hstep⟩ | ⟨hnone, hstep⟩
    · refine Or.inl ⟨e, ⟨he.month, he.allowed, hpast.trans he.past, ?_⟩, hstep⟩
      exact fun e' hmonth' ha' hp => he.first e' hmonth' ha' (hskip e' hmonth' ha' hp)
    · exact Or.inr ⟨fun e hmonth' ha' hp => hnone e hmonth' ha' (hskip e hmonth' ha' hp), hstep⟩

end Allowance

end Month

/-- Trying the days beyond that of a refused date is sound. -/
theorem settleDayFrom_sound {a : Allowance} {i : Instant} (dir : Direction)
    (hi : a.allows .day i = false) (hy : firstYear < i.date.year ∧ i.date.year < lastYear) :
    (settleDayFrom a dir i i.date.day).Sound a dir .day i := by
  have hmem : Field.day ∈ cascade := by decide
  have hmatch : ∀ q, a.Match q → q.SameParent .day i →
      (q.date.year = i.date.year ∧ q.date.month = i.date.month) ∧ a.allowsDate q.date = true :=
    fun q hq hs => ⟨Instant.parts_eq_of_slot_month (hs .month rfl), hq.allows (f := .day) hmem⟩
  rcases a.settleDayFrom_cases dir i.date.day_mem.2 with ⟨e, he, hmove⟩ | ⟨hnone, hmove⟩
  · have hrange : 1 ≤ e.day ∧ e.day ≤ i.date.daysInMonth :=
      Date.daysInMonth_eq he.month ▸ e.day_mem
    have hmax : e.day ≤ Field.day.domain.max := by
      have hlen : i.date.daysInMonth ≤ 31 := monthLength_le _ _
      show e.day ≤ 32
      omega
    obtain ⟨j, hj⟩ := Instant.enter?_day_exists dir hrange
    have hentry := Instant.enter?_isEntry (by decide) hmax hj
    have hmonth := Instant.parts_eq_of_slot_month (hentry.sameParent .month rfl)
    have hdate : j.date = e := by
      have hj' := Date.withDay?_eq_some_iff.mpr ⟨hmonth, Int.ofNat_inj.mp hentry.value_eq⟩
      have he' := Date.withDay?_eq_some_iff.mpr ⟨he.month, rfl⟩
      exact Option.some.inj (hj'.symm.trans he')
    rw [hmove, hj]
    refine sound_of_entry hmem hi hentry
      (Instant.beyond_of_enter? (f := .day) (by decide) he.past hj) ?_ fun q hq hs hp => ?_
    · show a.allowsDate j.date = true
      rw [hdate]
      exact he.allowed
    · obtain ⟨hmonth', ha⟩ := hmatch q hq hs
      exact he.first q.date hmonth' ha hp
  · obtain ⟨j, hj⟩ := Instant.leave?_exists (f := .day) dir rfl hy
    rw [hmove, hj]
    refine sound_of_leaving hmem hi rfl hj fun q hq hs hp => ?_
    obtain ⟨hmonth, ha⟩ := hmatch q hq hs
    exact hnone q.date hmonth ha hp

theorem settle_sound (a : Allowance) (dir : Direction) {f : Field} {i : Instant}
    (hf : f ∈ cascade) (hw : i.IsWhole)
    (hy : f ≠ .year → firstYear < i.date.year ∧ i.date.year < lastYear) :
    (settle a dir f i).Sound a dir f i := by
  unfold settle
  by_cases ha : a.allows f i = true
  · rw [if_pos ha]
    exact ⟨⟨hw, Direction.Reaches.refl i, fun _ _ => rfl⟩, ha, Allowance.Clear.refl i⟩
  · rw [if_neg ha]
    have hi : a.allows f i = false := Bool.not_eq_true _ ▸ ha
    by_cases hd : f = .day
    · subst hd
      exact settleDayFrom_sound dir hi (hy (by decide))
    · have hvalue := settleValue_sound dir hf hd hi hy
      cases f
      case day => exact absurd rfl hd
      all_goals exact hvalue

end Timetable
