import Timetable.Merge
import Timetable.Proofs.UnitSteps

namespace Timetable

/-- What moving for the sake of `f` comes to, once the instant to move to is built. -/
def Step.ofBuilt (f : Field) (i : Instant) (built : Option Instant) : Option Step :=
  built.map fun j => .ofMove f i (some j)

/-- Tries the days past `day` as `settleDayFrom` does, but builds the dates and instants on the way
step by step. There is no outcome if one of them does not exist. -/
def settleDayBySteps? (a : Allowance) (dir : Direction) (i : Instant) (day : Nat) : Option Step :=
  match _ : dir.dayPast? a.day day i.date.daysInMonth with
  | none => Step.ofBuilt .day i (i.leaveBySteps? dir .month)
  | some v =>
    match i.date.withDay? v with
    | none => none
    | some d =>
      if a.allowsDate d then Step.ofBuilt .day i (i.enterBySteps? dir .day v)
      else settleDayBySteps? a dir i v
termination_by dir.daysLeft day i.date.daysInMonth
decreasing_by exact Direction.daysLeft_lt ‹_›

/-- Moves as `settleValue` does, but builds the instants on the way step by step. There is no
outcome if one of them does not exist; that nothing holds years is an outcome. -/
def settleValueBySteps? (a : Allowance) (dir : Direction) (f : Field) (i : Instant) :
    Option Step :=
  match (a.get f).toward? dir (i.value f), f.parent? with
  | some v, _ => Step.ofBuilt f i (i.enterBySteps? dir f v)
  | none, some g => Step.ofBuilt f i (i.leaveBySteps? dir g)
  | none, none => some .exhausted

/-- Settles the field as `settle` does, but builds the dates and instants on the way step by step.
There is no outcome if one of them does not exist. -/
def settleBySteps? (a : Allowance) (dir : Direction) (f : Field) (i : Instant) : Option Step :=
  if a.allows f i then some (.settled i)
  else
    match f with
    | .day => settleDayBySteps? a dir i i.date.day
    | f => settleValueBySteps? a dir f i

section BySteps

variable {a : Allowance} {f : Field} {i : Instant}

theorem ofBuilt_eq {built move : Option Instant} (h : built = move) (hj : ∃ j, move = some j) :
    Step.ofBuilt f i built = some (.ofMove f i move) := by
  obtain ⟨j, hj⟩ := hj
  rw [h, hj]
  rfl

theorem ofBuilt_leaveBySteps? (dir : Direction) {g : Field} (hg : f.parent? = some g)
    (hy : firstYear < i.date.year ∧ i.date.year < lastYear) :
    Step.ofBuilt f i (i.leaveBySteps? dir g) = some (.ofMove f i (i.leave? dir f)) :=
  ofBuilt_eq (Instant.leaveBySteps?_eq dir hg hy) (Instant.leave?_exists dir hg hy)

theorem ofBuilt_enterBySteps? (dir : Direction) {v : Nat} (hw : f ≠ .weekday)
    (hv : v ≤ f.domain.max) (hexists : ∀ dir, ∃ j, i.enter? dir f v = some j)
    (hy : f ≠ .year → firstYear < i.date.year ∧ i.date.year < lastYear) :
    Step.ofBuilt f i (i.enterBySteps? dir f v) = some (.ofMove f i (i.enter? dir f v)) :=
  ofBuilt_eq (Instant.enterBySteps?_eq dir hw hv hexists hy) (hexists dir)

theorem settleDayBySteps?_eq (dir : Direction) {day : Nat} (hday : day ≤ i.date.daysInMonth)
    (hy : firstYear < i.date.year ∧ i.date.year < lastYear) :
    settleDayBySteps? a dir i day = some (settleDayFrom a dir i day) := by
  fun_induction settleDayFrom a dir i day with
  | case1 day hn =>
    unfold settleDayBySteps?
    split
    next => exact ofBuilt_leaveBySteps? dir rfl hy
    next hv => cases hn.symm.trans hv
  | case2 day v hv hnone =>
    obtain ⟨hrange, -⟩ := Direction.dayPast?_some hday hv
    obtain ⟨d, hd⟩ := Instant.withDay?_exists hrange
    cases hd.symm.trans hnone
  | case3 day v hv d hd ha =>
    obtain ⟨hrange, -⟩ := Direction.dayPast?_some hday hv
    have hmax : v ≤ Field.day.domain.max := by
      have hlen : i.date.daysInMonth ≤ 31 := monthLength_le _ _
      show v ≤ 32
      omega
    unfold settleDayBySteps?
    split
    next hn => cases hn.symm.trans hv
    next w hw =>
      cases hv.symm.trans hw
      simp only [hd, if_pos ha]
      exact ofBuilt_enterBySteps? dir (by decide) hmax
        (fun dir => Instant.enter?_day_exists dir hrange) fun _ => hy
  | case4 day v hv d hd ha ih =>
    obtain ⟨hrange, -⟩ := Direction.dayPast?_some hday hv
    unfold settleDayBySteps?
    split
    next hn => cases hn.symm.trans hv
    next w hw =>
      cases hv.symm.trans hw
      simp only [hd, if_neg ha]
      exact ih hrange.2

theorem settleValueBySteps?_eq (dir : Direction) (hw : f ≠ .weekday) (hd : f ≠ .day)
    (hy : f ≠ .year → firstYear < i.date.year ∧ i.date.year < lastYear) :
    settleValueBySteps? a dir f i = some (settleValue a dir f i) := by
  unfold settleValueBySteps? settleValue
  cases ht : (a.get f).toward? dir (i.value f) with
  | some v =>
    have hmem := PointSet.has_mem (PointSet.toward?_some ht).1
    have hv : f.domain.min ≤ v ∧ v ≤ f.domain.max :=
      ⟨Int.ofNat_le.mp hmem.1, Int.ofNat_le.mp hmem.2⟩
    exact ofBuilt_enterBySteps? dir hw hv.2 (fun dir => Instant.enter?_exists dir hd hw hv) hy
  | none =>
    cases hg : f.parent? with
    | none =>
      have hleave : i.leave? dir f = none := by rw [Instant.leave?, hg, Option.bind_none]
      simp only [hleave]
      rfl
    | some g =>
      have hne : f ≠ .year := by
        rintro rfl
        cases hg
      exact ofBuilt_leaveBySteps? dir hg (hy hne)

/-- Away from the ends of the calendar everything on the way exists, so that settling step by step
comes to the same. -/
theorem settleBySteps?_eq (a : Allowance) (dir : Direction) (hf : f ∈ cascade)
    (hy : f ≠ .year → firstYear < i.date.year ∧ i.date.year < lastYear) :
    settleBySteps? a dir f i = some (settle a dir f i) := by
  have hw : f ≠ .weekday := fun he => weekday_notMem_cascade (he ▸ hf)
  unfold settleBySteps? settle
  by_cases ha : a.allows f i = true
  · rw [if_pos ha, if_pos ha]
  · rw [if_neg ha, if_neg ha]
    by_cases hd : f = .day
    · subst hd
      exact settleDayBySteps?_eq dir i.date.day_mem.2 (hy (by decide))
    · have hvalue := settleValueBySteps?_eq (a := a) dir hw hd hy
      cases f
      case day => exact absurd rfl hd
      all_goals exact hvalue

end BySteps

/-- What a search from `t` comes by: the fields that it has yet to settle in its present pass, and
the instant that it has come to. -/
inductive Allowance.Visits (a : Allowance) (dir : Direction) (t : Instant) :
    List Field → Instant → Prop
  | start {c} (h : t.align? dir = some c) : Visits a dir t cascade c
  | settled {f fs i j} (hv : Visits a dir t (f :: fs) i) (h : settle a dir f i = .settled j) :
    Visits a dir t fs j
  | carried {f fs i j} (hv : Visits a dir t (f :: fs) i) (h : settle a dir f i = .carried j) :
    Visits a dir t cascade j

namespace Allowance

/-- What a search answers once it has come that far. -/
def resume? (a : Allowance) (dir : Direction) (fs : List Field) (i : Instant) : Option Instant :=
  match settleAll a dir fs i with
  | .found j => some j
  | .carried j => searchFrom? a dir j
  | .exhausted => none

variable {a : Allowance} {dir : Direction} {t i : Instant} {f : Field} {fs : List Field}

theorem searchFrom?_eq_resume? (a : Allowance) (dir : Direction) (i : Instant) :
    searchFrom? a dir i = a.resume? dir cascade i := by
  unfold resume?
  rw [searchFrom?]
  split
  next h => rw [h]
  next h => rw [h]
  next h => rw [h]

/-- From a field that is allowed as it is, a search goes on to the next field. -/
theorem Visits.of_allows (h : a.Visits dir t (f :: fs) i) (ha : a.allows f i = true) :
    a.Visits dir t fs i :=
  h.settled (if_pos ha)

/-- The fields that a search has settled in its present pass are allowed. -/
theorem Visits.allowed (h : a.Visits dir t fs i) :
    i.IsWhole ∧ ∃ before, before ++ fs = cascade ∧ ∀ g ∈ before, a.allows g i = true := by
  induction h with
  | start h => exact ⟨(Instant.align?_some h).1, [], rfl, List.forall_mem_nil _⟩
  | @settled f fs i j _ h ih =>
    obtain ⟨hw, before, hbefore, ha⟩ := ih
    have hstep := settle_sound_of_before dir hbefore hw ha
    rw [h] at hstep
    obtain ⟨⟨hj, -, hsame⟩, hallows, -⟩ := hstep
    refine ⟨hj, before ++ [f], ?_, allows_of_settled hbefore ha hsame hallows⟩
    rw [List.append_assoc]
    exact hbefore
  | carried _ h ih =>
    obtain ⟨hw, before, hbefore, ha⟩ := ih
    have hstep := settle_sound_of_before dir hbefore hw ha
    rw [h] at hstep
    exact ⟨hstep.1.1, [], rfl, List.forall_mem_nil _⟩

/-- However far a search has come, it is on its way to the same answer. -/
theorem Visits.resume?_eq (h : a.Visits dir t fs i) : a.resume? dir fs i = a.nearest? dir t := by
  induction h with
  | start h => rw [nearest?, h, Option.bind_some, searchFrom?_eq_resume?]
  | settled _ h ih =>
    rw [← ih]
    simp only [resume?, settleAll, h]
  | carried _ h ih =>
    rw [← ih, ← searchFrom?_eq_resume?]
    simp only [resume?, settleAll, h]

/-- Where a pass leads that a search comes by. -/
theorem Visits.settleAll (h : a.Visits dir t fs i) :
    match Timetable.settleAll a dir fs i with
    | .found j => a.Visits dir t [] j
    | .carried j => a.Visits dir t cascade j
    | .exhausted => ∃ f fs j, a.Visits dir t (f :: fs) j ∧ settle a dir f j = .exhausted := by
  induction fs generalizing i with
  | nil => exact h
  | cons f fs ih =>
    rw [Timetable.settleAll]
    cases hs : settle a dir f i with
    | settled j => exact ih (h.settled hs)
    | carried j => exact h.carried hs
    | exhausted => exact ⟨f, fs, i, h, hs⟩

/-- Where a search ends. -/
theorem Visits.searchFrom? (h : a.Visits dir t cascade i) :
    match Timetable.searchFrom? a dir i with
    | some r => a.Visits dir t [] r
    | none => ∃ f fs j, a.Visits dir t (f :: fs) j ∧ settle a dir f j = .exhausted := by
  fun_induction Timetable.searchFrom? a dir i with
  | case1 i j hfound =>
    have hpass := h.settleAll
    rw [hfound] at hpass
    exact hpass
  | case2 i j hcarried ih =>
    have hpass := h.settleAll
    rw [hcarried] at hpass
    exact ih hpass
  | case3 i hexhausted =>
    have hpass := h.settleAll
    rw [hexhausted] at hpass
    exact hpass

/-- Only the search for a year can be exhausted: everything finer has a year to move on in. -/
theorem Visits.eq_year (h : a.Visits dir t (f :: fs) i) (hs : settle a dir f i = .exhausted) :
    f = .year := by
  obtain ⟨hw, before, hbefore, ha⟩ := h.allowed
  have hstep := settle_sound_of_before dir hbefore hw ha
  rw [hs] at hstep
  exact hstep.1

/-- In a search everything exists that is built on the way. -/
theorem Visits.settleBySteps?_eq (h : a.Visits dir t (f :: fs) i) :
    settleBySteps? a dir f i = some (settle a dir f i) := by
  obtain ⟨-, before, hbefore, ha⟩ := h.allowed
  refine Timetable.settleBySteps?_eq a dir (mem_cascade hbefore) fun hne => ?_
  have hyear := year_mem_of_before hbefore ha hne
  unfold firstYear lastYear
  omega

theorem nearest?_eq_some_iff {r : Instant} : a.nearest? dir t = some r ↔ a.Visits dir t [] r := by
  constructor
  · intro h
    obtain ⟨c, hc, hr⟩ := Option.bind_eq_some_iff.mp h
    have hend := (Visits.start (a := a) hc).searchFrom?
    rw [hr] at hend
    exact hend
  · intro h
    rw [← h.resume?_eq]
    rfl

theorem nearest?_eq_none_iff : a.nearest? dir t = none ↔ t.align? dir = none ∨
    ∃ fs i, a.Visits dir t (.year :: fs) i ∧ settle a dir .year i = .exhausted := by
  constructor
  · intro h
    cases hc : t.align? dir with
    | none => exact Or.inl rfl
    | some c =>
      rw [nearest?, hc, Option.bind_some] at h
      have hend := (Visits.start (a := a) hc).searchFrom?
      rw [h] at hend
      obtain ⟨f, fs, i, hv, hs⟩ := hend
      cases hv.eq_year hs
      exact Or.inr ⟨fs, i, hv, hs⟩
  · rintro (hc | ⟨fs, i, hv, hs⟩)
    · rw [nearest?, hc, Option.bind_none]
    · rw [← hv.resume?_eq]
      simp only [resume?, Timetable.settleAll, hs]

end Allowance

/-- Only the year ends a search without an answer. Wherever a search comes by, every date and every
instant exists that is built on the way to the next one, and settling is exhausted at no field but
the year. A search answers with the instant that it comes to with no field left to settle, and it
has no answer iff its start cannot be rounded within the calendar or it comes by an instant beyond
whose year no year is allowed. -/
theorem only_year_exhausts (a : Allowance) (dir : Direction) (t : Instant) :
    (∀ f fs i, a.Visits dir t (f :: fs) i →
      settleBySteps? a dir f i = some (settle a dir f i) ∧
        (settle a dir f i = .exhausted → f = .year)) ∧
      (∀ r, a.nearest? dir t = some r ↔ a.Visits dir t [] r) ∧
      (a.nearest? dir t = none ↔ t.align? dir = none ∨
        ∃ fs i, a.Visits dir t (.year :: fs) i ∧ settle a dir .year i = .exhausted) :=
  ⟨fun _ _ _ h => ⟨h.settleBySteps?_eq, h.eq_year⟩, fun _ => Allowance.nearest?_eq_some_iff,
    Allowance.nearest?_eq_none_iff⟩

/-- Every instant of every 30th. -/
def thirtieths : Allowance := Pattern.merge { Pattern.always with day := [.point 30] }

/-- From the end of January a search for a 30th comes by February, which has none and is left. Behind
the last year of the domain a search has no year to go to. -/
theorem only_year_exhausts_shortFebruary :
    ∃ january february behind : Instant, january.date.month = 1 ∧ february.date.month = 2 ∧
      thirtieths.Visits .forward january
        [.day, .hour, .minute, .second, .millisecond] february ∧
      settleBySteps? thirtieths .forward .day february =
        some (settle thirtieths .forward .day february) ∧
      settle thirtieths .forward .day february ≠ .exhausted ∧
      settle thirtieths .forward .year behind = .exhausted ∧
      thirtieths.nearest? .forward behind = none := by
  let january : Instant := .dayStart ⟨2001, 1, 31, by decide, by decide, by decide⟩
  let february : Instant := .dayStart ⟨2001, 2, 1, by decide, by decide, by decide⟩
  let behind : Instant := .dayStart ⟨2101, 1, 1, by decide, by decide, by decide⟩
  have hjanuary : thirtieths.Visits .forward january
      [.day, .hour, .minute, .second, .millisecond] january := by
    have hstart : thirtieths.Visits .forward january cascade january := .start (by decide)
    exact (hstart.of_allows (by decide +kernel)).of_allows (by decide +kernel)
  have hfebruary : thirtieths.Visits .forward january
      [.day, .hour, .minute, .second, .millisecond] february := by
    have hcarried : thirtieths.Visits .forward january cascade february :=
      hjanuary.carried (by decide +kernel)
    exact (hcarried.of_allows (by decide +kernel)).of_allows (by decide +kernel)
  have hexhausted : settle thirtieths .forward .year behind = .exhausted := by decide +kernel
  obtain ⟨hsteps, hyear⟩ := (only_year_exhausts thirtieths .forward january).1 _ _ _ hfebruary
  have hnone := (only_year_exhausts thirtieths .forward behind).2.2.mpr
    (Or.inr ⟨_, behind, .start (by decide), hexhausted⟩)
  refine ⟨january, february, behind, rfl, rfl, hfebruary, hsteps, fun h => ?_, hexhausted, hnone⟩
  cases hyear h

end Timetable
