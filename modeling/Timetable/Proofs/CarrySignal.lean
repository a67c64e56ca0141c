import Timetable.Proofs.FieldSettling
import Timetable.Proofs.SearchPasses

namespace Timetable

section Settled

variable {a : Allowance} {dir : Direction} {f : Field} {i j : Instant}

/-- Leaving the parent unit never settles a field: the parent field shows the change. -/
theorem ofMove_leave?_ne_settled : Step.ofMove f i (i.leave? dir f) ≠ .settled j := by
  intro h
  have hj : i.leave? dir f = some j := move_eq_target? h
  obtain ⟨g, hg, -⟩ := Option.bind_eq_some_iff.mp hj
  rw [hj, ofMove_of_leave? hg hj] at h
  cases h

theorem sameParent_of_enter?_settled {v : Nat} (hw : f ≠ .weekday) (hv : v ≤ f.domain.max)
    (h : Step.ofMove f i (i.enter? dir f v) = .settled j) : j.SameParent f i :=
  (Instant.enter?_isEntry hw hv (move_eq_target? h)).sameParent

theorem sameParent_of_settleDayFrom {day : Nat} (h : settleDayFrom a dir i day = .settled j) :
    j.SameParent .day i := by
  fun_induction settleDayFrom a dir i day with
  | case1 day hn => exact absurd h ofMove_leave?_ne_settled
  | case2 => cases h
  | case3 day v hv d hd ha =>
    have hday : d.day = v := (Date.ofParts?_eq_some hd).2.2
    have hle := d.day_le_31
    have hmax : v ≤ Field.day.domain.max := by
      show v ≤ 32
      omega
    exact sameParent_of_enter?_settled (by decide) hmax h
  | case4 day v hv d hd ha ih => exact ih h

theorem sameParent_of_settleValue (hw : f ≠ .weekday) (h : settleValue a dir f i = .settled j) :
    j.SameParent f i := by
  unfold settleValue at h
  cases ht : (a.get f).toward? dir (i.value f) with
  | none =>
    rw [ht] at h
    exact absurd h ofMove_leave?_ne_settled
  | some v =>
    rw [ht] at h
    have hmem := PointSet.has_mem (PointSet.toward?_some ht).1
    exact sameParent_of_enter?_settled hw (Int.ofNat_le.mp hmem.2) h

/-- A step that settles a field stays in the parent unit. -/
theorem sameParent_of_settle (hw : f ≠ .weekday) (h : settle a dir f i = .settled j) :
    j.SameParent f i := by
  unfold settle at h
  split at h
  next =>
    cases h
    exact fun _ _ => rfl
  next =>
    split at h
    next => exact sameParent_of_settleDayFrom h
    next => exact sameParent_of_settleValue hw h

/-- A step that carries shows it in the parent field. -/
theorem parent_ne_of_settle (hw : f ≠ .weekday) (h : settle a dir f i = .carried j) :
    ∃ p, f.parent? = some p ∧ j.value p ≠ i.value p := by
  have hleave := settle_eq_carried hw h
  obtain ⟨p, hp, -⟩ := Option.bind_eq_some_iff.mp hleave
  obtain ⟨-, -, hne⟩ := Instant.leave?_leaves hp hleave
  exact ⟨p, hp, hne⟩

end Settled

/-- Though a step looks at the parent field alone, it tells a change in any coarser field. In every
instant, so also wherever a search comes by, a step that leads anywhere carries iff one of the
coarser fields has changed on the way, and it settles its field iff they are all as they were. -/
theorem carried_iff_coarser_changed (a : Allowance) (dir : Direction) {f : Field} (hf : f ∈ cascade)
    {i j : Instant} (hj : (settle a dir f i).target? = some j) :
    (settle a dir f i = .carried j ↔ ∃ g ∈ f.coarser, j.value g ≠ i.value g) ∧
      (settle a dir f i = .settled j ↔ ∀ g ∈ f.coarser, j.value g = i.value g) := by
  have hw : f ≠ .weekday := fun he => weekday_notMem_cascade (he ▸ hf)
  cases hs : settle a dir f i with
  | settled k =>
    rw [hs] at hj
    cases hj
    have hsame : ∀ g ∈ f.coarser, j.value g = i.value g := fun g hg =>
      Instant.value_eq_of_sameParent (sameParent_of_settle hw hs) hg
    refine ⟨⟨fun h => ?_, fun ⟨g, hg, hne⟩ => absurd (hsame g hg) hne⟩, fun _ => hsame, fun _ => rfl⟩
    cases h
  | carried k =>
    rw [hs] at hj
    cases hj
    obtain ⟨p, hp, hne⟩ := parent_ne_of_settle hw hs
    have hmem := Field.parent_mem_coarser hp
    refine ⟨⟨fun _ => ⟨p, hmem, hne⟩, fun _ => rfl⟩, fun h => ?_, fun h => absurd (h p hmem) hne⟩
    cases h
  | exhausted =>
    rw [hs] at hj
    cases hj

/-- The middle of every second. -/
def halfSeconds : Allowance := Pattern.merge { Pattern.always with millisecond := [.point 500] }

/-- The last second of 2009, when its middle is over. -/
def yearTurn : Instant := (Instant.ofParts? 2009 12 31 23 59 59 700000000).get (by decide)

/-- Forward the milliseconds carry into the next year, backward they stay in the second. -/
theorem carried_iff_coarser_changed_newYear :
    Field.millisecond ∈ cascade ∧
      (∃ j, (settle halfSeconds .forward .millisecond yearTurn).target? = some j ∧
        settle halfSeconds .forward .millisecond yearTurn = .carried j ∧
        j.date.year ≠ yearTurn.date.year) ∧
      ∃ k, (settle halfSeconds .backward .millisecond yearTurn).target? = some k ∧
        settle halfSeconds .backward .millisecond yearTurn = .settled k ∧
        ∀ g ∈ Field.millisecond.coarser, k.value g = yearTurn.value g := by
  have hf : Field.millisecond ∈ cascade := by decide
  let newYear : Instant := .dayStart ⟨2010, 1, 1, by decide, by decide, by decide⟩
  let half : Instant :=
    { yearTurn with time := { yearTurn.time with nano := 500000000, nano_lt := by decide } }
  have hforth : (settle halfSeconds .forward .millisecond yearTurn).target? = some newYear := by
    decide +kernel
  have hback : (settle halfSeconds .backward .millisecond yearTurn).target? = some half := by
    decide +kernel
  have hsettled : settle halfSeconds .backward .millisecond yearTurn = .settled half := by
    decide +kernel
  obtain ⟨hcarried, -⟩ := carried_iff_coarser_changed halfSeconds .forward hf hforth
  obtain ⟨-, hsame⟩ := carried_iff_coarser_changed halfSeconds .backward hf hback
  exact ⟨hf, ⟨newYear, hforth, hcarried.mpr ⟨.year, by decide, by decide⟩, by decide⟩,
    half, hback, hsettled, hsame.mp hsettled⟩

end Timetable
