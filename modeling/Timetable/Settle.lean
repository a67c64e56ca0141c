import Timetable.InstantOrder
import Timetable.PointSet

namespace Timetable

/-- The fields that a search settles, coarsest first. The weekday is settled with the day. -/
def cascade : List Field := [.year, .month, .day, .hour, .minute, .second, .millisecond]

theorem weekday_notMem_cascade : Field.weekday ∉ cascade := by decide

/-- The field whose units the units of this one divide. -/
def Field.parent? : Field → Option Field
  | .year => none
  | .month => some .year
  | .day | .weekday => some .month
  | .hour => some .day
  | .minute => some .hour
  | .second => some .minute
  | .millisecond => some .second

namespace Allowance

/-- A date needs an allowed weekday, and a day that is allowed by its number or as the last. -/
def allowsDate (a : Allowance) (d : Date) : Bool :=
  a.weekday.has d.weekday &&
    (a.day.has d.day || a.day.has lastDayMark && d.day == d.daysInMonth)

/-- Whether the instant may keep what it shows in the field. -/
def allows (a : Allowance) (f : Field) (i : Instant) : Bool :=
  match f with
  | .day => a.allowsDate i.date
  | f => (a.get f).has (i.value f)

/-- Whether the instant, taken to the millisecond, is one of the schedule. -/
def admits (a : Allowance) (i : Instant) : Bool := cascade.all (a.allows · i.truncate)

end Allowance

def Direction.Past (dir : Direction) (p q : Int) : Prop :=
  match dir with
  | .forward => p < q
  | .backward => q < p

/-- The nearest allowed point on the side that the search goes to. -/
def PointSet.toward? {d : Domain} (s : PointSet d) (dir : Direction) (p : Int) : Option Nat :=
  match dir with
  | .forward => s.next? p
  | .backward => s.previous? p

/-- The edge at which the search meets the unit of `f` numbered `v`: its first millisecond going
forward, its last going backward. -/
def Instant.enter? (i : Instant) (dir : Direction) (f : Field) (v : Nat) : Option Instant :=
  match dir with
  | .forward => i.unitStart? f v
  | .backward => i.unitEnd? f v

/-- The edge at which the search leaves the unit that the units of `f` divide. Nothing holds
years. -/
def Instant.leave? (i : Instant) (dir : Direction) (f : Field) : Option Instant :=
  f.parent?.bind fun g =>
    match dir with
    | .forward => i.unitAfter? g
    | .backward => i.unitBefore? g

/-- The outcome of settling one field. -/
inductive Step
  /-- The field may stay as it is in this instant. -/
  | settled (i : Instant)
  /-- A coarser field has changed, so all fields are to be settled anew. -/
  | carried (i : Instant)
  /-- There is nowhere left to go. -/
  | exhausted
  deriving Repr, DecidableEq

/-- The outcome of moving for the sake of `f`: a move carries if it changes the parent field. -/
def Step.ofMove (f : Field) (i : Instant) : Option Instant → Step
  | none => .exhausted
  | some j =>
    match f.parent? with
    | none => .settled j
    | some g => if j.value g = i.value g then .settled j else .carried j

/-- The day to try after `day` going forward. The mark adds the last day of the month. -/
def nextDay? (days : PointSet Field.day.domain) (day last : Nat) : Option Nat :=
  let listed := (days.next? day).filter fun v => decide (v ≤ last)
  let marked := if days.has lastDayMark && decide (day < last) then some last else none
  match listed, marked with
  | some v, some w => some (min v w)
  | v, w => v.or w

def Direction.dayPast? (dir : Direction) (days : PointSet Field.day.domain) (day last : Nat) :
    Option Nat :=
  match dir with
  | .forward => nextDay? days day last
  | .backward => days.previous? day

/-- The days of the month that can still come after `day`. -/
def Direction.daysLeft (dir : Direction) (day last : Nat) : Nat :=
  match dir with
  | .forward => last - day
  | .backward => day

theorem nextDay?_mem {days : PointSet Field.day.domain} {day last v : Nat}
    (h : nextDay? days day last = some v) : day < v ∧ v ≤ last := by
  have listed {w : Nat} (hw : (days.next? day).filter (fun v => decide (v ≤ last)) = some w) :
      day < w ∧ w ≤ last := by
    obtain ⟨hn, hl⟩ := Option.filter_eq_some_iff.mp hw
    have := PointSet.lt_of_next? hn
    exact ⟨by omega, of_decide_eq_true hl⟩
  have marked {w : Nat}
      (hw : (if days.has lastDayMark && decide (day < last) then some last else none) = some w) :
      day < w ∧ w ≤ last := by
    split at hw
    next hc =>
      cases hw
      exact ⟨of_decide_eq_true (Bool.and_eq_true_iff.mp hc).2, Nat.le_refl _⟩
    next => cases hw
  simp only [nextDay?] at h
  split at h
  next v' w' hv hw =>
    have := listed hv
    have := marked hw
    cases h
    omega
  next =>
    rcases Option.or_eq_some_iff.mp h with hv | ⟨-, hw⟩
    · exact listed hv
    · exact marked hw

theorem Direction.daysLeft_lt {dir : Direction} {days : PointSet Field.day.domain}
    {day last v : Nat} (h : dir.dayPast? days day last = some v) :
    dir.daysLeft v last < dir.daysLeft day last := by
  cases dir
  · have := nextDay?_mem h
    simp only [daysLeft]
    omega
  · have := PointSet.lt_of_previous? h
    simp only [daysLeft]
    omega

/-- Tries the days past `day` until one is allowed, or the month has none left. -/
def settleDayFrom (a : Allowance) (dir : Direction) (i : Instant) (day : Nat) : Step :=
  match _ : dir.dayPast? a.day day i.date.daysInMonth with
  | none => .ofMove .day i (i.leave? dir .day)
  | some v =>
    match i.date.withDay? v with
    | none => .exhausted
    | some d =>
      if a.allowsDate d then .ofMove .day i (i.enter? dir .day v)
      else settleDayFrom a dir i v
termination_by dir.daysLeft day i.date.daysInMonth
decreasing_by exact Direction.daysLeft_lt ‹_›

/-- Moves to the field's nearest allowed value, or out of the parent unit if that has none. -/
def settleValue (a : Allowance) (dir : Direction) (f : Field) (i : Instant) : Step :=
  .ofMove f i <|
    match (a.get f).toward? dir (i.value f) with
    | some v => i.enter? dir f v
    | none => i.leave? dir f

/-- Makes the instant allowed in the field, moving as little as possible. -/
def settle (a : Allowance) (dir : Direction) (f : Field) (i : Instant) : Step :=
  if a.allows f i then .settled i
  else
    match f with
    | .day => settleDayFrom a dir i i.date.day
    | f => settleValue a dir f i

end Timetable
