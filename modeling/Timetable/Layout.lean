import Timetable.Clause

namespace Timetable

/-- The fields that a pattern's text writes, each with something for it. The date, the weekday
and the milliseconds may be left out. -/
structure Layout (α : Type) where
  date : Option (α × α × α)
  weekday : Option α
  hour : α
  minute : α
  second : α
  millisecond : Option α
  deriving Repr, DecidableEq

namespace Layout

variable {α β ε : Type}

/-- Replaces what stands for each field, in the order of the text, until one fails. -/
def traverse (g : Field → α → Except ε β) (l : Layout α) : Except ε (Layout β) := do
  let date ← l.date.mapM fun (year, month, day) => do
    pure (← g .year year, ← g .month month, ← g .day day)
  let weekday ← l.weekday.mapM (g .weekday)
  let hour ← g .hour l.hour
  let minute ← g .minute l.minute
  let second ← g .second l.second
  let millisecond ← l.millisecond.mapM (g .millisecond)
  pure ⟨date, weekday, hour, minute, second, millisecond⟩

/-- The pattern of a text. What is left out allows everything, except for the milliseconds, which
are then 0. -/
def pattern (l : Layout (List Clause)) : Pattern :=
  let (year, month, day) := l.date.getD ([.any], [.any], [.any])
  { year, month, day
    weekday := l.weekday.getD [.any]
    hour := l.hour
    minute := l.minute
    second := l.second
    millisecond := l.millisecond.getD [.point 0] }

end Layout

end Timetable
