import Timetable.Date
import Timetable.Field

namespace Timetable

/-- A reading of the clock, down to the nanosecond. The nanoseconds may run on through a leap
second, which can follow any second. -/
structure TimeOfDay where
  hour : Nat
  minute : Nat
  second : Nat
  nano : Nat
  hour_lt : hour < 24
  minute_lt : minute < 60
  second_lt : second < 60
  nano_lt : nano < 2000000000
  deriving Repr, DecidableEq

namespace TimeOfDay

/-- The reading with these parts, if there is one. Only second 59 can be read with a leap second
behind it. -/
def ofParts? (hour minute second nano : Nat) : Option TimeOfDay :=
  if h : hour < 24 ∧ minute < 60 ∧ second < 60 ∧
      (nano < 1000000000 ∨ second = 59 ∧ nano < 2000000000) then
    some ⟨hour, minute, second, nano, h.1, h.2.1, h.2.2.1, by omega⟩
  else none

def midnight : TimeOfDay := ⟨0, 0, 0, 0, by decide, by decide, by decide, by decide⟩

def dayEnd : TimeOfDay :=
  ⟨23, 59, 59, 999000000, by decide, by decide, by decide, by decide⟩

/-- The nanosecond at which the reading's second ends. -/
def secondEnd (t : TimeOfDay) : Nat :=
  if t.nano < 1000000000 then 1000000000 else 2000000000

theorem nano_lt_secondEnd (t : TimeOfDay) : t.nano < t.secondEnd := by
  have := t.nano_lt
  unfold secondEnd
  split <;> omega

theorem secondEnd_le (t : TimeOfDay) : t.secondEnd ≤ 2000000000 := by
  unfold secondEnd
  split <;> decide

def withNano (t : TimeOfDay) (nano : Nat) (h : nano < 1000000000) : TimeOfDay :=
  { t with nano := nano, nano_lt := Nat.lt_trans h (by decide) }

def truncate (t : TimeOfDay) : TimeOfDay :=
  { t with
    nano := t.nano - t.nano % 1000000
    nano_lt := by have := t.nano_lt; omega }

end TimeOfDay

/-- A point in local time. -/
structure Instant where
  date : Date
  time : TimeOfDay
  deriving Repr, DecidableEq

namespace Instant

def ofParts? (year : Int) (month day hour minute second nano : Nat) : Option Instant := do
  let date ← Date.ofParts? year month day
  let time ← TimeOfDay.ofParts? hour minute second nano
  pure ⟨date, time⟩

/-- The place of the instant's second on a calendar in which every month has 31 days. -/
def secondSlot (i : Instant) : Int :=
  ((((i.date.year * 12 + i.date.month) * 31 + i.date.day) * 24 + i.time.hour) * 60 +
    i.time.minute) * 60 + i.time.second

/-- Instants are ordered as their ranks are: each part outweighs all that is finer. -/
def rank (i : Instant) : Int := i.secondSlot * 2000000000 + i.time.nano

instance : LT Instant := ⟨fun a b => a.rank < b.rank⟩

instance : LE Instant := ⟨fun a b => a.rank ≤ b.rank⟩

instance (a b : Instant) : Decidable (a < b) := inferInstanceAs (Decidable (a.rank < b.rank))

instance (a b : Instant) : Decidable (a ≤ b) := inferInstanceAs (Decidable (a.rank ≤ b.rank))

/-- What the instant shows in a field. A leap second shows milliseconds from 1000 on. -/
def value (i : Instant) : Field → Int
  | .year => i.date.year
  | .month => i.date.month
  | .day => i.date.day
  | .weekday => i.date.weekday
  | .hour => i.time.hour
  | .minute => i.time.minute
  | .second => i.time.second
  | .millisecond => (i.time.nano / 1000000 : Nat)

def truncate (i : Instant) : Instant := { i with time := i.time.truncate }

/-- The first millisecond of the day. -/
def dayStart (d : Date) : Instant := ⟨d, .midnight⟩

def dayEnd (d : Date) : Instant := ⟨d, .dayEnd⟩

def atTime? (i : Instant) (hour minute second milli : Nat) : Option Instant :=
  (TimeOfDay.ofParts? hour minute second (milli * 1000000)).map (⟨i.date, ·⟩)

/-- The first millisecond of the unit numbered `v`, inside the coarser units of `i`. -/
def unitStart? (i : Instant) (f : Field) (v : Nat) : Option Instant :=
  match f with
  | .year => (Date.ofParts? v 1 1).map dayStart
  | .month => (Date.ofParts? i.date.year v 1).map dayStart
  | .day | .weekday => (i.date.withDay? v).map dayStart
  | .hour => i.atTime? v 0 0 0
  | .minute => i.atTime? i.time.hour v 0 0
  | .second => i.atTime? i.time.hour i.time.minute v 0
  | .millisecond => i.atTime? i.time.hour i.time.minute i.time.second v

/-- The last millisecond of the unit numbered `v`, inside the coarser units of `i`. -/
def unitEnd? (i : Instant) (f : Field) (v : Nat) : Option Instant :=
  match f with
  | .year => (Date.ofParts? v 12 31).map dayEnd
  | .month => (Date.ofParts? i.date.year v (monthLength i.date.year v)).map dayEnd
  | .day | .weekday => (i.date.withDay? v).map dayEnd
  | .hour => i.atTime? v 59 59 999
  | .minute => i.atTime? i.time.hour v 59 999
  | .second => i.atTime? i.time.hour i.time.minute v 999
  | .millisecond => i.atTime? i.time.hour i.time.minute i.time.second v

/-- The first millisecond after the hour of `i`. -/
def hourAfter? (i : Instant) : Option Instant :=
  if i.time.hour < 23 then i.atTime? (i.time.hour + 1) 0 0 0 else i.date.dayAfter?.map dayStart

def minuteAfter? (i : Instant) : Option Instant :=
  if i.time.minute < 59 then i.atTime? i.time.hour (i.time.minute + 1) 0 0 else i.hourAfter?

def secondAfter? (i : Instant) : Option Instant :=
  if i.time.second < 59 then i.atTime? i.time.hour i.time.minute (i.time.second + 1) 0
  else i.minuteAfter?

/-- The last millisecond before the hour of `i`. -/
def hourBefore? (i : Instant) : Option Instant :=
  if 0 < i.time.hour then i.atTime? (i.time.hour - 1) 59 59 999
  else i.date.dayBefore?.map dayEnd

def minuteBefore? (i : Instant) : Option Instant :=
  if 0 < i.time.minute then i.atTime? i.time.hour (i.time.minute - 1) 59 999
  else i.hourBefore?

def secondBefore? (i : Instant) : Option Instant :=
  if 0 < i.time.second then i.atTime? i.time.hour i.time.minute (i.time.second - 1) 999
  else i.minuteBefore?

/-- One millisecond on. A leap second ends after its second thousand of milliseconds. -/
def nextMilli? (i : Instant) : Option Instant :=
  if h : i.time.nano + 1000000 < i.time.secondEnd then
    some { i with time := { i.time with
      nano := i.time.nano + 1000000
      nano_lt := by have := i.time.secondEnd_le; omega } }
  else
    i.secondAfter?.map fun j =>
      ⟨j.date, j.time.withNano (i.time.nano + 1000000 - i.time.secondEnd)
        (by have := i.time.nano_lt_secondEnd; omega)⟩

/-- One millisecond back. From the start of a leap second this leads to an ordinary reading. -/
def previousMilli? (i : Instant) : Option Instant :=
  if h : 1000000 ≤ i.time.nano then
    some { i with time := { i.time with
      nano := i.time.nano - 1000000
      nano_lt := by have := i.time.nano_lt; omega } }
  else
    i.secondBefore?.map fun j =>
      ⟨j.date, j.time.withNano (999000000 + i.time.nano) (by omega)⟩

/-- The first millisecond after the unit of `f` that holds `i`. -/
def unitAfter? (i : Instant) : Field → Option Instant
  | .year => i.date.yearAfter?.map dayStart
  | .month => i.date.monthAfter?.map dayStart
  | .day | .weekday => i.date.dayAfter?.map dayStart
  | .hour => i.hourAfter?
  | .minute => i.minuteAfter?
  | .second => i.secondAfter?
  | .millisecond => i.truncate.nextMilli?

/-- The last millisecond before the unit of `f` that holds `i`. -/
def unitBefore? (i : Instant) : Field → Option Instant
  | .year => i.date.yearBefore?.map dayEnd
  | .month => i.date.monthBefore?.map dayEnd
  | .day | .weekday => i.date.dayBefore?.map dayEnd
  | .hour => i.hourBefore?
  | .minute => i.minuteBefore?
  | .second => i.secondBefore?
  | .millisecond => i.truncate.previousMilli?

end Instant

end Timetable
