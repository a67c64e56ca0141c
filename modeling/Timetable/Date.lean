namespace Timetable

def isLeapYear (year : Int) : Bool :=
  decide (year % 4 = 0 ∧ (year % 100 ≠ 0 ∨ year % 400 = 0))

/-- The number of days of a month, given by its year and its number from 1 to 12. -/
def monthLength (year : Int) (month : Nat) : Nat :=
  match month with
  | 2 => if isLeapYear year then 29 else 28
  | 4 | 6 | 9 | 11 => 30
  | _ => 31

theorem monthLength_ge (year : Int) (month : Nat) : 28 ≤ monthLength year month := by
  unfold monthLength
  split
  · split <;> decide
  all_goals decide

theorem monthLength_le (year : Int) (month : Nat) : monthLength year month ≤ 31 := by
  unfold monthLength
  split
  · split <;> decide
  all_goals decide

/-- The first year of the calendar. -/
def firstYear : Int := -262143

/-- The last year of the calendar. -/
def lastYear : Int := 262142

/-- A day of the proleptic Gregorian calendar, which has a year 0. -/
structure Date where
  year : Int
  month : Nat
  day : Nat
  year_mem : firstYear ≤ year ∧ year ≤ lastYear
  month_mem : 1 ≤ month ∧ month ≤ 12
  day_mem : 1 ≤ day ∧ day ≤ monthLength year month
  deriving Repr, DecidableEq

namespace Date

/-- The date with these parts, if there is one. -/
def ofParts? (year : Int) (month day : Nat) : Option Date :=
  if h : (firstYear ≤ year ∧ year ≤ lastYear) ∧ (1 ≤ month ∧ month ≤ 12) ∧
      1 ≤ day ∧ day ≤ monthLength year month then
    some ⟨year, month, day, h.1, h.2.1, h.2.2⟩
  else none

/-- The number of days in the date's month. -/
def daysInMonth (d : Date) : Nat := monthLength d.year d.month

/-- The given day of the date's month. -/
def withDay? (d : Date) (day : Nat) : Option Date := ofParts? d.year d.month day

/-- Days since 1 March of year 0. Counting years from March puts the leap day last. -/
def dayNumber (d : Date) : Int :=
  let year := if d.month ≤ 2 then d.year - 1 else d.year
  let month : Int := ((d.month + 9) % 12 : Nat)
  365 * year + year / 4 - year / 100 + year / 400 + (153 * month + 2) / 5 + (d.day - 1)

/-- The day of the week, counted from Sunday. -/
def weekday (d : Date) : Nat := ((d.dayNumber + 3) % 7).toNat

/-- The first day of the next year. -/
def yearAfter? (d : Date) : Option Date := ofParts? (d.year + 1) 1 1

/-- The first day of the next month. -/
def monthAfter? (d : Date) : Option Date :=
  if d.month < 12 then ofParts? d.year (d.month + 1) 1 else d.yearAfter?

def dayAfter? (d : Date) : Option Date :=
  if d.day < d.daysInMonth then d.withDay? (d.day + 1) else d.monthAfter?

/-- The last day of the previous year. -/
def yearBefore? (d : Date) : Option Date := ofParts? (d.year - 1) 12 31

/-- The last day of the previous month. -/
def monthBefore? (d : Date) : Option Date :=
  if 1 < d.month then ofParts? d.year (d.month - 1) (monthLength d.year (d.month - 1))
  else d.yearBefore?

def dayBefore? (d : Date) : Option Date :=
  if 1 < d.day then d.withDay? (d.day - 1) else d.monthBefore?

end Date

end Timetable
