import Timetable.Layout
import Timetable.Reader

namespace Timetable

/-- A run of digits and its offset in the text. -/
structure Numeral where
  offset : Nat
  digits : List Char
  deriving Repr, DecidableEq

/-- A clause as it stands in the text. A term without a range is a wildcard. -/
structure Term where
  range : Option (Numeral × Option Numeral)
  step : Option Numeral
  /-- The offset of the first byte. -/
  start : Nat
  /-- The offset behind the last byte. -/
  stop : Nat
  deriving Repr, DecidableEq

namespace Reader

def number : Reader Numeral := rule .number do
  let place ← here
  let ds ← digits
  pure ⟨place.offset, ds⟩

def range : Reader (Numeral × Option Numeral) := rule .range do
  let first ← number
  let last ← optional do
    char '-'
    number
  pure (first, last)

def wildcard : Reader Unit := rule .wildcard (char '*')

def step : Reader Numeral := rule .step do
  char '/'
  number

def term : Reader Term := rule .clause do
  let start ← here
  let range ← orElse
    (do
      wildcard
      pure none)
    (do
      let r ← range
      pure (some r))
  let step ← optional step
  let stop ← here
  pure ⟨range, step, start.offset, stop.offset⟩

def field : Reader (List Term) := rule .field do
  let first ← term
  let others ← many do
    char ','
    term
  pure (first :: others)

def date : Reader (List Term × List Term × List Term) := rule .date do
  let year ← field
  char '.'
  let month ← field
  char '.'
  let day ← field
  pure (year, month, day)

def weekday : Reader (List Term) := rule .weekday field

def time : Reader (List Term × List Term × List Term × Option (List Term)) := rule .time do
  let hour ← field
  char ':'
  let minute ← field
  char ':'
  let second ← field
  let millisecond ← optional do
    char '.'
    field
  pure (hour, minute, second, millisecond)

/-- A whole pattern: a time, before which a date and a weekday may stand. -/
def layout : Reader (Layout (List Term)) := rule .pattern do
  let date ← optional do
    let d ← date
    char ' '
    pure d
  let weekday ← optional do
    let w ← weekday
    char ' '
    pure w
  let (hour, minute, second, millisecond) ← time
  endOfText
  pure { date, weekday, hour, minute, second, millisecond }

/-- A whole text that is a single field. -/
def loneField : Reader (List Term) := rule .loneField do
  let terms ← field
  endOfText
  pure terms

end Reader

end Timetable
