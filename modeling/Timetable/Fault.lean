import Timetable.Clause
import Timetable.Direction
import Timetable.InstantText
import Timetable.Rule

namespace Timetable

/-- Why a text is no pattern, a pattern is no schedule, or a schedule gives no answer. -/
inductive Fault
  /-- The text stops being a pattern; the rules could have gone on there. -/
  | unexpected (expected : List Rule) (found : Option Char)
  /-- A clause has a last value but no first one, which no text can say. -/
  | missingFirst (last : UInt64)
  | numberTooLarge (digits : List Char)
  | reversedRange (field : Field) (first last : UInt64)
  | outOfBounds (field : Field) (value : UInt64)
  | zeroStep (field : Field)
  /-- A bare wildcard stands beside other clauses. -/
  | ambiguousWildcard (field : Field)
  /-- No instant of the schedule lies on that side of the instant. -/
  | unsatisfiable (direction : Direction) (instant : Instant)
  deriving Repr, DecidableEq

/-- The broad kinds of fault. -/
inductive Category
  | grammar
  | bounds
  | ambiguousWildcard
  | unsatisfiable
  deriving Repr, DecidableEq

def Category.name : Category → String
  | grammar => "Grammar"
  | bounds => "Bounds"
  | ambiguousWildcard => "AmbiguousWildcard"
  | unsatisfiable => "Unsatisfiable"

namespace Fault

def category : Fault → Category
  | unexpected .. | missingFirst .. | numberTooLarge .. | reversedRange .. => .grammar
  | outOfBounds .. | zeroStep .. => .bounds
  | ambiguousWildcard .. => .ambiguousWildcard
  | unsatisfiable .. => .unsatisfiable

/-- The last part of the fault's code. -/
def codeName : Fault → String
  | unexpected .. | missingFirst .. => "syntax"
  | numberTooLarge .. => "number_overflow"
  | reversedRange .. => "reversed_range"
  | outOfBounds .. => "out_of_bounds"
  | zeroStep .. => "zero_step"
  | ambiguousWildcard .. => "ambiguous_wildcard"
  | unsatisfiable .. => "unsatisfiable"

/-- How messages name the character at which reading stopped. -/
def foundText : Option Char → String
  | none => "end of pattern"
  | some c => "'" ++ c.toString ++ "'"

/-- Two numbers as the ends of a range. -/
def rangeText (first last : Nat) : String := decimalText first ++ "-" ++ decimalText last

def message : Fault → String
  | unexpected expected found =>
    "syntax error: expected " ++ Rule.alternatives expected ++ ", found " ++ foundText found
  | missingFirst last =>
    "syntax error: expected a range start, found '-" ++ decimalText last.toNat ++ "'"
  | numberTooLarge digits =>
    "syntax error: number '" ++ String.ofList digits ++ "' is too large"
  | reversedRange field first last =>
    "syntax error: " ++ field.name ++ " range " ++ rangeText first.toNat last.toNat ++
      " runs backwards"
  | outOfBounds field value =>
    "bounds error: " ++ field.name ++ " value " ++ decimalText value.toNat ++ " is outside " ++
      rangeText field.domain.min field.domain.max
  | zeroStep field => "bounds error: " ++ field.name ++ " step must be at least 1"
  | ambiguousWildcard field =>
    "format error: bare wildcard '*' cannot be combined with other " ++ field.name ++ " entries"
  | unsatisfiable direction instant =>
    "schedule error: no matching instant " ++ direction.phrase ++ " " ++ instant.label

/-- Advice on how to mend the fault. -/
def help? : Fault → Option String
  | unexpected .. | missingFirst .. =>
    some ("patterns look like 'yyyy.MM.dd w HH:mm:ss.fff'; " ++
      "the date, day of week and milliseconds are optional")
  | outOfBounds .day _ =>
    some ("days run from 1 to 31; use " ++ decimalText lastDayMark ++
      " for the last day of the month")
  | outOfBounds field _ =>
    some (field.name ++ " accepts values from " ++ decimalText field.domain.min ++ " to " ++
      decimalText field.domain.max)
  | reversedRange _ first last => some ("write the range as " ++ rangeText last.toNat first.toNat)
  | ambiguousWildcard _ => some "use '*' on its own, or a stepped wildcard such as '*/2'"
  | unsatisfiable .. =>
    some ("matches are only searched for between the years 2000 and 2100, " ++
      "and the search ran past that range")
  | numberTooLarge _ | zeroStep _ => none

/-- What is written beside the faulty part of the text. -/
def label : Fault → String
  | unexpected .. | missingFirst .. => "unexpected input"
  | numberTooLarge .. => "number too large"
  | reversedRange .. => "reversed range"
  | outOfBounds .. => "out of bounds"
  | zeroStep .. => "zero step"
  | ambiguousWildcard .. => "ambiguous wildcard"
  | unsatisfiable .. => "never matches"

end Fault

end Timetable
