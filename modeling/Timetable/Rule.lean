namespace Timetable

/-- The rules of the pattern grammar, in the order in which messages list them. -/
inductive Rule
  | endOfText
  | pattern
  | date
  | weekday
  | time
  | field
  | clause
  | range
  | step
  | wildcard
  | number
  | loneField
  deriving Repr, DecidableEq

namespace Rule

def all : List Rule :=
  [endOfText, pattern, date, weekday, time, field, clause, range, step, wildcard, number,
    loneField]

/-- What a reader should expect where the rule applies. -/
def description : Rule → String
  | endOfText => "end of pattern"
  | pattern => "a schedule pattern"
  | date => "a date"
  | weekday => "a day of week"
  | time => "a time"
  | field | clause | loneField => "a field entry"
  | range | number => "a number"
  | step => "'/'"
  | wildcard => "'*'"

/-- The rules of a list, each once, in the order of the grammar. -/
def ordered (rules : List Rule) : List Rule := all.filter (rules.contains ·)

/-- The descriptions of rules as alternatives. Neighbours with one description are named once. -/
def alternatives (rules : List Rule) : String :=
  String.intercalate " or " (rules.map description).eraseReps

end Rule

end Timetable
