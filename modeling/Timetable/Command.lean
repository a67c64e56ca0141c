import Timetable.Arguments
import Timetable.PatternJson
import Timetable.Schedule

namespace Timetable

/-- What the command line can be asked to do. -/
inductive Command
  | version
  /-- Print instants of the schedule, beginning near `start`. -/
  | list (direction : Direction) (pattern : String) (start : Option Instant) (count : Nat)
      (inclusive : Bool)
  /-- Say whether the text is a pattern. -/
  | check (pattern : String)
  /-- Print the pattern's clauses as JSON. -/
  | tree (pattern : String)
  deriving Repr, DecidableEq

/-- The largest number of instants that can be asked for. -/
def countLimit : Nat := 4294967295

/-- A number of instants, which a plus sign may precede. -/
def readCount? (text : String) : Option Nat :=
  let digits := match text.toList with
    | '+' :: rest => rest
    | cs => cs
  let n := decimalValue digits
  if digits ≠ [] ∧ digits.all Char.isDigit ∧ 1 ≤ n ∧ n ≤ countLimit then some n else none

namespace Command

/-- What an option's value reads as, if the option is given. -/
def optional? {α : Type} (read? : String → Option α) : Option String → Option (Option α)
  | none => some none
  | some text => (read? text).map some

/-- The command that lists instants in a direction. -/
def listOfArgs? (direction : Direction) (args : List String) : Option Command := do
  let a ← Arguments.ofList? ⟨["--from", "--count"], ["--inclusive"]⟩ args
  let pattern ← a.operand?
  let start ← optional? Instant.ofText? (a.value? "--from")
  let count ← optional? readCount? (a.value? "--count")
  pure (.list direction pattern start (count.getD 1) (a.value? "--inclusive").isSome)

/-- The only operand of a command without options. -/
def loneOperand? (args : List String) : Option String :=
  (Arguments.ofList? ⟨[], []⟩ args).bind Arguments.operand?

def ofArgs? : List String → Option Command
  | [] => none
  | name :: args =>
    if name = "next" then listOfArgs? .forward args
    else if name = "prev" then listOfArgs? .backward args
    else if name = "check" then (loneOperand? args).map .check
    else if name = "ast" then (loneOperand? args).map .tree
    else if name = "--version" ∨ "-V".toList.isPrefixOf name.toList then some .version
    else none

end Command

/-- What a run comes to: the text that it prints, and the warnings or the fault that it reports
beside it. Left out are the colours of a terminal, the log filter that the environment can set (a
warning is always reported) and writes that fail. -/
inductive Outcome
  | success (output : String) (warnings : List String)
  | failure (diagnostic : Diagnostic)
  /-- The arguments are not enough, too many or not understood. -/
  | misuse
  deriving Repr, DecidableEq

namespace Outcome

def exitCode : Outcome → UInt32
  | success .. => 0
  | failure .. => 1
  | misuse => 2

def output : Outcome → String
  | success output _ => output
  | failure _ | misuse => ""

def warnings : Outcome → List String
  | success _ warnings => warnings
  | failure _ | misuse => []

def ofExcept : Except Diagnostic Outcome → Outcome
  | .ok outcome => outcome
  | .error diagnostic => .failure diagnostic

end Outcome

def shortfall (printed requested : Nat) : List String :=
  if printed < requested then
    ["WARN cadence::cli: no further matches within the year domain printed=" ++
      decimalText printed ++ " requested=" ++ decimalText requested]
  else []

def instantLines (found : Array Instant) : String :=
  found.foldl (fun text i => text ++ i.text ++ "\n") ""

namespace Command

/-- Carries the command out. There is no clock, so a list has to be told where to begin; but a
text that is no pattern fails before that matters. The outcome is that of a run whose output is not
coloured, whose warnings are not filtered and whose writes all succeed. -/
def run : Command → Outcome
  | version => .success "cadence 0.1.0\n" []
  | list direction pattern start count inclusive => .ofExcept do
    let schedule ← Schedule.ofText pattern
    match start with
    | none => pure .misuse
    | some start => do
      let found ← schedule.run start direction count inclusive
      pure (.success (instantLines found) (shortfall found.size count))
  | check pattern => .ofExcept do
    let _ ← Schedule.ofText pattern
    pure (.success "ok\n" [])
  | tree pattern => .ofExcept do
    let schedule ← Schedule.ofText pattern
    pure (.success (schedule.pattern.prettyJson ++ "\n") [])

/-- The outcome of running the program with these arguments. -/
def outcome (args : List String) : Outcome :=
  match ofArgs? args with
  | some command => command.run
  | none => .misuse

end Command

end Timetable
