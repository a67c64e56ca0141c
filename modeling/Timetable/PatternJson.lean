import Timetable.Clause
import Timetable.JsonReader

namespace Timetable

/-- The name of the list that holds a field's clauses. -/
def Field.listName : Field → String
  | .year => "years"
  | .month => "months"
  | .day => "days"
  | .weekday => "days_of_week"
  | .hour => "hours"
  | .minute => "minutes"
  | .second => "seconds"
  | .millisecond => "milliseconds"

/-- An absent number is null. -/
def wordJson : Option UInt64 → Json
  | none => .null
  | some v => .ofNat v.toNat

/-- A number, null, or nothing at all. -/
def wordOfJson? : Option Json → Option (Option UInt64)
  | none | some .null => some none
  | some j => j.word?.map some

def Clause.toJson (c : Clause) : Json :=
  .object [("begin", wordJson c.first), ("end", wordJson c.last), ("step", wordJson c.step)]

def Clause.ofJson? (j : Json) : Option Clause := do
  let members ← j.record? ["begin", "end", "step"]
  let first ← wordOfJson? (Json.member? members "begin")
  let last ← wordOfJson? (Json.member? members "end")
  let step ← wordOfJson? (Json.member? members "step")
  pure ⟨first, last, step⟩

def clausesOfJson? : Json → Option (List Clause)
  | .array items => items.mapM Clause.ofJson?
  | _ => none

namespace Pattern

def toJson (p : Pattern) : Json :=
  .object (Field.all.map fun f => (f.listName, .array ((p.get f).map Clause.toJson)))

/-- Reads the lists of all eight fields; further members are passed over. -/
def ofJson? (j : Json) : Option Pattern := do
  let members ← j.record? (Field.all.map Field.listName)
  let list (f : Field) : Option (List Clause) :=
    (Json.member? members f.listName).bind clausesOfJson?
  pure {
    year := ← list .year
    month := ← list .month
    day := ← list .day
    weekday := ← list .weekday
    hour := ← list .hour
    minute := ← list .minute
    second := ← list .second
    millisecond := ← list .millisecond }

/-- The pattern over several lines of JSON. -/
def prettyJson (p : Pattern) : String := String.ofList (p.toJson.pretty 0)

def ofJsonText? (text : String) : Option Pattern := (Json.ofText? text).bind ofJson?

end Pattern

end Timetable
