import Timetable.Rule

namespace Timetable

/-- A place in a text: how many bytes were read, and what is left to read. -/
structure Cursor where
  offset : Nat
  rest : List Char
  deriving Repr, DecidableEq

/-- The attempts that reading a text consisted of. -/
inductive Trace
  /-- No rule failed. -/
  | quiet
  | andThen (first second : Trace)
  /-- The rule failed at this place, after the attempts within it. -/
  | failed (rule : Rule) (place : Cursor) (inner : Trace)
  deriving Repr, DecidableEq

/-- The farthest place where a rule failed, with the rules to be reported there. -/
structure Frontier where
  place : Cursor
  rules : List Rule
  deriving Repr, DecidableEq

namespace Frontier

/-- The number of rules reported at an offset. -/
def countAt (s : Frontier) (offset : Nat) : Nat :=
  if s.place.offset = offset then s.rules.length else 0

/-- Reports a failed rule, given the frontiers before and after the attempts within it. The rule
takes the place of the rules that failed where it started, unless that was exactly one. A rule
that started before the frontier is not reported. -/
def fail (before after : Frontier) (rule : Rule) (place : Cursor) : Frontier :=
  let known := before.countAt place.offset
  if after.countAt place.offset = known + 1 then after
  else if place.offset < after.place.offset then after
  else if place.offset = after.place.offset then
    { after with rules := after.rules.take known ++ [rule] }
  else ⟨place, [rule]⟩

end Frontier

/-- The frontier that the attempts of a trace leave behind. -/
def Trace.frontier : Trace → Frontier → Frontier
  | quiet, s => s
  | andThen first second, s => second.frontier (first.frontier s)
  | failed rule place inner, s => s.fail (inner.frontier s) rule place

end Timetable
