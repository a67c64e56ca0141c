namespace Timetable

/-- The way a search runs along the timeline. -/
inductive Direction
  | forward
  | backward
  deriving Repr, DecidableEq

/-- How messages say which side of its start a search covers. -/
def Direction.phrase : Direction → String
  | .forward => "at or after"
  | .backward => "at or before"

end Timetable
