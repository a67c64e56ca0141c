import Timetable.Command

open Timetable

/-- Prints what the run comes to, with warnings and faults on the error stream. -/
def main (args : List String) : IO UInt32 := do
  let outcome := Command.outcome args
  IO.print outcome.output
  for warning in outcome.warnings do
    IO.eprintln warning
  match outcome with
  | .success .. => pure ()
  | .failure diagnostic =>
    IO.eprintln diagnostic.code
    IO.eprintln diagnostic.fault.message
    if diagnostic.snippet ≠ "" then
      IO.eprintln (diagnostic.fault.label ++ ": " ++ diagnostic.snippet)
    if let some help := diagnostic.fault.help? then
      IO.eprintln help
  | .misuse => IO.eprintln "usage: cadence next|prev|check|ast [options] PATTERN"
  return outcome.exitCode
