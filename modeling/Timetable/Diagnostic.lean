import Timetable.Fault

namespace Timetable

def byteCount : List Char → Nat
  | [] => 0
  | c :: cs => c.utf8Size + byteCount cs

/-- What follows the first `n` bytes of a text, if a character starts there. -/
def dropBytes? : Nat → List Char → Option (List Char)
  | 0, cs => some cs
  | _ + 1, [] => none
  | n + 1, c :: cs => if c.utf8Size ≤ n + 1 then dropBytes? (n + 1 - c.utf8Size) cs else none

/-- The first `n` bytes of a text, if a character ends there. -/
def takeBytes? : Nat → List Char → Option (List Char)
  | 0, _ => some []
  | _ + 1, [] => none
  | n + 1, c :: cs =>
    if c.utf8Size ≤ n + 1 then (takeBytes? (n + 1 - c.utf8Size) cs).map (c :: ·) else none

/-- A part of a text, counted in bytes. -/
structure Span where
  offset : Nat
  length : Nat
  deriving Repr, DecidableEq

/-- The text that a diagnostic is about, and what it is called. -/
structure Source where
  name : String
  content : String
  deriving Repr, DecidableEq

def Source.ofPattern (text : String) : Source := ⟨"pattern", text⟩

/-- The source of a pattern that was not read from a text. -/
def Source.textless : Source := ⟨"fallback", "schedule format"⟩

def Source.wholeSpan (s : Source) : Span := ⟨0, byteCount s.content.toList⟩

/-- The part of the work in which a fault came to light. -/
inductive Phase
  | parse
  | validate
  | search
  deriving Repr, DecidableEq

def Phase.name : Phase → String
  | parse => "parse"
  | validate => "validate"
  | search => "search"

/-- A fault together with the place in the text that it is about. -/
structure Diagnostic where
  fault : Fault
  phase : Phase
  source : Source
  span : Span
  deriving Repr, DecidableEq

namespace Diagnostic

def code (d : Diagnostic) : String :=
  "cadence::" ++ d.phase.name ++ "::" ++ d.fault.codeName

/-- The faulty part of the text. -/
def snippet (d : Diagnostic) : String :=
  match dropBytes? d.span.offset d.source.content.toList >>= takeBytes? d.span.length with
  | some cs => String.ofList cs
  | none => ""

end Diagnostic

end Timetable
