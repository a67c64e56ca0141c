import Timetable.Merge
import Timetable.PatternText
import Timetable.Search

namespace Timetable

/-- A pattern that was read from a text, ready to be searched. -/
structure Schedule where
  text : String
  pattern : Pattern
  allowance : Allowance

namespace Schedule

/-- The schedule of every millisecond. -/
def always : Schedule := ⟨"*.*.* * *:*:*.*", .always, .full⟩

def ofText (text : String) : Except Diagnostic Schedule := do
  let pattern ← Pattern.ofText text
  pure ⟨text, pattern, pattern.merge⟩

theorem ofText_eq_ok_iff {text : String} {s : Schedule} :
    ofText text = .ok s ↔
      Pattern.ofText text = .ok s.pattern ∧ s.text = text ∧ s.allowance = s.pattern.merge := by
  obtain ⟨shown, pattern, allowance⟩ := s
  unfold ofText
  cases Pattern.ofText text with
  | error e =>
    constructor
    · intro h
      cases h
    · rintro ⟨h, -⟩
      cases h
  | ok p =>
    constructor
    · intro h
      cases h
      exact ⟨rfl, rfl, rfl⟩
    · rintro ⟨hp, htext, hmerge⟩
      cases hp
      simp only at htext hmerge
      rw [htext, hmerge]
      rfl

def admits (s : Schedule) (i : Instant) : Bool := s.allowance.admits i

/-- The answer to a search that found nothing. -/
def unsatisfiable (s : Schedule) (dir : Direction) (i : Instant) : Diagnostic :=
  let source := Source.ofPattern s.text
  ⟨.unsatisfiable dir i, .search, source, source.wholeSpan⟩

/-- The nearest instant of the schedule, which may be `i` itself. -/
def nearest (s : Schedule) (dir : Direction) (i : Instant) : Except Diagnostic Instant :=
  match s.allowance.nearest? dir i with
  | some j => .ok j
  | none => .error (s.unsatisfiable dir i)

/-- The nearest instant of the schedule from one millisecond beyond `i`. -/
def following (s : Schedule) (dir : Direction) (i : Instant) : Except Diagnostic Instant :=
  match i.shift? dir with
  | some j => s.nearest dir j
  | none => .error (s.unsatisfiable dir i)

/-- One step of an enumeration, which stays ended once it has ended. -/
def advance (s : Schedule) (dir : Direction) (last : Option Instant) : Option Instant :=
  last.bind fun i => (s.following dir i).toOption

/-- Appends the next `n` results of an enumeration forward. -/
def appendUpcoming (s : Schedule) (last : Option Instant) (found : Array (Option Instant)) :
    Nat → Array (Option Instant)
  | 0 => found
  | n + 1 =>
    let next := s.advance .forward last
    appendUpcoming s next (found.push next) n

/-- The first `n` results of enumerating the instants of the schedule after `i`. -/
def upcoming (s : Schedule) (i : Instant) (n : Nat) : Array (Option Instant) :=
  s.appendUpcoming (some i) #[] n

/-- Appends up to `n` instants of the schedule, the first of which is `next`. -/
def appendRun (s : Schedule) (dir : Direction) (next : Option Instant) (found : Array Instant) :
    Nat → Array Instant
  | 0 => found
  | n + 1 =>
    match next with
    | none => found
    | some i => appendRun s dir (s.advance dir next) (found.push i) n

/-- Up to `count` instants of the schedule in the order of the search; `start` itself can be the
first only if `inclusive`. Only the lack of a first one is an error. -/
def run (s : Schedule) (start : Instant) (dir : Direction) (count : Nat) (inclusive : Bool) :
    Except Diagnostic (Array Instant) := do
  let first ← if inclusive then s.nearest dir start else s.following dir start
  pure (s.appendRun dir (some first) #[] count)

end Schedule

end Timetable
