import Timetable.Decimal
import Timetable.Field

namespace Timetable

/-- One of the alternatives that a pattern lists for a field. A clause without a first value
starts where the field's domain starts. -/
structure Clause where
  first : Option UInt64
  last : Option UInt64
  step : Option UInt64
  deriving Repr, DecidableEq

namespace Clause

/-- The bare wildcard, which allows every value. -/
def any : Clause := ⟨none, none, none⟩

def point (value : UInt64) : Clause := ⟨some value, none, none⟩

def every (step : UInt64) : Clause := ⟨none, none, some step⟩

def range (first last : UInt64) : Clause := ⟨some first, some last, none⟩

def steppedRange (first last step : UInt64) : Clause := ⟨some first, some last, some step⟩

def isAny (c : Clause) : Bool := decide (c = any)

@[simp] theorem isAny_iff {c : Clause} : c.isAny = true ↔ c = any := decide_eq_true_iff

/-- The part of a clause before its step. A last value that has no first is not written. -/
def headWritten (c : Clause) : List Char :=
  match c.first, c.last with
  | none, _ => ['*']
  | some first, none => decimalDigits first.toNat
  | some first, some last => decimalDigits first.toNat ++ '-' :: decimalDigits last.toNat

def stepWritten (c : Clause) : List Char :=
  match c.step with
  | none => []
  | some step => '/' :: decimalDigits step.toNat

/-- The clause as a pattern writes it. -/
def written (c : Clause) : List Char := c.headWritten ++ c.stepWritten

def text (c : Clause) : String := String.ofList c.written

end Clause

/-- What a pattern asks for: the alternatives of each field. -/
abbrev Pattern := ByField fun _ => List Clause

/-- The pattern that every instant satisfies. -/
def Pattern.always : Pattern := .ofFn fun _ => [Clause.any]

end Timetable
