import Timetable.Diagnostic

namespace Timetable

/-- A fault of one clause in a field's list, given by its position. -/
structure Violation where
  index : Nat
  fault : Fault
  deriving Repr, DecidableEq

def Domain.contains (d : Domain) (value : UInt64) : Bool :=
  decide (d.min ≤ value.toNat ∧ value.toNat ≤ d.max)

namespace Clause

def lacksFirst? (c : Clause) : Option Fault :=
  match c.first, c.last with
  | none, some last => some (.missingFirst last)
  | _, _ => none

def zeroStep? (field : Field) (c : Clause) : Option Fault :=
  if c.step = some 0 then some (.zeroStep field) else none

/-- The first of the clause's two ends that the field's domain does not contain. -/
def outOfBounds? (field : Field) (c : Clause) : Option Fault :=
  ((c.first.toList ++ c.last.toList).find? (!field.domain.contains ·)).map (.outOfBounds field)

def reversed? (field : Field) (c : Clause) : Option Fault :=
  match c.first, c.last with
  | some first, some last =>
    if last < first then some (.reversedRange field first last) else none
  | _, _ => none

/-- The first rule that the clause breaks by itself. -/
def fault? (field : Field) (c : Clause) : Option Fault :=
  c.lacksFirst? <|> c.zeroStep? field <|> c.outOfBounds? field <|> c.reversed? field

end Clause

/-- The first clause that is faulty by itself, counting positions from `index`. -/
def firstFaulty? (field : Field) (index : Nat) : List Clause → Option Violation
  | [] => none
  | c :: cs =>
    match c.fault? field with
    | some fault => some ⟨index, fault⟩
    | none => firstFaulty? field (index + 1) cs

/-- The first bare wildcard of a list that has other clauses too. -/
def mixedWildcard? (field : Field) (cs : List Clause) : Option Violation :=
  if 1 < cs.length then (cs.findIdx? Clause.isAny).map (⟨·, .ambiguousWildcard field⟩) else none

/-- What is wrong with a field's clauses. Faults of single clauses come before those of the list
as a whole. -/
def violation? (field : Field) (cs : List Clause) : Option Violation :=
  firstFaulty? field 0 cs <|> mixedWildcard? field cs

/-- The first fault of a pattern, field by field. -/
def Pattern.fault? (p : Pattern) : Option Fault :=
  Field.all.findSome? fun f => (violation? f (p.get f)).map Violation.fault

/-- Refuses a pattern that no text could have given. -/
def Pattern.validate (p : Pattern) : Except Diagnostic Unit :=
  match p.fault? with
  | some fault => .error ⟨fault, .validate, .textless, ⟨0, 0⟩⟩
  | none => .ok ()

end Timetable
