import Timetable.Check
import Timetable.Grammar

namespace Timetable

/-- A fault and the part of the text that shows it. -/
structure Finding where
  fault : Fault
  span : Span
  deriving Repr, DecidableEq

/-- Where and why a text leaves the grammar. -/
def Frontier.finding (s : Frontier) : Finding where
  fault := .unexpected (Rule.ordered s.rules) s.place.rest.head?
  span := ⟨s.place.offset, (s.place.rest.head?.map Char.utf8Size).getD 0⟩

def Reader.run {α : Type} (p : Reader α) (text : List Char) : Except Finding α :=
  let r := p ⟨0, text⟩
  match r.result with
  | some (a, _) => .ok a
  | none => .error (r.trace.frontier ⟨⟨0, text⟩, []⟩).finding

def Numeral.span (n : Numeral) : Span := ⟨n.offset, n.digits.length⟩

/-- The number that is written, if 64 bits can hold it. -/
def Numeral.value (n : Numeral) : Except Finding UInt64 :=
  let v := decimalValue n.digits
  if v < UInt64.size then .ok v.toUInt64 else .error ⟨.numberTooLarge n.digits, n.span⟩

def Term.span (t : Term) : Span := ⟨t.start, t.stop - t.start⟩

/-- The clause that is written. -/
def Term.clause (t : Term) : Except Finding Clause := do
  let first ← t.range.mapM (·.1.value)
  let last ← (t.range.bind (·.2)).mapM Numeral.value
  let step ← t.step.mapM Numeral.value
  pure ⟨first, last, step⟩

/-- The clauses that are written for a field. -/
def fieldClauses (field : Field) (terms : List Term) : Except Finding (List Clause) := do
  let clauses ← terms.mapM Term.clause
  match violation? field clauses with
  | none => pure clauses
  | some v => .error ⟨v.fault, ((terms[v.index]?).map Term.span).getD ⟨0, 0⟩⟩

/-- Reads a pattern. Its text has to be grammatical as a whole before any number is looked at. -/
def readPattern (text : List Char) : Except Finding Pattern := do
  let layout ← Reader.layout.run text
  let clauses ← layout.traverse fieldClauses
  pure clauses.pattern

def readField (field : Field) (text : List Char) : Except Finding (List Clause) := do
  let terms ← Reader.loneField.run text
  fieldClauses field terms

def Finding.diagnostic (text : String) (f : Finding) : Diagnostic :=
  ⟨f.fault, .parse, .ofPattern text, f.span⟩

def Pattern.ofText (text : String) : Except Diagnostic Pattern :=
  (readPattern text.toList).mapError (·.diagnostic text)

def fieldOfText (field : Field) (text : String) : Except Diagnostic (List Clause) :=
  (readField field text.toList).mapError (·.diagnostic text)

end Timetable
