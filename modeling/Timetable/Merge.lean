import Timetable.Check
import Timetable.PointSet

namespace Timetable

/-- The numbers from `first` to `last` in steps of `step`. -/
structure Progression where
  first : Nat
  last : Nat
  step : Nat
  deriving Repr, DecidableEq

def Progression.points (g : Progression) : List Nat :=
  if g.first ≤ g.last then List.range' g.first ((g.last - g.first) / g.step + 1) g.step else []

/-- What a clause stands for over a domain. A first value with a step but without a last value
runs to the end of the domain. -/
def Clause.progression (d : Domain) (c : Clause) : Progression :=
  match c.first, c.last, c.step with
  | none, _, none => ⟨d.min, d.max, 1⟩
  | none, _, some step => ⟨d.min, d.max, step.toNat⟩
  | some first, none, none => ⟨first.toNat, first.toNat, 1⟩
  | some first, none, some step => ⟨first.toNat, d.max, step.toNat⟩
  | some first, some last, none => ⟨first.toNat, last.toNat, 1⟩
  | some first, some last, some step => ⟨first.toNat, last.toNat, step.toNat⟩

/-- Allows one more point, if the domain has it. -/
def allowPoint (d : Domain) (flags : Array Bool) (p : Nat) : Array Bool :=
  match d.index? p with
  | some i => flags.setIfInBounds i true
  | none => flags

def allowClause (d : Domain) (flags : Array Bool) (c : Clause) : Array Bool :=
  (c.progression d).points.foldl (allowPoint d) flags

def allowClauses (d : Domain) (cs : List Clause) : Array Bool :=
  cs.foldl (allowClause d) (Array.replicate d.size false)

@[simp] theorem size_allowPoint (d : Domain) (flags : Array Bool) (p : Nat) :
    (allowPoint d flags p).size = flags.size := by
  unfold allowPoint
  split <;> simp

@[simp] theorem size_foldl_allowPoint (d : Domain) (flags : Array Bool) (ps : List Nat) :
    (ps.foldl (allowPoint d) flags).size = flags.size := by
  induction ps generalizing flags with
  | nil => rfl
  | cons p ps ih => simp [ih]

theorem size_foldl_allowClause (d : Domain) (flags : Array Bool) (cs : List Clause) :
    (cs.foldl (allowClause d) flags).size = flags.size := by
  induction cs generalizing flags with
  | nil => rfl
  | cons c cs ih => simp [ih, allowClause]

theorem size_allowClauses (d : Domain) (cs : List Clause) : (allowClauses d cs).size = d.size := by
  simp [allowClauses, size_foldl_allowClause]

/-- The points that some clause of the list stands for. -/
def PointSet.ofClauses (d : Domain) (cs : List Clause) : PointSet d :=
  if cs = [Clause.any] then .full else .ofFlags (allowClauses d cs) (size_allowClauses d cs)

/-- The points that a pattern allows, taking it for valid. -/
def Pattern.merge (p : Pattern) : Allowance := .ofFn fun f => .ofClauses f.domain (p.get f)

/-- The points that a valid pattern allows. -/
def Pattern.allowance (p : Pattern) : Except Diagnostic Allowance := do
  p.validate
  pure p.merge

end Timetable
