namespace Timetable

/-- The components of an instant that a pattern constrains, coarsest first. -/
inductive Field
  | year
  | month
  | day
  | weekday
  | hour
  | minute
  | second
  | millisecond
  deriving Repr, DecidableEq

/-- Every field, in the order in which a pattern writes them. -/
def Field.all : List Field :=
  [.year, .month, .day, .weekday, .hour, .minute, .second, .millisecond]

theorem Field.mem_all (f : Field) : f ∈ Field.all := by
  cases f <;> decide

def Field.name : Field → String
  | .year => "year"
  | .month => "month"
  | .day => "day"
  | .weekday => "day of week"
  | .hour => "hour"
  | .minute => "minute"
  | .second => "second"
  | .millisecond => "millisecond"

/-- Consecutive numbers, both ends included. -/
structure Domain where
  min : Nat
  max : Nat
  min_le_max : min ≤ max := by decide
  deriving Repr, DecidableEq

def Domain.size (d : Domain) : Nat := d.max - d.min + 1

theorem Domain.size_pos (d : Domain) : 0 < d.size := Nat.succ_pos _

/-- The day of month that stands for the last day of whichever month it is read in. -/
def lastDayMark : Nat := 32

/-- The numbers that an entry of the field may name. Weekdays count from Sunday. -/
def Field.domain : Field → Domain
  | .year => { min := 2000, max := 2100 }
  | .month => { min := 1, max := 12 }
  | .day => { min := 1, max := lastDayMark }
  | .weekday => { min := 0, max := 6 }
  | .hour => { min := 0, max := 23 }
  | .minute => { min := 0, max := 59 }
  | .second => { min := 0, max := 59 }
  | .millisecond => { min := 0, max := 999 }

/-- A record with one value for each field; the type may depend on the field. -/
structure ByField (α : Field → Type) where
  year : α .year
  month : α .month
  day : α .day
  weekday : α .weekday
  hour : α .hour
  minute : α .minute
  second : α .second
  millisecond : α .millisecond

namespace ByField

variable {α β : Field → Type}

def get (x : ByField α) : (f : Field) → α f
  | .year => x.year
  | .month => x.month
  | .day => x.day
  | .weekday => x.weekday
  | .hour => x.hour
  | .minute => x.minute
  | .second => x.second
  | .millisecond => x.millisecond

def ofFn (g : (f : Field) → α f) : ByField α where
  year := g .year
  month := g .month
  day := g .day
  weekday := g .weekday
  hour := g .hour
  minute := g .minute
  second := g .second
  millisecond := g .millisecond

@[simp] theorem get_ofFn (g : (f : Field) → α f) (f : Field) : (ofFn g).get f = g f := by
  cases f <;> rfl

/-- Records that agree on every field are equal. -/
theorem ext_get {x y : ByField α} (h : ∀ f, x.get f = y.get f) : x = y := by
  cases x
  cases y
  congr
  · exact h .year
  · exact h .month
  · exact h .day
  · exact h .weekday
  · exact h .hour
  · exact h .minute
  · exact h .second
  · exact h .millisecond

instance [∀ f, DecidableEq (α f)] : DecidableEq (ByField α) := fun x y =>
  decidable_of_iff (∀ f ∈ Field.all, x.get f = y.get f)
    ⟨fun h => ext_get fun f => h f f.mem_all, fun h _ _ => h ▸ rfl⟩

end ByField

end Timetable
