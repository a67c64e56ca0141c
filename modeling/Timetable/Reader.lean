import Timetable.Trace

namespace Timetable

/-- What reading from a place gave: a value and the place after it, unless reading failed there,
and the attempts that were made. -/
structure Reading (α : Type) where
  result : Option (α × Cursor)
  trace : Trace

/-- A reader that tries alternatives in order and never takes back a success. -/
def Reader (α : Type) : Type := Cursor → Reading α

namespace Reader

variable {α β : Type}

protected def pure (a : α) : Reader α := fun c => ⟨some (a, c), .quiet⟩

protected def bind (p : Reader α) (k : α → Reader β) : Reader β := fun c =>
  match p c with
  | ⟨none, t⟩ => ⟨none, t⟩
  | ⟨some (a, d), t⟩ =>
    let r := k a d
    ⟨r.result, t.andThen r.trace⟩

instance : Monad Reader where
  pure := Reader.pure
  bind := Reader.bind

/-- The second reader from the same place, if the first one fails. -/
def orElse (p q : Reader α) : Reader α := fun c =>
  match p c with
  | ⟨some r, t⟩ => ⟨some r, t⟩
  | ⟨none, t⟩ =>
    let r := q c
    ⟨r.result, t.andThen r.trace⟩

/-- What the reader reads, or nothing. -/
def optional (p : Reader α) : Reader (Option α) := fun c =>
  match p c with
  | ⟨some (a, d), t⟩ => ⟨some (some a, d), t⟩
  | ⟨none, t⟩ => ⟨some (none, c), t⟩

/-- Names what the reader reads, so that its failure is reported. -/
def rule (r : Rule) (p : Reader α) : Reader α := fun c =>
  match p c with
  | ⟨some x, t⟩ => ⟨some x, t⟩
  | ⟨none, t⟩ => ⟨none, .failed r c t⟩

/-- Reads as often as the reader succeeds and moves on. -/
def many (p : Reader α) (c : Cursor) : Reading (List α) :=
  match p c with
  | ⟨none, t⟩ => ⟨some ([], c), t⟩
  | ⟨some (a, d), t⟩ =>
    if d.rest.length < c.rest.length then
      let r := many p d
      ⟨r.result.map fun (as, e) => (a :: as, e), t.andThen r.trace⟩
    else ⟨some ([a], d), t⟩
termination_by c.rest.length

def here : Reader Cursor := fun c => ⟨some (c, c), .quiet⟩

def char (x : Char) : Reader Unit := fun c =>
  match c.rest with
  | [] => ⟨none, .quiet⟩
  | y :: rest =>
    if y = x then ⟨some ((), ⟨c.offset + x.utf8Size, rest⟩), .quiet⟩ else ⟨none, .quiet⟩

/-- As many decimal digits as there are, but at least one. -/
def digits : Reader (List Char) := fun c =>
  match c.rest.takeWhile Char.isDigit with
  | [] => ⟨none, .quiet⟩
  | d :: ds =>
    let n := (d :: ds).length
    ⟨some (d :: ds, ⟨c.offset + n, c.rest.drop n⟩), .quiet⟩

def endOfText : Reader Unit := rule .endOfText fun c =>
  match c.rest with
  | [] => ⟨some ((), c), .quiet⟩
  | _ :: _ => ⟨none, .quiet⟩

@[simp] theorem result_pure (a : α) (c : Cursor) :
    ((Pure.pure a : Reader α) c).result = some (a, c) := rfl

@[simp] theorem result_bind (p : Reader α) (k : α → Reader β) (c : Cursor) :
    ((p >>= k) c).result = (p c).result.bind fun r => (k r.1 r.2).result := by
  show (Reader.bind p k c).result = _
  unfold Reader.bind
  rcases p c with ⟨_ | ⟨a, d⟩, t⟩ <;> rfl

@[simp] theorem result_orElse (p q : Reader α) (c : Cursor) :
    (orElse p q c).result = (p c).result.or (q c).result := by
  unfold orElse
  rcases p c with ⟨_ | r, t⟩ <;> rfl

@[simp] theorem result_optional (p : Reader α) (c : Cursor) :
    (optional p c).result =
      some (((p c).result.map fun r => (some r.1, r.2)).getD (none, c)) := by
  unfold optional
  rcases p c with ⟨_ | ⟨a, d⟩, t⟩ <;> rfl

/-- Naming what is read changes only what is reported. -/
@[simp] theorem result_rule (r : Rule) (p : Reader α) (c : Cursor) :
    (rule r p c).result = (p c).result := by
  unfold rule
  rcases p c with ⟨_ | x, t⟩ <;> rfl

theorem result_many (p : Reader α) (c : Cursor) :
    (many p c).result =
      match (p c).result with
      | none => some ([], c)
      | some (a, d) =>
        if d.rest.length < c.rest.length then
          (many p d).result.map fun r => (a :: r.1, r.2)
        else some ([a], d) := by
  rw [many]
  rcases p c with ⟨_ | ⟨a, d⟩, t⟩
  · rfl
  · simp only
    split <;> rfl

@[simp] theorem result_endOfText (c : Cursor) :
    (endOfText c).result = if c.rest = [] then some ((), c) else none := by
  obtain ⟨offset, rest⟩ := c
  cases rest <;> rfl

end Reader

end Timetable
