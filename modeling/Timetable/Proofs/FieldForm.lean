import Timetable.Check
import Timetable.Grammar
import Timetable.Proofs.LayoutText

namespace Timetable

/-- A run of decimal digits. -/
structure Digits where
  chars : List Char
  ne_nil : chars ≠ []
  isDigit : ∀ c ∈ chars, c.isDigit = true

/-- What a clause says before its step. -/
inductive ClauseHead
  | wildcard
  | number (first : Digits)
  | range (first last : Digits)

/-- A clause as the grammar derives it. -/
structure ClauseForm where
  head : ClauseHead
  step : Option Digits

/-- A field as the grammar derives it: one clause or several, with commas between them. -/
structure FieldForm where
  first : ClauseForm
  others : List ClauseForm

namespace Digits

theorem ext_chars {a b : Digits} (h : a.chars = b.chars) : a = b := by
  cases a
  cases b
  cases h
  rfl

def value (d : Digits) : Nat := decimalValue d.chars

/-- Where the run stands in a text. -/
def numeral (d : Digits) (offset : Nat) : Numeral := ⟨offset, d.chars⟩

theorem exists_cons (d : Digits) : ∃ c cs, d.chars = c :: cs ∧ c.isDigit = true := by
  cases h : d.chars with
  | nil => exact absurd h d.ne_nil
  | cons c cs => exact ⟨c, cs, rfl, d.isDigit c (h ▸ List.mem_cons_self)⟩

end Digits

namespace ClauseHead

def written : ClauseHead → List Char
  | wildcard => ['*']
  | number first => first.chars
  | range first last => first.chars ++ '-' :: last.chars

def numbers : ClauseHead → List Digits
  | wildcard => []
  | number first => [first]
  | range first last => [first, last]

/-- What the head reads as where it stands. -/
def reading (h : ClauseHead) (offset : Nat) : Option (Numeral × Option Numeral) :=
  match h with
  | wildcard => none
  | number first => some (first.numeral offset, none)
  | range first last =>
    some (first.numeral offset, some (last.numeral (offset + first.chars.length + 1)))

end ClauseHead

namespace ClauseForm

def stepWritten (c : ClauseForm) : List Char :=
  match c.step with
  | none => []
  | some step => '/' :: step.chars

def written (c : ClauseForm) : List Char := c.head.written ++ c.stepWritten

def numbers (c : ClauseForm) : List Digits := c.head.numbers ++ c.step.toList

/-- What the clause reads as where it stands. -/
def term (c : ClauseForm) (offset : Nat) : Term where
  range := c.head.reading offset
  step := c.step.map (·.numeral (offset + c.head.written.length + 1))
  start := offset
  stop := offset + c.written.length

/-- Whether 64 bits can hold the numbers. -/
def Fits (c : ClauseForm) : Prop := ∀ n ∈ c.numbers, n.value < UInt64.size

/-- The clause that is meant, if its numbers fit. -/
def clause (c : ClauseForm) : Clause :=
  let step := c.step.map (·.value.toUInt64)
  match c.head with
  | .wildcard => ⟨none, none, step⟩
  | .number first => ⟨some first.value.toUInt64, none, step⟩
  | .range first last => ⟨some first.value.toUInt64, some last.value.toUInt64, step⟩

end ClauseForm

/-- Whether a text can say the clause: it has no last value without a first one. -/
def Clause.Expressible (c : Clause) : Prop := c.first = none → c.last = none

theorem ClauseForm.expressible_clause (c : ClauseForm) : c.clause.Expressible := by
  obtain ⟨_ | first | ⟨first, last⟩, step⟩ := c
  · exact fun _ => rfl
  · exact fun _ => rfl
  · exact fun h => nomatch h

namespace FieldForm

def all (f : FieldForm) : List ClauseForm := f.first :: f.others

def othersWritten (cs : List ClauseForm) : List Char := cs.flatMap fun c => ',' :: c.written

def written (f : FieldForm) : List Char := f.first.written ++ othersWritten f.others

/-- What clauses with commas before them read as. -/
def othersTerms : List ClauseForm → Nat → List Term
  | [], _ => []
  | c :: cs, offset => c.term (offset + 1) :: othersTerms cs (offset + 1 + c.written.length)

/-- What the field reads as where it stands. -/
def terms (f : FieldForm) (offset : Nat) : List Term :=
  f.first.term offset :: othersTerms f.others (offset + f.first.written.length)

def clauses (f : FieldForm) : List Clause := f.all.map ClauseForm.clause

theorem clauses_ne_nil (f : FieldForm) : f.clauses ≠ [] := List.cons_ne_nil _ _

def Fits (f : FieldForm) : Prop := ∀ c ∈ f.all, c.Fits

end FieldForm

theorem byteCount_eq_length {text : List Char} (h : ∀ c ∈ text, c.utf8Size = 1) :
    byteCount text = text.length := by
  induction text with
  | nil => rfl
  | cons c cs ih =>
    obtain ⟨hc, hcs⟩ := List.forall_mem_cons.mp h
    rw [byteCount, hc, ih hcs, List.length_cons, Nat.add_comm]

/-- Whether a character may stand in a field. -/
def isFieldChar (c : Char) : Bool := c.isDigit || c == '*' || c == '-' || c == '/' || c == ','

theorem isFieldChar_of_isDigit {c : Char} (h : c.isDigit = true) : isFieldChar c = true := by
  simp [isFieldChar, h]

theorem isFieldChar_cases {c : Char} (h : isFieldChar c = true) :
    c.isDigit = true ∨ c = '*' ∨ c = '-' ∨ c = '/' ∨ c = ',' := by
  simpa [isFieldChar, or_assoc] using h

theorem isSeparator_of_isFieldChar {c : Char} (h : isFieldChar c = true) :
    isSeparator c = false := by
  rcases isFieldChar_cases h with hd | rfl | rfl | rfl | rfl
  · cases hs : isSeparator c with
    | false => rfl
    | true =>
      have hs : (c = ' ' ∨ c = '.') ∨ c = ':' := by simpa [isSeparator] using hs
      rcases hs with (rfl | rfl) | rfl <;> exact absurd hd (by decide)
  all_goals decide

theorem utf8Size_of_isFieldChar {c : Char} (h : isFieldChar c = true) : c.utf8Size = 1 := by
  rcases isFieldChar_cases h with hd | rfl | rfl | rfl | rfl
  · rw [Char.utf8Size_eq_one_iff]
    simp only [Char.isDigit, Bool.and_eq_true, decide_eq_true_eq] at hd
    exact UInt32.le_trans hd.2 (by decide)
  all_goals decide

theorem ClauseHead.forall_mem_written {q : Char → Prop} (hdigit : ∀ x, x.isDigit = true → q x)
    (hstar : q '*') (hdash : q '-') (h : ClauseHead) : ∀ x ∈ h.written, q x := by
  cases h with
  | wildcard => exact List.forall_mem_singleton.mpr hstar
  | number first => exact fun x hx => hdigit x (first.isDigit x hx)
  | range first last =>
    exact List.forall_mem_append.mpr ⟨fun x hx => hdigit x (first.isDigit x hx),
      List.forall_mem_cons.mpr ⟨hdash, fun x hx => hdigit x (last.isDigit x hx)⟩⟩

theorem ClauseForm.forall_mem_written {q : Char → Prop} (hdigit : ∀ x, x.isDigit = true → q x)
    (hstar : q '*') (hdash : q '-') (hslash : q '/') (c : ClauseForm) : ∀ x ∈ c.written, q x := by
  refine List.forall_mem_append.mpr ⟨c.head.forall_mem_written hdigit hstar hdash, ?_⟩
  unfold stepWritten
  cases c.step with
  | none => exact List.forall_mem_nil _
  | some step => exact List.forall_mem_cons.mpr ⟨hslash, fun x hx => hdigit x (step.isDigit x hx)⟩

theorem ClauseForm.isFieldChar (c : ClauseForm) : ∀ x ∈ c.written, isFieldChar x = true :=
  c.forall_mem_written (fun _ => isFieldChar_of_isDigit) (by decide) (by decide) (by decide)

theorem ClauseForm.comma_notMem (c : ClauseForm) : ',' ∉ c.written := by
  have hne : ∀ x ∈ c.written, x ≠ ',' := by
    refine c.forall_mem_written ?_ (by decide) (by decide) (by decide)
    rintro x hx rfl
    cases hx
  exact fun hmem => hne ',' hmem rfl

theorem FieldForm.isFieldChar (f : FieldForm) : ∀ x ∈ f.written, isFieldChar x = true := by
  refine List.forall_mem_append.mpr ⟨f.first.isFieldChar, ?_⟩
  intro x hx
  obtain ⟨c, -, hx⟩ := List.mem_flatMap.mp hx
  exact List.forall_mem_cons.mpr ⟨by decide, c.isFieldChar⟩ x hx

theorem FieldForm.unseparated (f : FieldForm) : Unseparated f.written := fun x hx =>
  isSeparator_of_isFieldChar (f.isFieldChar x hx)

end Timetable
