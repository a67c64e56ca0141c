import Timetable.Proofs.FieldTexts

namespace Timetable

/-- Whether a text reads `before`, `part` and `after`, where the characters next to the part are of
a kind that bounds it. An end of the text bounds any part. -/
structure SetOff (bounds : Char → Prop) (text before part after : List Char) : Prop where
  text_eq : text = before ++ part ++ after
  before_ends : ∀ x, before.getLast? = some x → bounds x
  after_begins : ∀ x, after.head? = some x → bounds x

/-- The characters that bound a field. -/
def BoundsField (x : Char) : Prop := isSeparator x = true

/-- The characters that bound a clause. -/
def BoundsClause (x : Char) : Prop := x = ',' ∨ isSeparator x = true

/-- The characters that bound a number. -/
def BoundsNumber (x : Char) : Prop := x.isDigit = false

theorem BoundsField.boundsClause {x : Char} (h : BoundsField x) : BoundsClause x := Or.inr h

theorem BoundsClause.boundsNumber {x : Char} (h : BoundsClause x) : BoundsNumber x := by
  have hends : EndsClause [x] := by
    rintro y ⟨⟩
    exact h
  exact (hends.not_continues rfl).1

namespace SetOff

variable {bounds bounds' : Char → Prop} {text before part after before' part' after' : List Char}

theorem bounds_concat {x : Char} (hx : bounds x) (before : List Char) :
    ∀ y, (before ++ [x]).getLast? = some y → bounds y := by
  intro y hy
  rw [List.getLast?_concat] at hy
  cases hy
  exact hx

theorem at_start (h : text = part ++ after) (hafter : ∀ x, after.head? = some x → bounds x) :
    SetOff bounds text [] part after :=
  ⟨h, fun _ hx => (by cases hx), hafter⟩

theorem at_end (h : text = before ++ part) (hbefore : ∀ x, before.getLast? = some x → bounds x) :
    SetOff bounds text before part [] :=
  ⟨by rw [h, List.append_nil], hbefore, fun _ hx => (by cases hx)⟩

theorem whole (bounds : Char → Prop) (text : List Char) : SetOff bounds text [] text [] :=
  at_start (List.append_nil text).symm fun _ hx => (by cases hx)

/-- A part of a part is a part of the whole. What bounds the outer one must bound the inner one,
which may stand at its edge. -/
theorem within (h : SetOff bounds text before part after)
    (h' : SetOff bounds' part before' part' after') (hle : ∀ x, bounds x → bounds' x) :
    SetOff bounds' text (before ++ before') part' (after' ++ after) where
  text_eq := by
    rw [h.text_eq, h'.text_eq]
    simp only [List.append_assoc]
  before_ends := by
    intro x hx
    rw [List.getLast?_append, Option.or_eq_some_iff] at hx
    rcases hx with hx | ⟨-, hx⟩
    · exact h'.before_ends x hx
    · exact hle x (h.before_ends x hx)
  after_begins := by
    intro x hx
    rw [List.head?_append, Option.or_eq_some_iff] at hx
    rcases hx with hx | ⟨-, hx⟩
    · exact h'.after_begins x hx
    · exact hle x (h.after_begins x hx)

/-- In a text of one-byte characters, places and lengths are counted in bytes. -/
theorem byteCount_eq (h : SetOff bounds text before part after)
    (hsize : ∀ c ∈ text, c.utf8Size = 1) :
    byteCount before = before.length ∧ byteCount part = part.length := by
  rw [h.text_eq] at hsize
  obtain ⟨hsize, -⟩ := List.forall_mem_append.mp hsize
  obtain ⟨hbefore, hpart⟩ := List.forall_mem_append.mp hsize
  exact ⟨byteCount_eq_length hbefore, byteCount_eq_length hpart⟩

end SetOff

theorem ClauseForm.boundsNumber_stepWritten (c : ClauseForm) :
    ∀ x, c.stepWritten.head? = some x → BoundsNumber x := by
  unfold stepWritten
  split
  all_goals
    rintro x ⟨⟩
  rfl

/-- The numbers of a clause stand apart from each other. -/
theorem ClauseForm.setOff_numeral {c : ClauseForm} {offset : Nat} {n : Numeral}
    (h : n ∈ (c.term offset).numerals) :
    ∃ (run : Digits) (before after : List Char),
      SetOff BoundsNumber c.written before run.chars after ∧
        n = run.numeral (offset + before.length) := by
  have hstepped := c.boundsNumber_stepWritten
  rcases List.mem_append.mp h with hhead | hstep
  · unfold term at hhead
    cases hc : c.head with
    | wildcard => simp [hc, ClauseHead.reading] at hhead
    | number first =>
      obtain rfl : n = first.numeral offset := by simpa [hc, ClauseHead.reading] using hhead
      have hwritten : c.written = first.chars ++ c.stepWritten := by
        simp [written, hc, ClauseHead.written]
      exact ⟨first, [], c.stepWritten, .at_start hwritten hstepped, rfl⟩
    | range first last =>
      have hn : n = first.numeral offset ∨
          n = last.numeral (offset + first.chars.length + 1) := by
        simpa [hc, ClauseHead.reading] using hhead
      have hwritten : c.written = first.chars ++ ('-' :: last.chars ++ c.stepWritten) := by
        simp [written, hc, ClauseHead.written]
      rcases hn with rfl | rfl
      · refine ⟨first, [], _, .at_start hwritten ?_, rfl⟩
        rintro x ⟨⟩
        rfl
      · refine ⟨last, first.chars ++ ['-'], c.stepWritten, ⟨?_, ?_, hstepped⟩, ?_⟩
        · simp [hwritten]
        · have hdash : BoundsNumber '-' := rfl
          exact SetOff.bounds_concat hdash first.chars
        · simp [Nat.add_assoc]
  · cases hs : c.step with
    | none => simp [term, hs] at hstep
    | some step =>
      obtain rfl : n = step.numeral (offset + c.head.written.length + 1) := by
        simpa [term, hs] using hstep
      have hwritten : c.written = c.head.written ++ ['/'] ++ step.chars := by
        simp [written, stepWritten, hs]
      refine ⟨step, c.head.written ++ ['/'], [], .at_end hwritten ?_, ?_⟩
      · have hslash : BoundsNumber '/' := rfl
        exact SetOff.bounds_concat hslash c.head.written
      · simp [Nat.add_assoc]

namespace FieldForm

theorem endsClause_othersWritten (cs : List ClauseForm) : EndsClause (othersWritten cs) := by
  have hends := endsClause_others cs endsField_nil
  rwa [List.append_nil] at hends

theorem getElem?_othersTerms {cs : List ClauseForm} {offset i : Nat} {t : Term}
    (h : (othersTerms cs offset)[i]? = some t) :
    ∃ (c : ClauseForm) (before after : List Char), cs[i]? = some c ∧
      othersWritten cs = before ++ ',' :: (c.written ++ after) ∧ EndsClause after ∧
        t = c.term (offset + before.length + 1) := by
  induction cs generalizing offset i with
  | nil => cases h
  | cons first cs ih =>
    cases i with
    | zero =>
      cases h
      exact ⟨first, [], othersWritten cs, rfl, rfl, endsClause_othersWritten cs, rfl⟩
    | succ i =>
      obtain ⟨c, before, after, hc, hwritten, hafter, rfl⟩ := ih h
      refine ⟨c, ',' :: first.written ++ before, after, hc, ?_, hafter, ?_⟩
      · simp [othersWritten, ← hwritten]
      · congr 1
        simp only [List.length_append, List.length_cons]
        omega

/-- The clauses of a field stand apart from each other. -/
theorem setOff_clause {f : FieldForm} {offset i : Nat} {t : Term}
    (h : (f.terms offset)[i]? = some t) :
    ∃ (c : ClauseForm) (before after : List Char), f.all[i]? = some c ∧
      SetOff BoundsClause f.written before c.written after ∧
        t = c.term (offset + before.length) := by
  cases i with
  | zero =>
    cases h
    exact ⟨f.first, [], othersWritten f.others, rfl,
      .at_start rfl (endsClause_othersWritten f.others), rfl⟩
  | succ i =>
    obtain ⟨c, before, after, hc, hwritten, hafter, rfl⟩ := getElem?_othersTerms h
    refine ⟨c, f.first.written ++ before ++ [','], after, hc, ⟨?_, ?_, hafter⟩, ?_⟩
    · simp [written, hwritten]
    · exact SetOff.bounds_concat (Or.inl rfl) (f.first.written ++ before)
    · congr 1
      simp only [List.length_append, List.length_singleton]
      omega

end FieldForm

/-- The clauses of a field stand apart from each other in any text that the field stands in. -/
theorem SetOff.clause {f : FieldForm} {text before after : List Char} {i : Nat} {t : Term}
    (hf : SetOff BoundsField text before f.written after)
    (h : (f.terms before.length)[i]? = some t) :
    ∃ (c : ClauseForm) (front back : List Char), f.all[i]? = some c ∧
      SetOff BoundsClause text front c.written back ∧ t = c.term front.length := by
  obtain ⟨c, front, back, hc, hplace, rfl⟩ := FieldForm.setOff_clause h
  refine ⟨c, before ++ front, back ++ after, hc,
    hf.within hplace fun _ => BoundsField.boundsClause, ?_⟩
  rw [List.length_append]

theorem boundsField_leading (parts : List (Field × List Char)) :
    ∀ x, (leading parts).getLast? = some x → BoundsField x := by
  induction parts with
  | nil =>
    intro x hx
    cases hx
  | cons part parts ih =>
    intro x hx
    rw [leading, List.flatMap_cons, List.getLast?_append, Option.or_eq_some_iff] at hx
    rcases hx with hx | ⟨-, hx⟩
    · exact ih x hx
    · exact SetOff.bounds_concat part.1.isSeparator_separator part.2 x hx

theorem separated_prefix_leading (parts : List (Field × List Char)) :
    separated parts <+: leading parts := by
  induction parts with
  | nil => exact List.prefix_rfl
  | cons part parts ih =>
    cases parts with
    | nil => exact ⟨[part.1.separator], by simp [separated, leading]⟩
    | cons next parts =>
      obtain ⟨rest, hrest⟩ := ih
      have hleading : leading (part :: next :: parts) =
          part.2 ++ [part.1.separator] ++ leading (next :: parts) := rfl
      refine ⟨rest, ?_⟩
      rw [hleading, ← hrest]
      simp [separated]

namespace PatternForm

variable {l : PatternForm}

theorem written_eq_separated (l : PatternForm) :
    l.written = separated (l.parts.map fun part => (part.1, part.2.written)) := by
  rw [written, Layout.written_eq_separated, Layout.parts_map]

/-- The characters of a pattern take one byte each. -/
theorem utf8Size_of_mem_written : ∀ c ∈ l.written, c.utf8Size = 1 := by
  intro c hc
  rw [written_eq_separated] at hc
  exact utf8Size_of_mem_leading ((separated_prefix_leading _).subset hc)

/-- The fields of a pattern stand apart from each other. -/
theorem setOff_field {f : Field} {place : Nat} {a : FieldForm}
    (h : (f, place, a) ∈ (l.placed FieldForm.written 0).parts) :
    ∃ before after, SetOff BoundsField l.written before a.written after ∧
      place = before.length := by
  rw [Layout.parts_placed] at h
  obtain ⟨parts, parts', hparts, rfl⟩ := Layout.exists_of_mem_placedFrom h
  obtain ⟨rest, hrest, hends⟩ := exists_separated_eq_append (f, a.written)
    (parts'.map fun part => (part.1, part.2.written))
  refine ⟨leading (parts.map fun part => (part.1, part.2.written)), rest, ⟨?_, ?_, hends⟩,
    Nat.zero_add _⟩
  · rw [written_eq_separated, hparts, List.map_append, List.map_cons, separated_append_cons, hrest,
      List.append_assoc]
  · exact boundsField_leading _

end PatternForm

end Timetable
