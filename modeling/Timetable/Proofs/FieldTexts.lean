import Timetable.Proofs.PatternGrammar

namespace Timetable

/-- The separator behind a field, if another field follows. -/
def Field.separator : Field → Char
  | .year | .month | .second | .millisecond => '.'
  | .day | .weekday => ' '
  | .hour | .minute => ':'

/-- What fields write in front of those that follow. -/
def leading (parts : List (Field × List Char)) : List Char :=
  parts.flatMap fun part => part.2 ++ [part.1.separator]

/-- What fields write, the last of them without a separator. -/
def separated : List (Field × List Char) → List Char
  | [] => []
  | [part] => part.2
  | part :: next :: parts => part.2 ++ part.1.separator :: separated (next :: parts)

theorem separated_append_cons (before : List (Field × List Char)) (part : Field × List Char)
    (after : List (Field × List Char)) :
    separated (before ++ part :: after) = leading before ++ separated (part :: after) := by
  induction before with
  | nil => rfl
  | cons first before ih =>
    have hne : ∃ next parts, before ++ part :: after = next :: parts := by
      cases before with
      | nil => exact ⟨part, after, rfl⟩
      | cons next before => exact ⟨next, before ++ part :: after, rfl⟩
    obtain ⟨next, parts, he⟩ := hne
    rw [List.cons_append, he, separated, ← he, ih]
    simp [leading]

theorem Field.isSeparator_separator (f : Field) : isSeparator f.separator = true := by
  cases f <;> decide

theorem exists_separated_eq_append (part : Field × List Char) (after : List (Field × List Char)) :
    ∃ rest, separated (part :: after) = part.2 ++ rest ∧ EndsField rest := by
  cases after with
  | nil => exact ⟨[], (List.append_nil part.2).symm, endsField_nil⟩
  | cons next after => exact ⟨_, rfl, endsField_cons part.1.isSeparator_separator _⟩

theorem utf8Size_of_mem_leading {parts : List (Field × FieldForm)} {c : Char}
    (hc : c ∈ leading (parts.map fun part => (part.1, part.2.written))) : c.utf8Size = 1 := by
  obtain ⟨written, hwritten, hc⟩ := List.mem_flatMap.mp hc
  obtain ⟨part, -, rfl⟩ := List.mem_map.mp hwritten
  rcases List.mem_append.mp hc with hc | hc
  · exact utf8Size_of_isFieldChar (part.2.isFieldChar c hc)
  · cases List.mem_singleton.mp hc
    cases part.1 <;> decide

theorem length_leading_eq_byteCount (parts : List (Field × FieldForm)) :
    byteCount (leading (parts.map fun part => (part.1, part.2.written))) =
      (leading (parts.map fun part => (part.1, part.2.written))).length :=
  byteCount_eq_length fun _ => utf8Size_of_mem_leading

namespace Layout

theorem written_eq_separated (l : Layout (List Char)) : l.written = separated l.parts := by
  obtain ⟨_ | ⟨year, month, day⟩, _ | weekday, hour, minute, second, _ | millisecond⟩ := l <;>
    simp [written, parts, separated, dateWritten, weekdayWritten, millisecondWritten,
      Field.separator]

/-- The text of a field stands behind what the fields before it write. -/
theorem leading_append_prefix {l : Layout (List Char)} {before after : List (Field × List Char)}
    {part : Field × List Char} (h : l.parts = before ++ part :: after) :
    leading before ++ part.2 <+: l.written := by
  obtain ⟨rest, hrest, -⟩ := exists_separated_eq_append part after
  rw [written_eq_separated, h, separated_append_cons, hrest, ← List.append_assoc]
  exact List.prefix_append _ _

variable {α : Type}

theorem placedFrom_append (text : α → List Char) (offset : Nat) (before after : List (Field × α)) :
    placedFrom text offset (before ++ after) =
      placedFrom text offset before ++
        placedFrom text
          (offset + (leading (before.map fun part => (part.1, text part.2))).length) after := by
  induction before generalizing offset with
  | nil => rfl
  | cons part before ih =>
    simp only [List.cons_append, placedFrom, ih, List.map_cons, leading, List.flatMap_cons,
      List.length_append, List.length_singleton, Nat.add_assoc]

/-- A placed field stands behind what the fields before it write. -/
theorem exists_of_mem_placedFrom {text : α → List Char} {offset : Nat} {parts : List (Field × α)}
    {f : Field} {place : Nat} {a : α} (h : (f, place, a) ∈ placedFrom text offset parts) :
    ∃ before after, parts = before ++ (f, a) :: after ∧
      place = offset + (leading (before.map fun part => (part.1, text part.2))).length := by
  induction parts generalizing offset with
  | nil => cases h
  | cons first parts ih =>
    rcases List.mem_cons.mp h with he | h
    · cases he
      exact ⟨[], parts, rfl, rfl⟩
    · obtain ⟨before, after, rfl, rfl⟩ := ih h
      refine ⟨first :: before, after, rfl, ?_⟩
      simp only [List.map_cons, leading, List.flatMap_cons, List.length_append,
        List.length_singleton, Nat.add_assoc]

end Layout

/-- Whether the grammar derives a field with this text. -/
def IsFieldText (text : List Char) : Prop := ∃ f : FieldForm, f.written = text

/-- A layout of derived fields is a derived pattern. -/
theorem Layout.exists_form {l : Layout (List Char)} (h : ∀ part ∈ l.parts, IsFieldText part.2) :
    ∃ form : PatternForm, form.map FieldForm.written = l := by
  -- Every layout has an hour, so there are fields to choose from.
  obtain ⟨f, -⟩ := h (.hour, l.hour) (by simp [parts])
  have : Nonempty FieldForm := ⟨f⟩
  refine ⟨l.map (Function.invFun FieldForm.written), ?_⟩
  rw [map_map]
  exact (map_congr fun part hpart => Function.invFun_eq (h part hpart)).trans l.map_id

theorem readField_written (field : Field) (f : FieldForm) :
    readField field f.written = fieldClauses field (f.terms 0) := by
  unfold readField
  rw [Reader.run_loneField]
  rfl

theorem readField_written_eq_ok_iff {field : Field} {f : FieldForm} {cs : List Clause} :
    readField field f.written = .ok cs ↔ f.Valid field ∧ cs = f.clauses := by
  rw [readField_written, fieldClauses_eq_ok_iff]

theorem isFieldText_of_readField {field : Field} {text : List Char} {cs : List Clause}
    (h : readField field text = .ok cs) : IsFieldText text := by
  by_contra hno
  obtain ⟨_, _, _, he⟩ := Reader.run_loneField_eq_error (not_exists.mp hno)
  unfold readField at h
  rw [he] at h
  cases h

namespace PatternForm

variable {l : PatternForm}

/-- A pattern is read if each of its fields is read by itself. -/
theorem exists_readPattern_iff :
    (∃ p, readPattern l.written = .ok p) ↔
      ∀ part ∈ l.parts, ∃ cs, readField part.1 part.2.written = .ok cs := by
  simp only [readPattern_eq_ok_iff, readField_written_eq_ok_iff]
  constructor
  · rintro ⟨p, hvalid, -⟩ part hpart
    exact ⟨_, hvalid part hpart, rfl⟩
  · intro h
    obtain ⟨p, hp⟩ := l.exists_means
    refine ⟨p, fun part hpart => ?_, hp⟩
    obtain ⟨cs, hvalid, -⟩ := h part hpart
    exact hvalid

theorem readField_of_readPattern {p : Pattern} (h : readPattern l.written = .ok p) :
    ∀ part ∈ l.parts, readField part.1 part.2.written = .ok (p.get part.1) := by
  obtain ⟨hvalid, hmeans⟩ := readPattern_eq_ok_iff.mp h
  intro part hpart
  exact readField_written_eq_ok_iff.mpr ⟨hvalid part hpart, hmeans.written part hpart⟩

/-- The first field that is refused by itself is what the pattern is refused for. -/
theorem readPattern_eq_error {before after : List (Field × FieldForm)} {part : Field × FieldForm}
    {e : Finding} (hl : l.parts = before ++ part :: after)
    (hbefore : ∀ earlier ∈ before, ∃ cs, readField earlier.1 earlier.2.written = .ok cs)
    (he : readField part.1 part.2.written = .error e) :
    readPattern l.written = .error (e.shift
      (byteCount (leading (before.map fun earlier => (earlier.1, earlier.2.written))))) := by
  rw [readPattern_written, except_map_eq_error, length_leading_eq_byteCount]
  have hplaced : (l.placed FieldForm.written 0).parts = _ := Layout.parts_placed _ l 0
  rw [hl, Layout.placedFrom_append, Layout.placedFrom, Nat.zero_add] at hplaced
  refine Layout.traverse_error hplaced (fun earlier hearlier => ?_) ?_
  · obtain ⟨first, last, hsplit, -⟩ := Layout.exists_of_mem_placedFrom hearlier
    obtain ⟨cs, hcs⟩ := hbefore (earlier.1, earlier.2.2) (by simp [hsplit])
    exact ⟨cs, fieldClauses_eq_ok_iff.mpr (readField_written_eq_ok_iff.mp hcs)⟩
  · rw [fieldClauses_terms, ← readField_written, he]
    rfl

end PatternForm

namespace Layout

variable {l : Layout (List Char)}

/-- A part that is no field keeps the text from being a derived pattern. -/
theorem Separable.isFieldText (hl : l.Separable) {form : PatternForm}
    (h : form.written = l.written) : ∀ part ∈ l.parts, IsFieldText part.2 := by
  have hform : form.map FieldForm.written = l := written_inj form.separable hl h
  rw [← hform, parts_map]
  exact List.forall_mem_map.mpr fun part _ => ⟨part.2, rfl⟩

theorem Separable.readPattern_eq_unexpected (hl : l.Separable)
    (h : ¬∀ part ∈ l.parts, IsFieldText part.2) :
    ∃ expected found span, readPattern l.written = .error ⟨.unexpected expected found, span⟩ :=
  Timetable.readPattern_eq_unexpected fun _ hform => h (hl.isFieldText hform)

theorem Separable.isFieldText_of_readPattern (hl : l.Separable) {p : Pattern}
    (h : readPattern l.written = .ok p) : ∀ part ∈ l.parts, IsFieldText part.2 := by
  by_contra hno
  obtain ⟨_, _, _, he⟩ := hl.readPattern_eq_unexpected hno
  cases h.symm.trans he

theorem exists_readPattern_of_readField
    (h : ∀ part ∈ l.parts, ∃ cs, readField part.1 part.2 = .ok cs) :
    ∃ p, readPattern l.written = .ok p := by
  obtain ⟨form, rfl⟩ := exists_form fun part hpart =>
    let ⟨_, hcs⟩ := h part hpart
    isFieldText_of_readField hcs
  rw [parts_map, List.forall_mem_map] at h
  exact PatternForm.exists_readPattern_iff.mpr h

theorem Separable.readField_of_readPattern (hl : l.Separable) {p : Pattern}
    (h : readPattern l.written = .ok p) :
    ∀ part ∈ l.parts, readField part.1 part.2 = .ok (p.get part.1) := by
  obtain ⟨form, rfl⟩ := exists_form (hl.isFieldText_of_readPattern h)
  rw [parts_map, List.forall_mem_map]
  exact PatternForm.readField_of_readPattern h

theorem readPattern_eq_error (hall : ∀ part ∈ l.parts, IsFieldText part.2)
    {before after : List (Field × List Char)} {part : Field × List Char} {e : Finding}
    (hl : l.parts = before ++ part :: after)
    (hbefore : ∀ earlier ∈ before, ∃ cs, readField earlier.1 earlier.2 = .ok cs)
    (he : readField part.1 part.2 = .error e) :
    readPattern l.written = .error (e.shift (byteCount (leading before))) := by
  obtain ⟨form, rfl⟩ := exists_form hall
  rw [parts_map] at hl
  obtain ⟨before, rest, hform, rfl, hrest⟩ := List.map_eq_append_iff.mp hl
  obtain ⟨part, after, rfl, rfl, -⟩ := List.map_eq_cons_iff.mp hrest
  rw [List.forall_mem_map] at hbefore
  exact PatternForm.readPattern_eq_error hform hbefore he

/-- The pattern that the texts of its fields make up. -/
def text (l : Layout (List Char)) : String := String.ofList l.written

end Layout

/-- Reading a pattern is reading its fields. It fails as the first of them that fails does, where
that one stands, unless one of them is no field at all. -/
theorem pattern_reads_as_fields {l : Layout (List Char)} (hl : l.Separable) :
    ((∃ p, Pattern.ofText l.text = .ok p) ↔
      ∀ part ∈ l.parts, ∃ cs, fieldOfText part.1 (String.ofList part.2) = .ok cs) ∧
    (∀ p, Pattern.ofText l.text = .ok p →
      ∀ part ∈ l.parts, fieldOfText part.1 (String.ofList part.2) = .ok (p.get part.1)) ∧
    ((∀ part ∈ l.parts, IsFieldText part.2) → ∀ before part after d,
      l.parts = before ++ part :: after →
      (∀ earlier ∈ before, ∃ cs, fieldOfText earlier.1 (String.ofList earlier.2) = .ok cs) →
      fieldOfText part.1 (String.ofList part.2) = .error d →
      leading before ++ part.2 <+: l.text.toList ∧
        Pattern.ofText l.text = .error ⟨d.fault, .parse, .ofPattern l.text,
          ⟨byteCount (leading before) + d.span.offset, d.span.length⟩⟩) ∧
    ((∃ part ∈ l.parts, ¬IsFieldText part.2) →
      ∃ d, Pattern.ofText l.text = .error d ∧ d.fault.IsSyntax) := by
  simp only [Pattern.ofText, fieldOfText, Layout.text, String.toList_ofList, mapError_eq_ok,
    mapError_eq_error]
  refine ⟨⟨?_, Layout.exists_readPattern_of_readField⟩, fun p => hl.readField_of_readPattern,
    ?_, ?_⟩
  · rintro ⟨p, hp⟩ part hpart
    exact ⟨_, hl.readField_of_readPattern hp part hpart⟩
  · rintro hall before part after d hsplit hbefore ⟨e, he, rfl⟩
    exact ⟨Layout.leading_append_prefix hsplit, _,
      Layout.readPattern_eq_error hall hsplit hbefore he, rfl⟩
  · rintro ⟨part, hpart, hno⟩
    obtain ⟨_, _, _, he⟩ := hl.readPattern_eq_unexpected fun hall => hno (hall part hpart)
    exact ⟨_, ⟨_, he, rfl⟩, trivial⟩

/-- The texts of `1-5 8-18:61:0`, whose minute no hour has. -/
def lateMinute : Layout (List Char) :=
  ⟨none, some ['1', '-', '5'], ['8', '-', '1', '8'], ['6', '1'], ['0'], none⟩

theorem pattern_reads_as_fields_lateMinute :
    lateMinute.Separable ∧ ∃ d, fieldOfText .minute "61" = .error d ∧
      Pattern.ofText "1-5 8-18:61:0" = .error ⟨d.fault, .parse, .ofPattern "1-5 8-18:61:0",
        ⟨9 + d.span.offset, d.span.length⟩⟩ := by
  have hfields : ∀ part ∈ lateMinute.parts, IsFieldText part.2 := by
    intro part hpart
    have hread : ∀ part ∈ lateMinute.parts, (readField .millisecond part.2).isOk = true := by
      decide +kernel
    obtain ⟨cs, hcs⟩ := exists_ok_of_isOk (hread part hpart)
    exact isFieldText_of_readField hcs
  have hseparable : lateMinute.Separable := by
    intro part hpart
    obtain ⟨f, hf⟩ := hfields part hpart
    exact hf ▸ f.unseparated
  have hbefore : ∀ part ∈ lateMinute.parts.take 2,
      (fieldOfText part.1 (String.ofList part.2)).isOk = true := by
    decide +kernel
  have hlate : (fieldOfText .minute "61").isOk = false := by decide +kernel
  cases hd : fieldOfText .minute "61" with
  | ok cs =>
    rw [hd] at hlate
    cases hlate
  | error d =>
    refine ⟨hseparable, d, rfl, ?_⟩
    obtain ⟨-, -, hfails, -⟩ := pattern_reads_as_fields hseparable
    exact (hfails hfields (lateMinute.parts.take 2) (.minute, ['6', '1']) [(.second, ['0'])] d rfl
      (fun part hpart => exists_ok_of_isOk (hbefore part hpart)) hd).2

end Timetable
