import Timetable.Layout

namespace Timetable

namespace Layout

variable {α β : Type}

def map (g : α → β) (l : Layout α) : Layout β where
  date := l.date.map fun (year, month, day) => (g year, g month, g day)
  weekday := l.weekday.map g
  hour := g l.hour
  minute := g l.minute
  second := g l.second
  millisecond := l.millisecond.map g

/-- What stands for each of the fields that are written, in the order of the text. -/
def parts (l : Layout α) : List (Field × α) :=
  (match l.date with
    | none => []
    | some (year, month, day) => [(.year, year), (.month, month), (.day, day)]) ++
  (match l.weekday with
    | none => []
    | some weekday => [(.weekday, weekday)]) ++
  [(.hour, l.hour), (.minute, l.minute), (.second, l.second)] ++
  (match l.millisecond with
    | none => []
    | some millisecond => [(.millisecond, millisecond)])

theorem parts_map (g : α → β) (l : Layout α) :
    (l.map g).parts = l.parts.map fun part => (part.1, g part.2) := by
  obtain ⟨_ | ⟨year, month, day⟩, _ | weekday, hour, minute, second, _ | millisecond⟩ := l <;> rfl

theorem map_map {γ : Type} (g : α → β) (h : β → γ) (l : Layout α) :
    (l.map g).map h = l.map fun a => h (g a) := by
  obtain ⟨_ | ⟨year, month, day⟩, _ | weekday, hour, minute, second, _ | millisecond⟩ := l <;> rfl

theorem map_id (l : Layout α) : l.map id = l := by
  obtain ⟨_ | ⟨year, month, day⟩, _ | weekday, hour, minute, second, _ | millisecond⟩ := l <;> rfl

theorem map_congr {g k : α → β} {l : Layout α} (h : ∀ part ∈ l.parts, g part.2 = k part.2) :
    l.map g = l.map k := by
  obtain ⟨_ | ⟨year, month, day⟩, _ | weekday, hour, minute, second, _ | millisecond⟩ := l <;>
    simp_all [parts, map]

def dateWritten : Option (List Char × List Char × List Char) → List Char
  | none => []
  | some (year, month, day) => year ++ '.' :: month ++ '.' :: day ++ [' ']

def weekdayWritten : Option (List Char) → List Char
  | none => []
  | some weekday => weekday ++ [' ']

def millisecondWritten : Option (List Char) → List Char
  | none => []
  | some millisecond => '.' :: millisecond

/-- The text with these texts of fields: `year.month.day weekday hour:minute:second.millisecond`,
or less of it. -/
def written (l : Layout (List Char)) : List Char :=
  dateWritten l.date ++ weekdayWritten l.weekday ++
    l.hour ++ ':' :: l.minute ++ ':' :: l.second ++ millisecondWritten l.millisecond

/-- Each of the fields together with the offset of its text, where the layout's text begins at
`offset`. -/
def placed (text : α → List Char) (l : Layout α) (offset : Nat) : Layout (Nat × α) :=
  let dateEnd := offset + (dateWritten (l.map text).date).length
  let timeStart := dateEnd + (weekdayWritten (l.map text).weekday).length
  let minuteStart := timeStart + (text l.hour).length + 1
  let secondStart := minuteStart + (text l.minute).length + 1
  { date := l.date.map fun (year, month, day) =>
      let monthStart := offset + (text year).length + 1
      ((offset, year), (monthStart, month), (monthStart + (text month).length + 1, day))
    weekday := l.weekday.map ((dateEnd, ·))
    hour := (timeStart, l.hour)
    minute := (minuteStart, l.minute)
    second := (secondStart, l.second)
    millisecond := l.millisecond.map ((secondStart + (text l.second).length + 1, ·)) }

/-- Fields in the order of a text, each with its offset. One character follows each field. -/
def placedFrom (text : α → List Char) : Nat → List (Field × α) → List (Field × Nat × α)
  | _, [] => []
  | offset, (f, a) :: parts =>
    (f, offset, a) :: placedFrom text (offset + (text a).length + 1) parts

theorem parts_placed (text : α → List Char) (l : Layout α) (offset : Nat) :
    (l.placed text offset).parts = placedFrom text offset l.parts := by
  obtain ⟨_ | ⟨year, month, day⟩, _ | weekday, hour, minute, second, _ | millisecond⟩ := l <;>
    simp [placed, parts, placedFrom, map, dateWritten, weekdayWritten] <;> omega

theorem map_snd_placed (text : α → List Char) (l : Layout α) (offset : Nat) :
    (l.placed text offset).map Prod.snd = l := by
  obtain ⟨_ | ⟨year, month, day⟩, _ | weekday, hour, minute, second, _ | millisecond⟩ := l <;> rfl

theorem forall_mem_parts_placed {text : α → List Char} {l : Layout α} {offset : Nat}
    {q : Field → α → Prop} :
    (∀ part ∈ (l.placed text offset).parts, q part.1 part.2.2) ↔
      ∀ part ∈ l.parts, q part.1 part.2 := by
  have hparts := parts_map Prod.snd (l.placed text offset)
  rw [map_snd_placed] at hparts
  rw [hparts, List.forall_mem_map]

end Layout

/-- Whether a character stands between the texts of two fields. -/
def isSeparator (c : Char) : Bool := c == ' ' || c == '.' || c == ':'

/-- Whether a text may be that of one field. -/
def Unseparated (text : List Char) : Prop := ∀ c ∈ text, isSeparator c = false

/-- Whether a field's text has ended where this text goes on. -/
def EndsField (rest : List Char) : Prop := ∀ c, rest.head? = some c → isSeparator c = true

theorem endsField_nil : EndsField [] := by
  intro c h
  cases h

theorem endsField_cons {x : Char} (hx : isSeparator x = true) (rest : List Char) :
    EndsField (x :: rest) := by
  intro c h
  cases h
  exact hx

/-- A run of characters ends where a character of another kind follows. -/
theorem takeWhile_append_of_ends {p : Char → Bool} {run rest : List Char}
    (hrun : ∀ c ∈ run, p c = true) (hrest : ∀ c, rest.head? = some c → p c = false) :
    (run ++ rest).takeWhile p = run := by
  have hnil : rest.takeWhile p = [] := by
    cases rest with
    | nil => rfl
    | cons c rest => simp [hrest c rfl]
  rw [List.takeWhile_append_of_pos hrun, hnil, List.append_nil]

namespace Unseparated

variable {text text' rest rest' : List Char} {x x' : Char}

theorem takeWhile_eq (ht : Unseparated text) (hr : EndsField rest) :
    (text ++ rest).takeWhile (fun c => !isSeparator c) = text := by
  apply takeWhile_append_of_ends
  · intro c hc
    simp [ht c hc]
  · intro c hc
    simp [hr c hc]

/-- A text determines its first field. -/
theorem append_inj (ht : Unseparated text) (ht' : Unseparated text') (hr : EndsField rest)
    (hr' : EndsField rest') (h : text ++ rest = text' ++ rest') : text = text' ∧ rest = rest' := by
  have he : text = text' := by rw [← ht.takeWhile_eq hr, h, ht'.takeWhile_eq hr']
  subst he
  exact ⟨rfl, List.append_cancel_left h⟩

theorem cons_inj (ht : Unseparated text) (ht' : Unseparated text') (hx : isSeparator x = true)
    (hx' : isSeparator x' = true) (h : text ++ x :: rest = text' ++ x' :: rest') :
    text = text' ∧ x = x' ∧ rest = rest' := by
  obtain ⟨he, hrest⟩ := ht.append_inj ht' (endsField_cons hx rest) (endsField_cons hx' rest') h
  obtain ⟨hxx, hrest⟩ := List.cons.inj hrest
  exact ⟨he, hxx, hrest⟩

end Unseparated

/-- Whether a text begins with a field behind which one of these separators stands. -/
def OpensWith (separators : List Char) (text : List Char) : Prop :=
  ∃ field x rest, Unseparated field ∧ x ∈ separators ∧ text = field ++ x :: rest

namespace Layout

variable {l l' : Layout (List Char)}

/-- Whether no field's text has a separator in it. -/
def Separable (l : Layout (List Char)) : Prop := ∀ part ∈ l.parts, Unseparated part.2

theorem dateWritten_inj {d d' : Option (List Char × List Char × List Char)}
    {rest rest' : List Char}
    (hd : ∀ y m n, d = some (y, m, n) → Unseparated y ∧ Unseparated m ∧ Unseparated n)
    (hd' : ∀ y m n, d' = some (y, m, n) → Unseparated y ∧ Unseparated m ∧ Unseparated n)
    (hrest : OpensWith [' ', ':'] rest) (hrest' : OpensWith [' ', ':'] rest')
    (h : dateWritten d ++ rest = dateWritten d' ++ rest') : d = d' ∧ rest = rest' := by
  have hne {x : Char} (hx : x ∈ [' ', ':']) : isSeparator x = true ∧ '.' ≠ x := by
    have hx : x = ' ' ∨ x = ':' := by simpa using hx
    rcases hx with rfl | rfl <;> decide
  rcases d with _ | ⟨y, m, n⟩ <;> rcases d' with _ | ⟨y', m', n'⟩ <;>
    simp only [dateWritten, List.append_assoc, List.cons_append, List.nil_append] at h
  case none.none => exact ⟨rfl, h⟩
  -- A year ends at a dot, and whatever else comes first does not.
  case none.some =>
    obtain ⟨text, x, rest, ht, hx, rfl⟩ := hrest
    obtain ⟨-, he, -⟩ := ht.cons_inj (hd' y' m' n' rfl).1 (hne hx).1 (by decide) h
    exact absurd he.symm (hne hx).2
  case some.none =>
    obtain ⟨text, x, rest, ht, hx, rfl⟩ := hrest'
    obtain ⟨-, he, -⟩ := (hd y m n rfl).1.cons_inj ht (by decide) (hne hx).1 h
    exact absurd he (hne hx).2
  case some.some =>
    obtain ⟨hy, hm, hn⟩ := hd y m n rfl
    obtain ⟨hy', hm', hn'⟩ := hd' y' m' n' rfl
    obtain ⟨rfl, -, h⟩ := hy.cons_inj hy' (by decide) (by decide) h
    obtain ⟨rfl, -, h⟩ := hm.cons_inj hm' (by decide) (by decide) h
    obtain ⟨rfl, -, h⟩ := hn.cons_inj hn' (by decide) (by decide) h
    exact ⟨rfl, h⟩

theorem weekdayWritten_inj {w w' : Option (List Char)} {rest rest' : List Char}
    (hw : ∀ t, w = some t → Unseparated t) (hw' : ∀ t, w' = some t → Unseparated t)
    (hrest : OpensWith [':'] rest) (hrest' : OpensWith [':'] rest')
    (h : weekdayWritten w ++ rest = weekdayWritten w' ++ rest') : w = w' ∧ rest = rest' := by
  rcases w with _ | w <;> rcases w' with _ | w' <;>
    simp only [weekdayWritten, List.append_assoc, List.cons_append, List.nil_append] at h
  case none.none => exact ⟨rfl, h⟩
  -- A weekday ends at a blank and an hour at a colon.
  case none.some =>
    obtain ⟨text, x, rest, ht, hx, rfl⟩ := hrest
    cases List.mem_singleton.mp hx
    obtain ⟨-, he, -⟩ := ht.cons_inj (hw' w' rfl) (by decide) (by decide) h
    exact absurd he (by decide)
  case some.none =>
    obtain ⟨text, x, rest, ht, hx, rfl⟩ := hrest'
    cases List.mem_singleton.mp hx
    obtain ⟨-, he, -⟩ := (hw w rfl).cons_inj ht (by decide) (by decide) h
    exact absurd he (by decide)
  case some.some =>
    obtain ⟨rfl, -, h⟩ := (hw w rfl).cons_inj (hw' w' rfl) (by decide) (by decide) h
    exact ⟨rfl, h⟩

theorem endsField_millisecondWritten (m : Option (List Char)) :
    EndsField (millisecondWritten m) := by
  cases m with
  | none => exact endsField_nil
  | some m => exact endsField_cons (by decide) m

theorem millisecondWritten_injective {m m' : Option (List Char)}
    (h : millisecondWritten m = millisecondWritten m') : m = m' := by
  rcases m with _ | m <;> rcases m' with _ | m' <;> cases h <;> rfl

/-- The time of a layout. -/
def timeWritten (l : Layout (List Char)) : List Char :=
  l.hour ++ ':' :: (l.minute ++ ':' :: (l.second ++ millisecondWritten l.millisecond))

theorem written_eq (l : Layout (List Char)) :
    l.written = dateWritten l.date ++ (weekdayWritten l.weekday ++ l.timeWritten) := by
  simp only [written, timeWritten, List.append_assoc, List.cons_append]

theorem opensWith_timeWritten (hl : l.Separable) : OpensWith [':'] l.timeWritten :=
  ⟨l.hour, ':', _, hl (.hour, l.hour) (by simp [parts]), List.mem_singleton_self ':', rfl⟩

theorem opensWith_weekdayWritten (hl : l.Separable) :
    OpensWith [' ', ':'] (weekdayWritten l.weekday ++ l.timeWritten) := by
  cases hw : l.weekday with
  | none =>
    obtain ⟨text, x, rest, ht, hx, he⟩ := opensWith_timeWritten hl
    exact ⟨text, x, rest, ht, List.mem_cons_of_mem _ hx, he⟩
  | some w =>
    have hu : Unseparated w := hl (.weekday, w) (by simp [parts, hw])
    exact ⟨w, ' ', l.timeWritten, hu, List.mem_cons_self, by simp [weekdayWritten]⟩

theorem Separable.date (hl : l.Separable) {y m d : List Char} (h : l.date = some (y, m, d)) :
    Unseparated y ∧ Unseparated m ∧ Unseparated d :=
  ⟨hl (.year, y) (by simp [parts, h]), hl (.month, m) (by simp [parts, h]),
    hl (.day, d) (by simp [parts, h])⟩

/-- A text determines its layout, fields and all. -/
theorem written_inj (hl : l.Separable) (hl' : l'.Separable) (h : l.written = l'.written) :
    l = l' := by
  rw [written_eq, written_eq] at h
  obtain ⟨hdate, h⟩ := dateWritten_inj (fun _ _ _ => hl.date) (fun _ _ _ => hl'.date)
    (opensWith_weekdayWritten hl) (opensWith_weekdayWritten hl') h
  obtain ⟨hweekday, h⟩ := weekdayWritten_inj
    (fun w hw => hl (.weekday, w) (by simp [parts, hw]))
    (fun w hw => hl' (.weekday, w) (by simp [parts, hw]))
    (opensWith_timeWritten hl) (opensWith_timeWritten hl') h
  have hmem (l : Layout (List Char)) : (.hour, l.hour) ∈ l.parts ∧ (.minute, l.minute) ∈ l.parts ∧
      (.second, l.second) ∈ l.parts := by simp [parts]
  obtain ⟨hhour, -, h⟩ := (hl _ (hmem l).1).cons_inj (hl' _ (hmem l').1) (by decide) (by decide) h
  obtain ⟨hminute, -, h⟩ :=
    (hl _ (hmem l).2.1).cons_inj (hl' _ (hmem l').2.1) (by decide) (by decide) h
  obtain ⟨hsecond, h⟩ := (hl _ (hmem l).2.2).append_inj (hl' _ (hmem l').2.2)
    (endsField_millisecondWritten _) (endsField_millisecondWritten _) h
  have hmillisecond := millisecondWritten_injective h
  obtain ⟨date, weekday, hour, minute, second, millisecond⟩ := l
  obtain ⟨date', weekday', hour', minute', second', millisecond'⟩ := l'
  simp only at hdate hweekday hhour hminute hsecond hmillisecond
  subst hdate hweekday hhour hminute hsecond hmillisecond
  rfl

end Layout

end Timetable
