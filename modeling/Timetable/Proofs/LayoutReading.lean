import Timetable.PatternText
import Timetable.Proofs.FieldReading

namespace Timetable

/-- A pattern as the grammar derives it, which is a layout of derived fields. -/
abbrev PatternForm := Layout FieldForm

namespace PatternForm

/-- The text that is derived. -/
def written (l : PatternForm) : List Char := (l.map FieldForm.written).written

/-- What the fields read as where they stand. -/
def terms (l : PatternForm) (offset : Nat) : Layout (List Term) :=
  (l.placed FieldForm.written offset).map fun a => a.2.terms a.1

end PatternForm

def dateTexts (date : FieldForm × FieldForm × FieldForm) : List Char × List Char × List Char :=
  let (year, month, day) := date
  (year.written, month.written, day.written)

/-- What the fields of a date read as, where the date begins at `offset`. -/
def dateTerms (offset : Nat) (date : FieldForm × FieldForm × FieldForm) :
    List Term × List Term × List Term :=
  let (year, month, day) := date
  let monthStart := offset + year.written.length + 1
  (year.terms offset, month.terms monthStart, day.terms (monthStart + month.written.length + 1))

/-- The time of a pattern as the grammar derives it. -/
structure TimeForm where
  hour : FieldForm
  minute : FieldForm
  second : FieldForm
  millisecond : Option FieldForm

namespace TimeForm

def written (t : TimeForm) : List Char :=
  t.hour.written ++ ':' :: t.minute.written ++ ':' :: t.second.written ++
    Layout.millisecondWritten (t.millisecond.map FieldForm.written)

def terms (t : TimeForm) (offset : Nat) :
    List Term × List Term × List Term × Option (List Term) :=
  let minuteStart := offset + t.hour.written.length + 1
  let secondStart := minuteStart + t.minute.written.length + 1
  (t.hour.terms offset, t.minute.terms minuteStart, t.second.terms secondStart,
    t.millisecond.map (·.terms (secondStart + t.second.written.length + 1)))

variable {text : List Char}

theorem written_none (hour minute second : FieldForm) :
    (⟨hour, minute, second, none⟩ : TimeForm).written =
      hour.written ++ ':' :: minute.written ++ ':' :: second.written :=
  List.append_nil _

theorem written_some (hour minute second millisecond : FieldForm) :
    (⟨hour, minute, second, some millisecond⟩ : TimeForm).written =
      hour.written ++ ':' :: minute.written ++ ':' :: second.written ++ '.' :: millisecond.written :=
  rfl

theorem begins_second (hour minute : FieldForm) (h : Begins FieldForm.written text) :
    Begins written (hour.written ++ ':' :: minute.written ++ ':' :: text) := by
  obtain ⟨second, hsecond⟩ := h
  refine ⟨⟨hour, minute, second, none⟩, ?_⟩
  rw [written_none, List.prefix_append_right_inj, List.cons_prefix_cons]
  exact ⟨rfl, hsecond⟩

theorem begins_millisecond (hour minute second : FieldForm)
    (h : Begins FieldForm.written text) :
    Begins written
      (hour.written ++ ':' :: minute.written ++ ':' :: second.written ++ '.' :: text) := by
  obtain ⟨millisecond, hmillisecond⟩ := h
  refine ⟨⟨hour, minute, second, some millisecond⟩, ?_⟩
  rw [written_some, List.prefix_append_right_inj, List.cons_prefix_cons]
  exact ⟨rfl, hmillisecond⟩

theorem begins_minute (hour : FieldForm) (h : Begins FieldForm.written text) :
    Begins written (hour.written ++ ':' :: text) := by
  obtain ⟨minute, hminute⟩ := h
  refine (begins_second hour minute ⟨minute, List.nil_prefix⟩).shorter ?_
  rw [List.append_assoc, List.prefix_append_right_inj]
  exact List.cons_prefix_cons.mpr ⟨rfl, List.prefix_append_of_prefix hminute⟩

theorem begins_hour (h : Begins FieldForm.written text) : Begins written text := by
  obtain ⟨hour, hhour⟩ := h
  exact (begins_minute hour ⟨hour, List.nil_prefix⟩).shorter (List.prefix_append_of_prefix hhour)

end TimeForm

namespace PatternForm

def ofParts (date : Option (FieldForm × FieldForm × FieldForm)) (weekday : Option FieldForm)
    (time : TimeForm) : PatternForm :=
  ⟨date, weekday, time.hour, time.minute, time.second, time.millisecond⟩

theorem exists_ofParts (l : PatternForm) : ∃ date weekday time, l = ofParts date weekday time :=
  ⟨l.date, l.weekday, ⟨l.hour, l.minute, l.second, l.millisecond⟩, rfl⟩

theorem written_ofParts (date : Option (FieldForm × FieldForm × FieldForm))
    (weekday : Option FieldForm) (time : TimeForm) :
    (ofParts date weekday time).written = Layout.dateWritten (date.map dateTexts) ++
      (Layout.weekdayWritten (weekday.map FieldForm.written) ++ time.written) := by
  simp only [written, Layout.written, TimeForm.written, List.append_assoc]
  rfl

theorem terms_ofParts (date : Option (FieldForm × FieldForm × FieldForm))
    (weekday : Option FieldForm) (time : TimeForm) (offset : Nat) :
    (ofParts date weekday time).terms offset =
      let dateEnd := offset + (Layout.dateWritten (date.map dateTexts)).length
      let timeStart := dateEnd + (Layout.weekdayWritten (weekday.map FieldForm.written)).length
      let (hour, minute, second, millisecond) := time.terms timeStart
      ⟨date.map (dateTerms offset), weekday.map (·.terms dateEnd), hour, minute, second,
        millisecond⟩ := by
  obtain ⟨hour, minute, second, millisecond⟩ := time
  rcases date with _ | ⟨year, month, day⟩ <;> rcases weekday with _ | weekday <;>
    rcases millisecond with _ | millisecond <;> rfl

end PatternForm

namespace Reader

variable {β : Type} {c d : Cursor}

/-- Reading a field and a separator, and going on from there. -/
theorem field_char_passes {x : Char} (hx : x.utf8Size = 1) {k : List Term → Reader β}
    {r : β × Cursor} (h : ((do let ts ← field; char x; k ts) c).result = some r) :
    ∃ (f : FieldForm) (e : Cursor), c.Passes (f.written ++ [x]) e ∧
      e.offset = c.offset + f.written.length + 1 ∧ (k (f.terms c.offset) e).result = some r := by
  obtain ⟨ts, e, hfield, h⟩ := bind_eq_some.mp h
  obtain ⟨⟨⟩, g, hchar, h⟩ := bind_eq_some.mp h
  obtain ⟨f, hpasses, rfl⟩ := field_passes hfield
  have hchar := (char_eq_some hx).mp hchar
  refine ⟨f, g, hpasses.trans hchar, ?_, h⟩
  rw [hchar.offset_eq, hpasses.offset_eq]
  rfl

theorem date_passes {r : List Term × List Term × List Term}
    (h : (date c).result = some (r, d)) :
    ∃ y m n : FieldForm,
      c.Passes (y.written ++ '.' :: m.written ++ '.' :: n.written) d ∧
        r = dateTerms c.offset (y, m, n) := by
  rw [date, result_rule] at h
  obtain ⟨y, c₁, hy, hoffset, h⟩ := field_char_passes (by decide) h
  obtain ⟨m, c₂, hm, hoffset', h⟩ := field_char_passes (by decide) h
  obtain ⟨ts, c₃, hn, h⟩ := bind_eq_some.mp h
  obtain ⟨n, hpasses, rfl⟩ := field_passes hn
  obtain ⟨rfl, rfl⟩ := pure_eq_some.mp h
  refine ⟨y, m, n, ?_, ?_⟩
  · simpa using hy.trans (hm.trans hpasses)
  · rw [hoffset', hoffset]
    rfl

theorem time_passes {r : List Term × List Term × List Term × Option (List Term)}
    (h : (time c).result = some (r, d)) :
    ∃ t : TimeForm, c.Passes t.written d ∧ r = t.terms c.offset := by
  rw [time, result_rule] at h
  obtain ⟨hour, c₁, hhour, hoffset, h⟩ := field_char_passes (by decide) h
  obtain ⟨minute, c₂, hminute, hoffset', h⟩ := field_char_passes (by decide) h
  obtain ⟨ts, c₃, hsecond, h⟩ := bind_eq_some.mp h
  obtain ⟨second, hpasses, rfl⟩ := field_passes hsecond
  obtain ⟨o, c₄, hoption, h⟩ := bind_eq_some.mp h
  obtain ⟨rfl, rfl⟩ := pure_eq_some.mp h
  rw [hoffset', hoffset]
  cases o with
  | none =>
    obtain ⟨-, rfl⟩ := optional_eq_none.mp hoption
    refine ⟨⟨hour, minute, second, none⟩, ?_, rfl⟩
    simpa [TimeForm.written, Layout.millisecondWritten] using hhour.trans (hminute.trans hpasses)
  | some ts =>
    obtain ⟨⟨⟩, c₅, hdot, hmillisecond⟩ := bind_eq_some.mp (optional_eq_some.mp hoption)
    have hdot := (char_eq_some (by decide)).mp hdot
    obtain ⟨millisecond, hpasses', rfl⟩ := field_passes hmillisecond
    refine ⟨⟨hour, minute, second, some millisecond⟩, ?_, ?_⟩
    · simpa [TimeForm.written, Layout.millisecondWritten] using
        hhour.trans (hminute.trans (hpasses.trans (hdot.trans hpasses')))
    · rw [hdot.offset_eq, hpasses.offset_eq, hoffset', hoffset]
      rfl

theorem optional_date_passes {o : Option (List Term × List Term × List Term)}
    (h : (optional (do let r ← date; char ' '; pure r) c).result = some (o, d)) :
    ∃ f : Option (FieldForm × FieldForm × FieldForm),
      c.Passes (Layout.dateWritten (f.map dateTexts)) d ∧ o = f.map (dateTerms c.offset) := by
  cases o with
  | none =>
    obtain ⟨-, rfl⟩ := optional_eq_none.mp h
    exact ⟨none, .refl d, rfl⟩
  | some r =>
    obtain ⟨_, e, hdate, h⟩ := bind_eq_some.mp (optional_eq_some.mp h)
    obtain ⟨⟨⟩, g, hspace, h⟩ := bind_eq_some.mp h
    obtain ⟨rfl, rfl⟩ := pure_eq_some.mp h
    obtain ⟨y, m, n, hpasses, rfl⟩ := date_passes hdate
    exact ⟨some (y, m, n), hpasses.trans ((char_eq_some (by decide)).mp hspace), rfl⟩

theorem optional_weekday_passes {o : Option (List Term)}
    (h : (optional (do let r ← weekday; char ' '; pure r) c).result = some (o, d)) :
    ∃ f : Option FieldForm,
      c.Passes (Layout.weekdayWritten (f.map FieldForm.written)) d ∧
        o = f.map (·.terms c.offset) := by
  cases o with
  | none =>
    obtain ⟨-, rfl⟩ := optional_eq_none.mp h
    exact ⟨none, .refl d, rfl⟩
  | some r =>
    obtain ⟨_, e, hweekday, h⟩ := bind_eq_some.mp (optional_eq_some.mp h)
    obtain ⟨⟨⟩, g, hspace, h⟩ := bind_eq_some.mp h
    obtain ⟨rfl, rfl⟩ := pure_eq_some.mp h
    rw [weekday, result_rule] at hweekday
    obtain ⟨w, hpasses, rfl⟩ := field_passes hweekday
    exact ⟨some w, hpasses.trans ((char_eq_some (by decide)).mp hspace), rfl⟩

/-- What is read as a pattern is one that the grammar derives. -/
theorem layout_passes {r : Layout (List Term)} (h : (layout c).result = some (r, d)) :
    ∃ l : PatternForm, c.Passes l.written d ∧ d.rest = [] ∧ r = l.terms c.offset := by
  rw [layout, result_rule] at h
  obtain ⟨_, c₁, hdate, h⟩ := bind_eq_some.mp h
  obtain ⟨_, c₂, hweekday, h⟩ := bind_eq_some.mp h
  obtain ⟨_, c₃, htime, h⟩ := bind_eq_some.mp h
  obtain ⟨⟨⟩, c₄, hend, h⟩ := bind_eq_some.mp h
  obtain ⟨date, hpasses, rfl⟩ := optional_date_passes hdate
  obtain ⟨weekday, hpasses', rfl⟩ := optional_weekday_passes hweekday
  obtain ⟨time, hpasses'', rfl⟩ := time_passes htime
  obtain ⟨rfl, rfl⟩ := pure_eq_some.mp h
  obtain ⟨hnil, rfl⟩ := endOfText_eq_some.mp hend
  refine ⟨.ofParts date weekday time, ?_, hnil, ?_⟩
  · rw [PatternForm.written_ofParts]
    exact hpasses.trans (hpasses'.trans hpasses'')
  · rw [PatternForm.terms_ofParts, hpasses'.offset_eq, hpasses.offset_eq]

theorem field_char_eq {x : Char} (hx : x.utf8Size = 1) (hs : isSeparator x = true)
    {k : List Term → Reader β} {f : FieldForm} (h : c.Passes (f.written ++ [x]) d) :
    ((do let ts ← field; char x; k ts) c).result = (k (f.terms c.offset) d).result := by
  obtain ⟨e, hf, hchar⟩ := h.split
  have hend : EndsField e.rest := hchar.rest_eq ▸ endsField_cons hs d.rest
  rw [result_bind, field_eq_some hf hend, Option.bind_some, result_bind,
    (char_eq_some hx).mpr hchar, Option.bind_some]

theorem field_char_eq_none {x : Char} {k : List Term → Reader β} {f : FieldForm}
    (h : c.Passes f.written d) (hend : EndsField d.rest) (hne : d.rest.head? ≠ some x) :
    ((do let ts ← field; char x; k ts) c).result = none := by
  rw [result_bind, field_eq_some h hend, Option.bind_some]
  exact bind_eq_none (char_eq_none hne)

theorem date_eq_some {y m n : FieldForm}
    (h : c.Passes (y.written ++ '.' :: m.written ++ '.' :: n.written) d)
    (hend : EndsField d.rest) :
    (date c).result = some (dateTerms c.offset (y, m, n), d) := by
  have h : c.Passes ((y.written ++ ['.']) ++ ((m.written ++ ['.']) ++ n.written)) d := by
    simpa using h
  obtain ⟨c₁, hy, h⟩ := h.split
  obtain ⟨c₂, hm, hn⟩ := h.split
  rw [date, result_rule, field_char_eq (by decide) (by decide) hy,
    field_char_eq (by decide) (by decide) hm]
  refine bind_eq_some.mpr ⟨_, d, field_eq_some hn hend, ?_⟩
  rw [hm.offset_eq, hy.offset_eq]
  simp [dateTerms, Nat.add_assoc]

theorem optional_date_some {y m n : FieldForm}
    (h : c.Passes (Layout.dateWritten (some (dateTexts (y, m, n)))) d) :
    (optional (do let r ← date; char ' '; pure r) c).result =
      some (some (dateTerms c.offset (y, m, n)), d) := by
  obtain ⟨g, hdate, hspace⟩ := h.split
  have hend : EndsField g.rest := hspace.rest_eq ▸ endsField_cons (by decide) d.rest
  have hspace := (char_eq_some (by decide)).mpr hspace
  exact optional_eq_some.mpr (bind_eq_some.mpr ⟨_, g, date_eq_some hdate hend,
    bind_eq_some.mpr ⟨(), d, hspace, rfl⟩⟩)

/-- A date is read if there is one, and not in what begins as a weekday or a time. -/
theorem optional_date_eq (date? : Option (FieldForm × FieldForm × FieldForm)) {f : FieldForm}
    {e : Cursor} {x : Char} (hx : x = ' ' ∨ x = ':')
    (h : c.Passes (Layout.dateWritten (date?.map dateTexts)) d)
    (hf : d.Passes f.written e) (he : e.rest.head? = some x) :
    (optional (do let r ← date; char ' '; pure r) c).result =
      some (date?.map (dateTerms c.offset), d) := by
  rcases date? with _ | ⟨y, m, n⟩
  · obtain rfl : c = d := (Cursor.Passes.refl c).unique h
    have hend : EndsField e.rest := by
      intro x' hx'
      cases he.symm.trans hx'
      rcases hx with rfl | rfl <;> decide
    have hne : e.rest.head? ≠ some '.' := by
      rw [he]
      rcases hx with rfl | rfl <;> decide
    have hdate : (date c).result = none := by
      rw [date, result_rule]
      exact field_char_eq_none hf hend hne
    exact optional_eq_none.mpr ⟨bind_eq_none hdate, rfl⟩
  · exact optional_date_some h

theorem weekday_eq_some {w : FieldForm} (h : c.Passes w.written d) (hend : EndsField d.rest) :
    (weekday c).result = some (w.terms c.offset, d) := by
  rw [weekday, result_rule]
  exact field_eq_some h hend

theorem optional_weekday_some {w : FieldForm}
    (h : c.Passes (Layout.weekdayWritten (some w.written)) d) :
    (optional (do let r ← weekday; char ' '; pure r) c).result =
      some (some (w.terms c.offset), d) := by
  obtain ⟨g, hw, hspace⟩ := h.split
  have hend : EndsField g.rest := hspace.rest_eq ▸ endsField_cons (by decide) d.rest
  have hspace := (char_eq_some (by decide)).mpr hspace
  exact optional_eq_some.mpr (bind_eq_some.mpr ⟨_, g, weekday_eq_some hw hend,
    bind_eq_some.mpr ⟨(), d, hspace, rfl⟩⟩)

/-- A weekday is read if there is one, and not in what begins as a time. -/
theorem optional_weekday_eq (weekday? : Option FieldForm) {f : FieldForm} {e : Cursor}
    (h : c.Passes (Layout.weekdayWritten (weekday?.map FieldForm.written)) d)
    (hf : d.Passes f.written e) (he : e.rest.head? = some ':') :
    (optional (do let r ← weekday; char ' '; pure r) c).result =
      some (weekday?.map (·.terms c.offset), d) := by
  cases weekday? with
  | none =>
    obtain rfl : c = d := (Cursor.Passes.refl c).unique h
    have hend : EndsField e.rest := by
      intro x hx
      cases he.symm.trans hx
      decide
    have hne : e.rest.head? ≠ some ' ' := by
      rw [he]
      decide
    refine optional_eq_none.mpr ⟨?_, rfl⟩
    rw [result_bind, weekday_eq_some hf hend, Option.bind_some]
    exact bind_eq_none (char_eq_none hne)
  | some w => exact optional_weekday_some h

/-- A time that the grammar derives is read to its end, where it does not go on. -/
theorem time_eq_some {t : TimeForm} (h : c.Passes t.written d)
    (hend : Stops TimeForm.written t.written d.rest) :
    (time c).result = some (t.terms c.offset, d) := by
  obtain ⟨hour, minute, second, millisecond⟩ := t
  have h : c.Passes ((hour.written ++ [':']) ++ ((minute.written ++ [':']) ++ (second.written ++
      Layout.millisecondWritten (millisecond.map FieldForm.written)))) d := by
    simpa [TimeForm.written] using h
  obtain ⟨c₁, hhour, h⟩ := h.split
  obtain ⟨c₂, hminute, h⟩ := h.split
  obtain ⟨c₃, hsecond, hmillisecond⟩ := h.split
  rw [time, result_rule, field_char_eq (by decide) (by decide) hhour,
    field_char_eq (by decide) (by decide) hminute]
  cases millisecond with
  | none =>
    obtain rfl : c₃ = d := (Cursor.Passes.refl c₃).unique hmillisecond
    rw [TimeForm.written_none] at hend
    have hstops : Stops FieldForm.written second.written c₃.rest := by
      refine hend.of_begins fun x hx => ?_
      simpa using TimeForm.begins_second hour minute hx
    have hdot : (char '.' c₃).result = none := by
      refine char_eq_none fun hx => hend '.' hx ?_
      exact TimeForm.begins_millisecond hour minute second
        (FieldForm.begins_clause ClauseStop.start.begins)
    have hread := optional_eq_none.mpr ⟨bind_eq_none (k := fun _ => field) hdot, rfl⟩
    refine bind_eq_some.mpr ⟨_, c₃, field_eq_some_of_stops hsecond hstops, ?_⟩
    refine bind_eq_some.mpr ⟨none, c₃, hread, ?_⟩
    rw [hminute.offset_eq, hhour.offset_eq]
    simp [TimeForm.terms, Nat.add_assoc]
  | some f =>
    obtain ⟨c₄, hdot, hf⟩ := Cursor.Passes.split (t := ['.']) hmillisecond
    have hbehind : EndsField c₃.rest := hdot.rest_eq ▸ endsField_cons (by decide) c₄.rest
    have hstops : Stops FieldForm.written f.written d.rest := by
      rw [TimeForm.written_some] at hend
      refine hend.of_begins fun x hx => ?_
      simpa using TimeForm.begins_millisecond hour minute second hx
    have hread : (optional (do char '.'; field) c₃).result = some (some (f.terms c₄.offset), d) :=
      optional_eq_some.mpr (bind_eq_some.mpr
        ⟨(), c₄, (char_eq_some (by decide)).mpr hdot, field_eq_some_of_stops hf hstops⟩)
    refine bind_eq_some.mpr ⟨_, c₃, field_eq_some hsecond hbehind, ?_⟩
    refine bind_eq_some.mpr ⟨_, d, hread, ?_⟩
    rw [hdot.offset_eq, hsecond.offset_eq, hminute.offset_eq, hhour.offset_eq]
    simp [TimeForm.terms, Nat.add_assoc]

/-- What stands before a time is read as far as it is there. -/
theorem front_eq_some (date : Option (FieldForm × FieldForm × FieldForm))
    (weekday? : Option FieldForm) {hour : FieldForm} {c₁ c₂ c₃ : Cursor}
    (hdate : c.Passes (Layout.dateWritten (date.map dateTexts)) c₁)
    (hweekday : c₁.Passes (Layout.weekdayWritten (weekday?.map FieldForm.written)) c₂)
    (hhour : c₂.Passes hour.written c₃) (hcolon : c₃.rest.head? = some ':') :
    (optional (do let r ← Reader.date; char ' '; pure r) c).result =
        some (date.map (dateTerms c.offset), c₁) ∧
      (optional (do let r ← weekday; char ' '; pure r) c₁).result =
        some (weekday?.map (·.terms c₁.offset), c₂) := by
  -- What follows the date, be it the weekday or the time, begins with a field but is no date.
  obtain ⟨f, x, c₄, hx, hf, hnext⟩ : ∃ (f : FieldForm) (x : Char) (e : Cursor),
      (x = ' ' ∨ x = ':') ∧ c₁.Passes f.written e ∧ e.rest.head? = some x := by
    cases weekday? with
    | none =>
      obtain rfl : c₁ = c₂ := (Cursor.Passes.refl c₁).unique hweekday
      exact ⟨hour, ':', c₃, Or.inr rfl, hhour, hcolon⟩
    | some w =>
      obtain ⟨c₄, hw, hspace⟩ := hweekday.split
      exact ⟨w, ' ', c₄, Or.inl rfl, hw, by rw [hspace.rest_eq]; rfl⟩
  exact ⟨optional_date_eq date hx hdate hf hnext,
    optional_weekday_eq weekday? hweekday hhour hcolon⟩

/-- The places between the parts of a derived pattern. -/
theorem exists_passes_parts {date : Option (FieldForm × FieldForm × FieldForm)}
    {weekday? : Option FieldForm} {t : TimeForm}
    (h : c.Passes (PatternForm.ofParts date weekday? t).written d) :
    ∃ c₁ c₂, (optional (do let r ← Reader.date; char ' '; pure r) c).result =
        some (date.map (dateTerms c.offset), c₁) ∧
      (optional (do let r ← weekday; char ' '; pure r) c₁).result =
        some (weekday?.map (·.terms c₁.offset), c₂) ∧
      c.Passes (Layout.dateWritten (date.map dateTexts)) c₁ ∧
      c₁.Passes (Layout.weekdayWritten (weekday?.map FieldForm.written)) c₂ ∧
      c₂.Passes t.written d := by
  rw [PatternForm.written_ofParts] at h
  obtain ⟨c₁, hdate, h⟩ := h.split
  obtain ⟨c₂, hweekday, htime⟩ := h.split
  obtain ⟨c₃, hhour, hcolon⟩ : ∃ c₃, c₂.Passes t.hour.written c₃ ∧ c₃.rest.head? = some ':' := by
    have h := htime
    simp only [TimeForm.written, List.append_assoc] at h
    obtain ⟨c₃, hhour, hrest⟩ := h.split
    exact ⟨c₃, hhour, by rw [hrest.rest_eq]; rfl⟩
  obtain ⟨hreadDate, hreadWeekday⟩ := front_eq_some date weekday? hdate hweekday hhour hcolon
  exact ⟨c₁, c₂, hreadDate, hreadWeekday, hdate, hweekday, htime⟩

/-- A pattern that the grammar derives is read as such. -/
theorem layout_eq_some {l : PatternForm} (h : c.Passes l.written d) (hend : d.rest = []) :
    (layout c).result = some (l.terms c.offset, d) := by
  obtain ⟨date, weekday, time, rfl⟩ := l.exists_ofParts
  obtain ⟨c₁, c₂, hreadDate, hreadWeekday, hdate, hweekday, htime⟩ := exists_passes_parts h
  rw [layout, result_rule]
  refine bind_eq_some.mpr ⟨_, c₁, hreadDate, bind_eq_some.mpr ⟨_, c₂, hreadWeekday, ?_⟩⟩
  refine bind_eq_some.mpr ⟨_, d, time_eq_some htime (hend ▸ stops_nil _ _), ?_⟩
  refine bind_eq_some.mpr ⟨(), d, endOfText_eq_some.mpr ⟨hend, rfl⟩, ?_⟩
  rw [PatternForm.terms_ofParts, hweekday.offset_eq, hdate.offset_eq]
  rfl

end Reader

end Timetable
