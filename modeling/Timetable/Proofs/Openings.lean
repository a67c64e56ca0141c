import Timetable.Proofs.FailedRules
import Timetable.Proofs.PartPlaces

namespace Timetable

namespace PatternForm

/-- Whether a text can become a pattern by writing on. -/
abbrev Viable (text : List Char) : Prop := Begins PatternForm.written text

/-- What is written before a time. -/
def front (date : Option (FieldForm × FieldForm × FieldForm)) (weekday : Option FieldForm) :
    List Char :=
  Layout.dateWritten (date.map dateTexts) ++ Layout.weekdayWritten (weekday.map FieldForm.written)

/-- What is written before some field of a pattern. -/
inductive Opening : List Char → Prop
  | month (year : FieldForm) : Opening (year.written ++ ['.'])
  | day (year month : FieldForm) : Opening (year.written ++ ['.'] ++ (month.written ++ ['.']))
  | hour (date : Option (FieldForm × FieldForm × FieldForm)) (weekday : Option FieldForm) :
    Opening (front date weekday)
  | minute (date : Option (FieldForm × FieldForm × FieldForm)) (weekday : Option FieldForm)
    (hour : FieldForm) : Opening (front date weekday ++ (hour.written ++ [':']))
  | second (date : Option (FieldForm × FieldForm × FieldForm)) (weekday : Option FieldForm)
    (hour minute : FieldForm) :
    Opening (front date weekday ++ (hour.written ++ [':'] ++ (minute.written ++ [':'])))
  | millisecond (date : Option (FieldForm × FieldForm × FieldForm)) (weekday : Option FieldForm)
    (hour minute second : FieldForm) :
    Opening (front date weekday ++
      (hour.written ++ [':'] ++ (minute.written ++ [':'] ++ (second.written ++ ['.']))))

variable {text w : List Char}

theorem written_eq_front (date : Option (FieldForm × FieldForm × FieldForm))
    (weekday : Option FieldForm) (time : TimeForm) :
    (ofParts date weekday time).written = front date weekday ++ time.written := by
  rw [written_ofParts, front, List.append_assoc]

theorem viable_time (date : Option (FieldForm × FieldForm × FieldForm))
    (weekday : Option FieldForm) (h : Begins TimeForm.written text) :
    Viable (front date weekday ++ text) := by
  obtain ⟨time, htime⟩ := h
  refine ⟨ofParts date weekday time, ?_⟩
  rw [written_eq_front, List.prefix_append_right_inj]
  exact htime

theorem viable_day (year month : FieldForm) (h : Begins FieldForm.written text) :
    Viable (year.written ++ ['.'] ++ (month.written ++ ['.']) ++ text) := by
  obtain ⟨day, hday⟩ := h
  refine (viable_time (some (year, month, day)) none
    (TimeForm.begins_hour ⟨day, List.nil_prefix⟩)).shorter ?_
  obtain ⟨rest, hrest⟩ := hday
  refine ⟨rest ++ [' '], ?_⟩
  simp [front, dateTexts, Layout.dateWritten, Layout.weekdayWritten, ← hrest]

theorem viable_month (year : FieldForm) (h : Begins FieldForm.written text) :
    Viable (year.written ++ ['.'] ++ text) := by
  obtain ⟨month, hmonth⟩ := h
  refine (viable_day year month ⟨month, List.nil_prefix⟩).shorter ?_
  obtain ⟨rest, hrest⟩ := hmonth
  exact ⟨rest ++ ['.'], by simp [← hrest]⟩

theorem Opening.viable (hw : Opening w) (h : Begins FieldForm.written text) :
    Viable (w ++ text) := by
  cases hw with
  | month year => exact viable_month year h
  | day year month => exact viable_day year month h
  | hour date weekday => exact viable_time date weekday (TimeForm.begins_hour h)
  | minute date weekday hour =>
    rw [List.append_assoc]
    exact viable_time date weekday (by simpa using TimeForm.begins_minute hour h)
  | second date weekday hour minute =>
    rw [List.append_assoc]
    exact viable_time date weekday (by simpa using TimeForm.begins_second hour minute h)
  | millisecond date weekday hour minute second =>
    rw [List.append_assoc]
    exact viable_time date weekday (by simpa using TimeForm.begins_millisecond hour minute second h)

/-- Whether a text is the opening of a field with some of the field behind it. -/
def InField (text : List Char) : Prop :=
  ∃ w t, Opening w ∧ Begins FieldForm.written t ∧ text = w ++ t

theorem inField_of_time (date : Option (FieldForm × FieldForm × FieldForm))
    (weekday : Option FieldForm) {time : TimeForm} (h : text <+: time.written) :
    InField (front date weekday ++ text) := by
  obtain ⟨hour, minute, second, millisecond⟩ := time
  simp only [TimeForm.written, List.append_assoc, List.cons_append] at h
  rcases prefix_append_cons h with hhour | ⟨t, rfl, htail⟩
  · exact ⟨_, _, .hour date weekday, ⟨hour, hhour⟩, rfl⟩
  rcases prefix_append_cons htail with hminute | ⟨t', rfl, htail'⟩
  · exact ⟨_, _, .minute date weekday hour, ⟨minute, hminute⟩, by simp⟩
  have hsecond (hs : t' <+: second.written) : InField
      (front date weekday ++ (hour.written ++ ':' :: (minute.written ++ ':' :: t'))) :=
    ⟨_, _, .second date weekday hour minute, ⟨second, hs⟩, by simp⟩
  cases millisecond with
  | none => exact hsecond (by simpa [Layout.millisecondWritten] using htail')
  | some millisecond =>
    rcases prefix_append_cons htail' with hs | ⟨t'', rfl, hmillisecond⟩
    · exact hsecond hs
    · exact ⟨_, _, .millisecond date weekday hour minute second, ⟨millisecond, hmillisecond⟩,
        by simp⟩

theorem inField_of_weekday (date : Option (FieldForm × FieldForm × FieldForm))
    {weekday : Option FieldForm} {time : TimeForm}
    (h : text <+: Layout.weekdayWritten (weekday.map FieldForm.written) ++ time.written) :
    InField (front date none ++ text) := by
  cases weekday with
  | none => exact inField_of_time date none h
  | some weekday =>
    simp only [Option.map_some, Layout.weekdayWritten, List.append_assoc, List.singleton_append] at h
    rcases prefix_append_cons h with hweekday | ⟨t, rfl, htime⟩
    · exact ⟨_, _, .hour date none, ⟨weekday, hweekday⟩, rfl⟩
    · have hfront : front date none ++ (weekday.written ++ ' ' :: t) =
          front date (some weekday) ++ t := by
        simp [front, Layout.weekdayWritten]
      rw [hfront]
      exact inField_of_time date (some weekday) htime

/-- What can become a pattern has come to some field of it. -/
theorem inField_of_viable (h : Viable text) : InField text := by
  obtain ⟨l, h⟩ := h
  obtain ⟨date, weekday, time, rfl⟩ := l.exists_ofParts
  rw [written_ofParts] at h
  rcases date with _ | ⟨year, month, day⟩
  · exact inField_of_weekday none h
  · simp only [Option.map_some, dateTexts, Layout.dateWritten, List.append_assoc, List.cons_append,
      List.nil_append] at h
    rcases prefix_append_cons h with hyear | ⟨t, rfl, htail⟩
    · exact ⟨_, _, .hour none none, ⟨year, hyear⟩, rfl⟩
    rcases prefix_append_cons htail with hmonth | ⟨t', rfl, htail'⟩
    · exact ⟨_, _, .month year, ⟨month, hmonth⟩, by simp⟩
    rcases prefix_append_cons htail' with hday | ⟨t'', rfl, hweekday⟩
    · exact ⟨_, _, .day year month, ⟨day, hday⟩, by simp⟩
    have hfront :
        year.written ++ '.' :: (month.written ++ '.' :: (day.written ++ ' ' :: t'')) =
          front (some (year, month, day)) none ++ t'' := by
      simp [front, dateTexts, Layout.dateWritten, Layout.weekdayWritten]
    rw [hfront]
    exact inField_of_weekday (some (year, month, day)) hweekday

/-- The beginnings of a pattern behind which a rule that begins a field or a part of one may be
missing something. -/
def Stop (text : List Char) : Prop := ∃ w t, Opening w ∧ FieldStop t ∧ text = w ++ t

theorem Opening.stop (hw : Opening w) : Stop w :=
  ⟨w, [], hw, .clause .start, (List.append_nil w).symm⟩

theorem Stop.viable (h : Stop text) : Viable text := by
  obtain ⟨w, t, hw, ht, rfl⟩ := h
  exact hw.viable ht.begins

end PatternForm

namespace Reader

open PatternForm

variable {α β : Type} {c d e : Cursor} {w : List Char}

theorem failsAt_field_char {x : Char} (hx : x.utf8Size = 1) {k : List Term → Reader β}
    (h : (do let ts ← field; char x; k ts).FailsAt c e) :
    field.FailsAt c e ∨ ∃ (f : FieldForm) (d : Cursor), c.Passes (f.written ++ [x]) d ∧
      (k (f.terms c.offset)).FailsAt d e := by
  rcases failsAt_bind.mp h with h | ⟨ts, d, hfield, h⟩
  · exact Or.inl h
  obtain ⟨f, hpasses, rfl⟩ := field_passes hfield
  rcases failsAt_bind.mp h with h | ⟨⟨⟩, g, hchar, h⟩
  · exact absurd h (not_failsAt_char x)
  · exact Or.inr ⟨f, g, hpasses.trans ((char_eq_some hx).mp hchar), h⟩

theorem failsAt_blank {p : Reader α} (h : (do let r ← p; char ' '; pure r).FailsAt c e) :
    p.FailsAt c e := by
  rcases failsAt_bind.mp h with h | ⟨r, d, -, h⟩
  · exact h
  rcases failsAt_bind.mp h with h | ⟨⟨⟩, g, -, h⟩
  · exact absurd h (not_failsAt_char ' ')
  · exact absurd h (not_failsAt_pure r)

theorem stop_of_field (hw : Opening w) (hpasses : c.Passes w d) (h : field.FailsAt d e) :
    ∃ text, Stop text ∧ c.Passes text e := by
  obtain ⟨t, ht, hpasses'⟩ := fieldStop_of_field h
  exact ⟨w ++ t, ⟨w, t, hw, ht, rfl⟩, hpasses.trans hpasses'⟩

theorem stop_of_date (h : date.FailsAt c e) : ∃ text, Stop text ∧ c.Passes text e := by
  rw [date, failsAt_rule] at h
  rcases h with h | ⟨-, rfl⟩
  · rcases failsAt_field_char (by decide) h with h | ⟨year, d, hyear, h⟩
    · exact stop_of_field (.hour none none) (.refl c) h
    rcases failsAt_field_char (by decide) h with h | ⟨month, g, hmonth, h⟩
    · exact stop_of_field (.month year) hyear h
    rcases failsAt_bind.mp h with h | ⟨ts, f, -, h⟩
    · exact stop_of_field (.day year month) (hyear.trans hmonth) h
    · exact absurd h (not_failsAt_pure _)
  · exact ⟨_, (Opening.hour none none).stop, .refl e⟩

theorem stop_of_weekday {date : Option (FieldForm × FieldForm × FieldForm)}
    (hdate : c.Passes (Layout.dateWritten (date.map dateTexts)) d) (h : weekday.FailsAt d e) :
    ∃ text, Stop text ∧ c.Passes text e := by
  have hfront : c.Passes (front date none) d := hdate.trans (.refl d)
  rw [weekday, failsAt_rule] at h
  rcases h with h | ⟨-, rfl⟩
  · exact stop_of_field (.hour date none) hfront h
  · exact ⟨_, (Opening.hour date none).stop, hfront⟩

theorem stop_of_time {date : Option (FieldForm × FieldForm × FieldForm)}
    {weekday : Option FieldForm} (hfront : c.Passes (front date weekday) d)
    (h : time.FailsAt d e) : ∃ text, Stop text ∧ c.Passes text e := by
  rw [time, failsAt_rule] at h
  rcases h with h | ⟨-, rfl⟩
  · rcases failsAt_field_char (by decide) h with h | ⟨hour, d₁, hhour, h⟩
    · exact stop_of_field (.hour date weekday) hfront h
    rcases failsAt_field_char (by decide) h with h | ⟨minute, d₂, hminute, h⟩
    · exact stop_of_field (.minute date weekday hour) (hfront.trans hhour) h
    rcases failsAt_bind.mp h with h | ⟨ts, d₃, hsecond, h⟩
    · exact stop_of_field (.second date weekday hour minute)
        (hfront.trans (hhour.trans hminute)) h
    obtain ⟨second, hpasses, -⟩ := field_passes hsecond
    rcases failsAt_bind.mp h with h | ⟨o, d₄, -, h⟩
    · rw [failsAt_optional] at h
      rcases failsAt_bind.mp h with h | ⟨⟨⟩, d₄, hdot, h⟩
      · exact absurd h (not_failsAt_char '.')
      · have hdot := (char_eq_some (by decide)).mp hdot
        exact stop_of_field (.millisecond date weekday hour minute second)
          (hfront.trans (hhour.trans (hminute.trans (hpasses.trans hdot)))) h
    · exact absurd h (not_failsAt_pure _)
  · exact ⟨_, (Opening.hour date weekday).stop, hfront⟩

/-- The rules of a pattern fail at such beginnings, or where a whole pattern has been read and the
text goes on. -/
theorem stop_of_layout (h : layout.FailsAt c e) :
    (∃ text, Stop text ∧ c.Passes text e) ∨
      e.rest ≠ [] ∧ ∃ l : PatternForm, c.Passes l.written e := by
  rw [layout, failsAt_rule] at h
  rcases h with h | ⟨-, rfl⟩
  · rcases failsAt_bind.mp h with h | ⟨_, c₁, hdate, h⟩
    · exact Or.inl (stop_of_date (failsAt_blank (failsAt_optional.mp h)))
    obtain ⟨date, hdate, -⟩ := optional_date_passes hdate
    rcases failsAt_bind.mp h with h | ⟨_, c₂, hweekday, h⟩
    · exact Or.inl (stop_of_weekday hdate (failsAt_blank (failsAt_optional.mp h)))
    obtain ⟨weekday, hweekday, -⟩ := optional_weekday_passes hweekday
    have hfront : c.Passes (front date weekday) c₂ := hdate.trans hweekday
    rcases failsAt_bind.mp h with h | ⟨_, c₃, htime, h⟩
    · exact Or.inl (stop_of_time hfront h)
    obtain ⟨time, hpasses, -⟩ := time_passes htime
    rcases failsAt_bind.mp h with h | ⟨⟨⟩, c₄, -, h⟩
    · obtain ⟨hne, rfl⟩ := failsAt_endOfText.mp h
      refine Or.inr ⟨hne, .ofParts date weekday time, ?_⟩
      rw [written_eq_front]
      exact hfront.trans hpasses
    · exact absurd h (not_failsAt_pure _)
  · exact Or.inl ⟨_, (Opening.hour none none).stop, .refl e⟩

theorem field_char_failsAt {x : Char} (hx : x.utf8Size = 1) (hs : isSeparator x = true)
    {k : List Term → Reader β} {f : FieldForm} (h : c.Passes (f.written ++ [x]) d)
    (hk : (k (f.terms c.offset)).FailsAt d e) :
    (do let ts ← field; char x; k ts).FailsAt c e := by
  obtain ⟨g, hf, hchar⟩ := h.split
  have hend : EndsField g.rest := hchar.rest_eq ▸ endsField_cons hs d.rest
  exact .behind (field_eq_some hf hend) (.behind ((char_eq_some hx).mpr hchar) hk)

theorem date_failsAt (h : date.FailsAt c e) : layout.FailsAt c e := by
  rw [layout]
  exact .rule h.bind.optional.bind

theorem weekday_failsAt {r : Option (List Term × List Term × List Term)}
    (hdate : (optional (do let r ← date; char ' '; pure r) c).result = some (r, d))
    (h : field.FailsAt d e) : layout.FailsAt c e := by
  have hweekday : weekday.FailsAt d e := by
    rw [weekday]
    exact h.rule
  rw [layout]
  exact .rule (.behind hdate hweekday.bind.optional.bind)

theorem time_failsAt {r : Option (List Term × List Term × List Term)} {s : Option (List Term)}
    {g : Cursor}
    (hdate : (optional (do let r ← date; char ' '; pure r) c).result = some (r, g))
    (hweekday : (optional (do let r ← weekday; char ' '; pure r) g).result = some (s, d))
    (h : time.FailsAt d e) : layout.FailsAt c e := by
  rw [layout]
  exact .rule (.behind hdate (.behind hweekday h.bind))

theorem time_failsAt_of_hour {date? : Option (FieldForm × FieldForm × FieldForm)}
    {weekday? : Option FieldForm} {hour : FieldForm} {text : List Char}
    (hpasses : c.Passes (front date? weekday? ++ (hour.written ++ [':'] ++ text)) d)
    (htime : ∀ g, g.Passes (hour.written ++ [':'] ++ text) d → time.FailsAt g e) :
    layout.FailsAt c e := by
  obtain ⟨c₂, hfront, hhour⟩ := hpasses.split
  obtain ⟨c₁, hdate, hweekday⟩ := hfront.split
  have hread := hhour
  rw [List.append_assoc] at hread
  obtain ⟨c₃, hread, hcolon⟩ := hread.split
  obtain ⟨hreadDate, hreadWeekday⟩ := front_eq_some date? weekday? hdate hweekday hread
    (by rw [hcolon.rest_eq]; rfl)
  exact time_failsAt hreadDate hreadWeekday (htime c₂ hhour)

theorem layout_failsAt_of_front {date? : Option (FieldForm × FieldForm × FieldForm)}
    {weekday? : Option FieldForm} (hpasses : c.Passes (front date? weekday?) d)
    (h : field.FailsAt d e) : layout.FailsAt c e := by
  obtain ⟨c₁, hdate, hweekday⟩ := hpasses.split
  cases weekday? with
  | none =>
    obtain rfl : c₁ = d := (Cursor.Passes.refl c₁).unique hweekday
    rcases date? with _ | ⟨year, month, day⟩
    · obtain rfl : c = c₁ := (Cursor.Passes.refl c).unique hdate
      refine date_failsAt ?_
      rw [date]
      exact h.bind.rule
    · exact weekday_failsAt (optional_date_some hdate) h
  | some w =>
    obtain ⟨g, hw, hspace⟩ := hweekday.split
    have hblank : g.rest.head? = some ' ' := by rw [hspace.rest_eq]; rfl
    refine time_failsAt (optional_date_eq date? (Or.inl rfl) hdate hw hblank)
      (optional_weekday_some hweekday) ?_
    rw [time]
    exact h.bind.rule

/-- Every field of a pattern is tried behind what is written before it. -/
theorem layout_failsAt (hw : Opening w) (hpasses : c.Passes w d) (h : field.FailsAt d e) :
    layout.FailsAt c e := by
  cases hw with
  | month year =>
    refine date_failsAt ?_
    rw [date]
    exact .rule (field_char_failsAt (by decide) (by decide) hpasses h.bind)
  | day year month =>
    obtain ⟨c₁, hyear, hmonth⟩ := hpasses.split
    refine date_failsAt ?_
    rw [date]
    refine .rule (field_char_failsAt (by decide) (by decide) hyear ?_)
    exact field_char_failsAt (by decide) (by decide) hmonth h.bind
  | hour date weekday => exact layout_failsAt_of_front hpasses h
  | minute date weekday hour =>
    rw [← List.append_nil (hour.written ++ [':'])] at hpasses
    refine time_failsAt_of_hour hpasses fun g hg => ?_
    rw [List.append_nil] at hg
    rw [time]
    exact .rule (field_char_failsAt (by decide) (by decide) hg h.bind)
  | second date weekday hour minute =>
    refine time_failsAt_of_hour hpasses fun g hg => ?_
    obtain ⟨d₁, hhour, hminute⟩ := hg.split
    rw [time]
    refine .rule (field_char_failsAt (by decide) (by decide) hhour ?_)
    exact field_char_failsAt (by decide) (by decide) hminute h.bind
  | millisecond date weekday hour minute second =>
    refine time_failsAt_of_hour hpasses fun g hg => ?_
    obtain ⟨d₁, hhour, hg⟩ := hg.split
    obtain ⟨d₂, hminute, hsecond⟩ := hg.split
    obtain ⟨d₃, hsecond, hdot⟩ := hsecond.split
    have hend : EndsField d₃.rest := hdot.rest_eq ▸ endsField_cons (by decide) d.rest
    have hmillisecond : (do char '.'; field).FailsAt d₃ e :=
      .behind ((char_eq_some (by decide)).mpr hdot) h
    rw [time]
    refine .rule (field_char_failsAt (by decide) (by decide) hhour ?_)
    refine field_char_failsAt (by decide) (by decide) hminute ?_
    exact .behind (field_eq_some hsecond hend) hmillisecond.optional.bind

/-- Where a text does not go on as a pattern behind such a beginning, some rule misses something. -/
theorem layout_failsAt_of_stop {text : List Char} (ht : Stop text) (hpasses : c.Passes text e)
    (hend : Stops PatternForm.written text e.rest) : layout.FailsAt c e := by
  obtain ⟨w, t, hw, ht, rfl⟩ := ht
  obtain ⟨d, hpasses, hpasses'⟩ := hpasses.split
  refine layout_failsAt hw hpasses (field_failsAt ht hpasses' (hend.of_begins fun x hx => ?_))
  rw [List.append_assoc]
  exact hw.viable hx

/-- Where a text goes on behind a whole pattern, but not as a pattern, its end is missing. -/
theorem layout_failsAt_end {l : PatternForm} (hpasses : c.Passes l.written e)
    (hend : Stops PatternForm.written l.written e.rest) (hne : e.rest ≠ []) :
    layout.FailsAt c e := by
  obtain ⟨date, weekday, time, rfl⟩ := l.exists_ofParts
  obtain ⟨c₁, c₂, hreadDate, hreadWeekday, -, -, htime⟩ := exists_passes_parts hpasses
  have hstops : Stops TimeForm.written time.written e.rest := by
    refine hend.of_begins fun x hx => ?_
    rw [written_eq_front, List.append_assoc]
    exact viable_time date weekday hx
  have hend : endOfText.FailsAt e e := failsAt_endOfText.mpr ⟨hne, rfl⟩
  rw [layout]
  refine .rule (.behind hreadDate (.behind hreadWeekday ?_))
  exact .behind (time_eq_some htime hstops) hend.bind

end Reader

end Timetable
