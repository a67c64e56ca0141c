import Timetable.Proofs.Beginnings

namespace Timetable

/-- Whether the way from one place to another leads over a text of one-byte characters. -/
structure Cursor.Passes (c : Cursor) (text : List Char) (d : Cursor) : Prop where
  rest_eq : c.rest = text ++ d.rest
  offset_eq : d.offset = c.offset + text.length

namespace Cursor.Passes

variable {c d e : Cursor} {t u : List Char}

theorem refl (c : Cursor) : c.Passes [] c := ⟨rfl, rfl⟩

theorem trans (h : c.Passes t d) (h' : d.Passes u e) : c.Passes (t ++ u) e := by
  refine ⟨?_, ?_⟩
  · rw [h.rest_eq, h'.rest_eq, List.append_assoc]
  · rw [h'.offset_eq, h.offset_eq, List.length_append, Nat.add_assoc]

theorem split (h : c.Passes (t ++ u) e) : ∃ d, c.Passes t d ∧ d.Passes u e := by
  refine ⟨⟨c.offset + t.length, u ++ e.rest⟩, ⟨?_, rfl⟩, ⟨rfl, ?_⟩⟩
  · rw [h.rest_eq, List.append_assoc]
  · rw [h.offset_eq, List.length_append, Nat.add_assoc]

theorem unique (h : c.Passes t d) (h' : c.Passes t e) : d = e := by
  obtain ⟨offset, rest⟩ := d
  obtain ⟨offset', rest'⟩ := e
  have hrest := List.append_cancel_left (h.rest_eq.symm.trans h'.rest_eq)
  have hoffset := h.offset_eq.trans h'.offset_eq.symm
  simp only at hrest hoffset
  rw [hrest, hoffset]

theorem text_unique (h : c.Passes t d) (h' : c.Passes u d) : t = u :=
  List.append_cancel_right (h.rest_eq.symm.trans h'.rest_eq)

end Cursor.Passes

namespace Reader

variable {α β : Type} {c d : Cursor}

theorem bind_eq_some {p : Reader α} {k : α → Reader β} {r : β × Cursor} :
    ((p >>= k) c).result = some r ↔
      ∃ a e, (p c).result = some (a, e) ∧ (k a e).result = some r := by
  rw [result_bind, Option.bind_eq_some_iff]
  constructor
  · rintro ⟨⟨a, e⟩, h⟩
    exact ⟨a, e, h⟩
  · rintro ⟨a, e, h⟩
    exact ⟨(a, e), h⟩

theorem pure_eq_some {a b : α} :
    ((pure a : Reader α) c).result = some (b, d) ↔ b = a ∧ d = c := by
  rw [result_pure, Option.some_inj, Prod.mk.injEq]
  exact and_congr eq_comm eq_comm

theorem orElse_eq_some {p q : Reader α} {r : α × Cursor} :
    (orElse p q c).result = some r ↔
      (p c).result = some r ∨ (p c).result = none ∧ (q c).result = some r := by
  rw [result_orElse, Option.or_eq_some_iff]

theorem optional_eq_some {p : Reader α} {a : α} :
    (optional p c).result = some (some a, d) ↔ (p c).result = some (a, d) := by
  rw [result_optional]
  cases (p c).result <;> simp [Prod.ext_iff]

theorem optional_eq_none {p : Reader α} :
    (optional p c).result = some (none, d) ↔ (p c).result = none ∧ d = c := by
  rw [result_optional]
  cases (p c).result <;> simp [eq_comm]

theorem char_eq_some {x : Char} (hx : x.utf8Size = 1) :
    (char x c).result = some ((), d) ↔ c.Passes [x] d := by
  constructor
  · intro h
    unfold char at h
    split at h
    next => cases h
    next y rest hy =>
      split at h
      next he =>
        cases h
        exact ⟨by rw [hy, he]; rfl, by rw [hx]; rfl⟩
      next => cases h
  · intro h
    have hd : d = ⟨c.offset + x.utf8Size, d.rest⟩ := h.unique ⟨h.rest_eq, by rw [hx]; rfl⟩
    have hrest : c.rest = x :: d.rest := h.rest_eq
    unfold char
    rw [hrest, hd]
    simp

theorem char_eq_none {x : Char} (h : c.rest.head? ≠ some x) : (char x c).result = none := by
  obtain ⟨offset, rest⟩ := c
  cases rest with
  | nil => rfl
  | cons y rest =>
    have hne : y ≠ x := fun he => h (congrArg some he)
    simp [char, hne]

theorem digits_eq_some {run : List Char} :
    (digits c).result = some (run, d) ↔
      run ≠ [] ∧ c.rest.takeWhile Char.isDigit = run ∧ c.Passes run d := by
  have hpasses : c.Passes (c.rest.takeWhile Char.isDigit)
      ⟨c.offset + (c.rest.takeWhile Char.isDigit).length,
        c.rest.drop (c.rest.takeWhile Char.isDigit).length⟩ :=
    ⟨(List.prefix_iff_eq_append.mp (List.takeWhile_prefix Char.isDigit)).symm, rfl⟩
  unfold digits
  constructor
  · intro h
    split at h
    next => cases h
    next x xs hrun =>
      rw [hrun] at hpasses
      cases h
      exact ⟨List.cons_ne_nil x xs, hrun, hpasses⟩
  · rintro ⟨hne, hrun, h⟩
    rw [hrun] at hpasses
    obtain ⟨x, xs, rfl⟩ := List.exists_cons_of_ne_nil hne
    rw [hrun, h.unique hpasses]

theorem endOfText_eq_some : (endOfText c).result = some ((), d) ↔ c.rest = [] ∧ d = c := by
  rw [result_endOfText]
  split
  next h => simp [h, eq_comm]
  next h => simp [h]

theorem number_passes {n : Numeral} (h : (number c).result = some (n, d)) :
    ∃ ds : Digits, c.Passes ds.chars d ∧ n = ds.numeral c.offset := by
  rw [number, result_rule] at h
  obtain ⟨place, e, hplace, h⟩ := bind_eq_some.mp h
  cases hplace
  obtain ⟨run, e, hrun, h⟩ := bind_eq_some.mp h
  obtain ⟨hne, htake, hpasses⟩ := digits_eq_some.mp hrun
  obtain ⟨rfl, rfl⟩ := pure_eq_some.mp h
  have hdigit : ∀ x ∈ run, x.isDigit = true := by
    intro x hx
    rw [← htake] at hx
    exact List.all_eq_true.mp List.all_takeWhile x hx
  exact ⟨⟨run, hne, hdigit⟩, hpasses, rfl⟩

theorem number_eq_some {ds : Digits} (h : c.Passes ds.chars d)
    (hd : ∀ x, d.rest.head? = some x → x.isDigit = false) :
    (number c).result = some (ds.numeral c.offset, d) := by
  have hrun : (digits c).result = some (ds.chars, d) := by
    refine digits_eq_some.mpr ⟨ds.ne_nil, ?_, h⟩
    rw [h.rest_eq]
    exact takeWhile_append_of_ends ds.isDigit hd
  rw [number, result_rule]
  exact bind_eq_some.mpr ⟨c, c, rfl, bind_eq_some.mpr ⟨ds.chars, d, hrun, rfl⟩⟩

theorem wildcard_eq_some : (wildcard c).result = some ((), d) ↔ c.Passes ['*'] d := by
  rw [wildcard, result_rule]
  exact char_eq_some (by decide)

theorem range_passes {r : Numeral × Option Numeral} (h : (range c).result = some (r, d)) :
    ∃ hd : ClauseHead, c.Passes hd.written d ∧ hd.reading c.offset = some r := by
  rw [range, result_rule] at h
  obtain ⟨n, e, hfirst, h⟩ := bind_eq_some.mp h
  obtain ⟨last, f, hlast, h⟩ := bind_eq_some.mp h
  obtain ⟨rfl, rfl⟩ := pure_eq_some.mp h
  obtain ⟨first, hpasses, rfl⟩ := number_passes hfirst
  cases last with
  | none =>
    obtain ⟨-, rfl⟩ := optional_eq_none.mp hlast
    exact ⟨.number first, hpasses, rfl⟩
  | some m =>
    obtain ⟨⟨⟩, g, hdash, hlast⟩ := bind_eq_some.mp (optional_eq_some.mp hlast)
    have hdash := (char_eq_some (by decide)).mp hdash
    obtain ⟨last, hpasses', rfl⟩ := number_passes hlast
    refine ⟨.range first last, hpasses.trans (hdash.trans hpasses'), ?_⟩
    rw [hdash.offset_eq, hpasses.offset_eq]
    rfl

theorem step_passes {n : Numeral} (h : (step c).result = some (n, d)) :
    ∃ ds : Digits, c.Passes ('/' :: ds.chars) d ∧ n = ds.numeral (c.offset + 1) := by
  rw [step, result_rule] at h
  obtain ⟨⟨⟩, e, hslash, h⟩ := bind_eq_some.mp h
  have hslash := (char_eq_some (by decide)).mp hslash
  obtain ⟨ds, hpasses, rfl⟩ := number_passes h
  refine ⟨ds, hslash.trans hpasses, ?_⟩
  rw [hslash.offset_eq]
  rfl

theorem head_passes {r : Option (Numeral × Option Numeral)}
    (h : (orElse (do wildcard; pure none) (do let r ← range; pure (some r)) c).result =
      some (r, d)) :
    ∃ hd : ClauseHead, c.Passes hd.written d ∧ r = hd.reading c.offset := by
  rcases orElse_eq_some.mp h with hstar | ⟨-, hrange⟩
  · obtain ⟨⟨⟩, e, hstar, h⟩ := bind_eq_some.mp hstar
    have hstar := wildcard_eq_some.mp hstar
    obtain ⟨rfl, rfl⟩ := pure_eq_some.mp h
    exact ⟨.wildcard, hstar, rfl⟩
  · obtain ⟨r, e, hrange, h⟩ := bind_eq_some.mp hrange
    obtain ⟨rfl, rfl⟩ := pure_eq_some.mp h
    obtain ⟨hd, hpasses, hreading⟩ := range_passes hrange
    exact ⟨hd, hpasses, hreading.symm⟩

/-- What is read as a clause is one that the grammar derives. -/
theorem term_passes {t : Term} (h : (term c).result = some (t, d)) :
    ∃ f : ClauseForm, c.Passes f.written d ∧ t = f.term c.offset := by
  rw [term, result_rule] at h
  obtain ⟨start, e, hstart, h⟩ := bind_eq_some.mp h
  cases hstart
  obtain ⟨range, e, hrange, h⟩ := bind_eq_some.mp h
  obtain ⟨step, f, hstep, h⟩ := bind_eq_some.mp h
  obtain ⟨stop, g, hstop, h⟩ := bind_eq_some.mp h
  cases hstop
  obtain ⟨rfl, rfl⟩ := pure_eq_some.mp h
  obtain ⟨head, hhead, rfl⟩ := head_passes hrange
  obtain ⟨form, hpasses, hterm⟩ : ∃ f : ClauseForm, c.Passes f.written d ∧ f.head = head ∧
      step = f.step.map (·.numeral (c.offset + head.written.length + 1)) := by
    cases step with
    | none =>
      obtain ⟨-, rfl⟩ := optional_eq_none.mp hstep
      exact ⟨⟨head, none⟩, hhead.trans (.refl _), rfl, rfl⟩
    | some n =>
      obtain ⟨ds, hpasses, rfl⟩ := step_passes (optional_eq_some.mp hstep)
      refine ⟨⟨head, some ds⟩, hhead.trans hpasses, rfl, ?_⟩
      rw [hhead.offset_eq]
      rfl
  obtain ⟨rfl, rfl⟩ := hterm
  refine ⟨form, hpasses, ?_⟩
  rw [hpasses.offset_eq]
  rfl

theorem comma_term_passes {t : Term} (h : ((do char ','; term) c).result = some (t, d)) :
    ∃ f : ClauseForm, c.Passes (',' :: f.written) d ∧ t = f.term (c.offset + 1) := by
  obtain ⟨⟨⟩, e, hcomma, ht⟩ := bind_eq_some.mp h
  have hcomma := (char_eq_some (by decide)).mp hcomma
  obtain ⟨f, hf, rfl⟩ := term_passes ht
  refine ⟨f, hcomma.trans hf, ?_⟩
  rw [hcomma.offset_eq]
  rfl

/-- At least the comma was read, so reading goes on. -/
theorem length_lt_of_comma {text : List Char} (h : c.Passes (',' :: text) d) :
    d.rest.length < c.rest.length := by
  rw [h.rest_eq]
  simp only [List.length_append, List.length_cons]
  omega

theorem others_passes {p : Reader Term} (hp : p = (do char ','; term)) {c d : Cursor}
    {ts : List Term} (h : (many p c).result = some (ts, d)) :
    ∃ fs, c.Passes (FieldForm.othersWritten fs) d ∧ ts = FieldForm.othersTerms fs c.offset := by
  rw [result_many] at h
  cases hr : (p c).result with
  | none =>
    rw [hr] at h
    cases h
    exact ⟨[], .refl c, rfl⟩
  | some r =>
    obtain ⟨t, e⟩ := r
    obtain ⟨f, hf, rfl⟩ := comma_term_passes (hp ▸ hr)
    have hlt := length_lt_of_comma hf
    rw [hr] at h
    simp only [hlt, if_true] at h
    obtain ⟨⟨ts', d'⟩, hrest, he⟩ := Option.map_eq_some_iff.mp h
    cases he
    obtain ⟨fs, hfs, rfl⟩ := others_passes hp hrest
    refine ⟨f :: fs, hf.trans hfs, ?_⟩
    rw [FieldForm.othersTerms, hf.offset_eq, List.length_cons, Nat.add_right_comm, ← Nat.add_assoc]
termination_by c.rest.length

/-- What is read as a field is one that the grammar derives. -/
theorem field_passes {ts : List Term} (h : (field c).result = some (ts, d)) :
    ∃ f : FieldForm, c.Passes f.written d ∧ ts = f.terms c.offset := by
  rw [field, result_rule] at h
  obtain ⟨t, e, hfirst, h⟩ := bind_eq_some.mp h
  obtain ⟨others, g, hothers, h⟩ := bind_eq_some.mp h
  obtain ⟨rfl, rfl⟩ := pure_eq_some.mp h
  obtain ⟨first, hpasses, rfl⟩ := term_passes hfirst
  obtain ⟨fs, hpasses', rfl⟩ := others_passes rfl hothers
  refine ⟨⟨first, fs⟩, hpasses.trans hpasses', ?_⟩
  rw [hpasses.offset_eq]
  rfl

end Reader

/-- Whether a clause's text has ended where this text goes on. -/
def EndsClause (rest : List Char) : Prop :=
  ∀ x, rest.head? = some x → x = ',' ∨ isSeparator x = true

theorem EndsField.endsClause {rest : List Char} (h : EndsField rest) : EndsClause rest :=
  fun x hx => Or.inr (h x hx)

theorem endsClause_comma (rest : List Char) : EndsClause (',' :: rest) := by
  intro x hx
  cases hx
  exact Or.inl rfl

theorem EndsClause.not_continues {rest : List Char} (h : EndsClause rest) {x : Char}
    (hx : rest.head? = some x) : x.isDigit = false ∧ x ≠ '-' ∧ x ≠ '/' := by
  have hcases : x = ',' ∨ (x = ' ' ∨ x = '.') ∨ x = ':' := by
    simpa [isSeparator] using h x hx
  rcases hcases with rfl | (rfl | rfl) | rfl <;> decide

theorem EndsClause.stops {rest : List Char} (h : EndsClause rest) (text : List Char) :
    Stops ClauseForm.written text rest := by
  refine stops_of_notMem fun x hx c hc => ?_
  rcases h x hx with rfl | hs
  · exact c.comma_notMem hc
  · cases hs.symm.trans (isSeparator_of_isFieldChar (c.isFieldChar x hc))

theorem EndsField.stops {rest : List Char} (h : EndsField rest) (text : List Char) :
    Stops FieldForm.written text rest := by
  refine stops_of_notMem fun x hx f hf => ?_
  cases (h x hx).symm.trans (isSeparator_of_isFieldChar (f.isFieldChar x hf))

theorem endsClause_others (fs : List ClauseForm) {rest : List Char} (h : EndsField rest) :
    EndsClause (FieldForm.othersWritten fs ++ rest) := by
  cases fs with
  | nil => exact h.endsClause
  | cons f fs => exact endsClause_comma _

namespace FieldForm

variable {first c : ClauseForm} {cs : List ClauseForm} {rest : List Char}

theorem stops_first (h : Stops written (written ⟨first, cs⟩) rest) :
    Stops ClauseForm.written first.written (othersWritten cs ++ rest) := by
  cases cs with
  | nil => exact stops_clause (written_single first ▸ h)
  | cons c cs => exact (endsClause_comma _).stops first.written

theorem stops_others (h : Stops written (written ⟨first, c :: cs⟩) rest) :
    Stops written (written ⟨c, cs⟩) rest :=
  stops_behind_comma h

end FieldForm

namespace Reader

variable {α β : Type} {c d : Cursor}

theorem bind_eq_none {p : Reader α} {k : α → Reader β} (h : (p c).result = none) :
    ((p >>= k) c).result = none := by
  rw [result_bind, h]
  rfl

theorem range_eq_some {hd : ClauseHead} {r : Numeral × Option Numeral}
    (hr : hd.reading c.offset = some r) (h : c.Passes hd.written d)
    (hend : Stops ClauseHead.written hd.written d.rest) :
    (range c).result = some (r, d) := by
  rw [range, result_rule]
  cases hd with
  | wildcard => cases hr
  | number first =>
    cases hr
    have hfirst := number_eq_some h fun x hx =>
      Bool.eq_false_iff.mpr fun hdigit => hend x hx (ClauseHead.begins_number hdigit)
    have hdash : (char '-' d).result = none :=
      char_eq_none fun hx => hend _ hx (ClauseHead.begins_dash first)
    have hlast := optional_eq_none.mpr ⟨bind_eq_none (k := fun _ => number) hdash, rfl⟩
    exact bind_eq_some.mpr ⟨_, d, hfirst, bind_eq_some.mpr ⟨none, d, hlast, rfl⟩⟩
  | range first last =>
    cases hr
    obtain ⟨e, hfirst, h⟩ := h.split
    obtain ⟨g, hdash, hlast⟩ := Cursor.Passes.split (t := ['-']) h
    have hoffset : g.offset = c.offset + first.chars.length + 1 := by
      rw [hdash.offset_eq, hfirst.offset_eq]
      rfl
    have hdashes : ∀ x, e.rest.head? = some x → x.isDigit = false := by
      rw [hdash.rest_eq]
      rintro x ⟨⟩
      decide
    have hlast := number_eq_some hlast fun x hx =>
      Bool.eq_false_iff.mpr fun hdigit => hend x hx (ClauseHead.begins_range hdigit)
    rw [hoffset] at hlast
    have hdash := (char_eq_some (by decide)).mpr hdash
    refine bind_eq_some.mpr ⟨_, e, number_eq_some hfirst hdashes, ?_⟩
    refine bind_eq_some.mpr ⟨some (last.numeral (c.offset + first.chars.length + 1)), d, ?_, rfl⟩
    exact optional_eq_some.mpr (bind_eq_some.mpr ⟨(), g, hdash, hlast⟩)

theorem step_eq_some {ds : Digits} (h : c.Passes ('/' :: ds.chars) d)
    (hend : ∀ x, d.rest.head? = some x → x.isDigit = false) :
    (step c).result = some (ds.numeral (c.offset + 1), d) := by
  obtain ⟨e, hslash, h⟩ := Cursor.Passes.split (t := ['/']) h
  have hoffset : e.offset = c.offset + 1 := hslash.offset_eq
  have hslash := (char_eq_some (by decide)).mpr hslash
  have hnumber := number_eq_some h hend
  rw [hoffset] at hnumber
  rw [step, result_rule]
  exact bind_eq_some.mpr ⟨(), e, hslash, hnumber⟩

theorem step_eq_none (hend : c.rest.head? ≠ some '/') : (step c).result = none := by
  rw [step, result_rule]
  exact bind_eq_none (char_eq_none hend)

/-- What begins with a digit is no wildcard, so it is read as a number or two. -/
theorem numeric_head_eq_some {hd : ClauseHead} {r : Numeral × Option Numeral} {x : Char}
    {xs : List Char} (hr : hd.reading c.offset = some r) (hx : hd.written = x :: xs)
    (hdigit : x.isDigit = true) (h : c.Passes hd.written d)
    (hend : Stops ClauseHead.written hd.written d.rest) :
    (orElse (do wildcard; pure none) (do let r ← range; pure (some r)) c).result =
      some (hd.reading c.offset, d) := by
  have hstar : (wildcard c).result = none := by
    rw [wildcard, result_rule]
    refine char_eq_none fun he => ?_
    rw [h.rest_eq, hx] at he
    cases he
    exact absurd hdigit (by decide)
  rw [hr]
  exact orElse_eq_some.mpr (Or.inr ⟨bind_eq_none hstar,
    bind_eq_some.mpr ⟨r, d, range_eq_some hr h hend, rfl⟩⟩)

theorem head_eq_some {hd : ClauseHead} (h : c.Passes hd.written d)
    (hend : Stops ClauseHead.written hd.written d.rest) :
    (orElse (do wildcard; pure none) (do let r ← range; pure (some r)) c).result =
      some (hd.reading c.offset, d) := by
  cases hd with
  | wildcard =>
    exact orElse_eq_some.mpr (Or.inl (bind_eq_some.mpr ⟨(), d, wildcard_eq_some.mpr h, rfl⟩))
  | number first =>
    obtain ⟨x, xs, hx, hdigit⟩ := first.exists_cons
    exact numeric_head_eq_some rfl hx hdigit h hend
  | range first last =>
    obtain ⟨x, xs, hx, hdigit⟩ := first.exists_cons
    have hwritten : (ClauseHead.range first last).written = x :: (xs ++ '-' :: last.chars) := by
      rw [ClauseHead.written, hx, List.cons_append]
    exact numeric_head_eq_some rfl hwritten hdigit h hend

/-- A clause that the grammar derives is read as such, where it does not go on. -/
theorem term_eq_some {f : ClauseForm} (h : c.Passes f.written d)
    (hend : Stops ClauseForm.written f.written d.rest) :
    (term c).result = some (f.term c.offset, d) := by
  obtain ⟨e, hhead, hstep⟩ := h.split
  have hoffset := hhead.offset_eq
  obtain ⟨hbehind, hread⟩ : Stops ClauseHead.written f.head.written e.rest ∧
      (optional step e).result = some (f.step.map (·.numeral (e.offset + 1)), d) := by
    obtain ⟨hd, _ | ds⟩ := f
    · obtain rfl : e = d := (Cursor.Passes.refl e).unique hstep
      rw [ClauseForm.written, ClauseForm.stepWritten, List.append_nil] at hend
      have hslash := step_eq_none fun hx => hend '/' hx (ClauseForm.begins_slash hd)
      exact ⟨hend.of_begins fun x => ClauseForm.begins_head,
        optional_eq_none.mpr ⟨hslash, rfl⟩⟩
    · have hdigit : ∀ x, d.rest.head? = some x → x.isDigit = false := fun x hx =>
        Bool.eq_false_iff.mpr fun hdigit => hend x hx (ClauseForm.begins_step hdigit)
      refine ⟨ClauseHead.stops_of_ends fun x hx => ?_,
        optional_eq_some.mpr (step_eq_some hstep hdigit)⟩
      rw [hstep.rest_eq] at hx
      cases hx
      decide
  rw [hoffset] at hread
  rw [term, result_rule]
  refine bind_eq_some.mpr ⟨c, c, rfl, bind_eq_some.mpr ⟨_, e, head_eq_some hhead hbehind, ?_⟩⟩
  refine bind_eq_some.mpr ⟨_, d, hread, bind_eq_some.mpr ⟨d, d, rfl, ?_⟩⟩
  rw [h.offset_eq]
  rfl

theorem comma_term_eq_some {f : ClauseForm} (h : c.Passes (',' :: f.written) d)
    (hend : Stops ClauseForm.written f.written d.rest) :
    ((do char ','; term) c).result = some (f.term (c.offset + 1), d) := by
  obtain ⟨e, hcomma, hf⟩ := Cursor.Passes.split (t := [',']) h
  have hoffset : e.offset = c.offset + 1 := hcomma.offset_eq
  rw [← hoffset]
  exact bind_eq_some.mpr ⟨(), e, (char_eq_some (by decide)).mpr hcomma, term_eq_some hf hend⟩

theorem others_eq_some {first : ClauseForm} {fs : List ClauseForm}
    (h : c.Passes (FieldForm.othersWritten fs) d)
    (hend : Stops FieldForm.written (FieldForm.written ⟨first, fs⟩) d.rest) :
    (many (do char ','; term) c).result = some (FieldForm.othersTerms fs c.offset, d) := by
  induction fs generalizing c first with
  | nil =>
    obtain rfl : c = d := (Cursor.Passes.refl c).unique h
    have hcomma : (char ',' c).result = none := by
      refine char_eq_none fun hx => hend ',' hx ?_
      rw [FieldForm.written_single first]
      exact FieldForm.begins_comma first
    rw [result_many, bind_eq_none hcomma]
    rfl
  | cons f fs ih =>
    obtain ⟨e, hclause, hrest⟩ := Cursor.Passes.split (t := ',' :: f.written) h
    have hothers := FieldForm.stops_others hend
    have hread := comma_term_eq_some hclause (hrest.rest_eq ▸ FieldForm.stops_first hothers)
    have hlt := length_lt_of_comma hclause
    rw [result_many, hread]
    simp only [hlt, if_true, ih hrest hothers]
    rw [FieldForm.othersTerms, hclause.offset_eq, List.length_cons, Nat.add_right_comm,
      ← Nat.add_assoc]
    rfl

/-- A field that the grammar derives is read to its end, where it does not go on. -/
theorem field_eq_some_of_stops {f : FieldForm} (h : c.Passes f.written d)
    (hend : Stops FieldForm.written f.written d.rest) :
    (field c).result = some (f.terms c.offset, d) := by
  obtain ⟨e, hfirst, hothers⟩ := h.split
  have hbehind : Stops ClauseForm.written f.first.written e.rest :=
    hothers.rest_eq ▸ FieldForm.stops_first hend
  have hothers := others_eq_some hothers hend
  rw [hfirst.offset_eq] at hothers
  rw [field, result_rule]
  refine bind_eq_some.mpr ⟨_, e, term_eq_some hfirst hbehind, ?_⟩
  exact bind_eq_some.mpr ⟨_, d, hothers, rfl⟩

theorem field_eq_some {f : FieldForm} (h : c.Passes f.written d) (hend : EndsField d.rest) :
    (field c).result = some (f.terms c.offset, d) :=
  field_eq_some_of_stops h (hend.stops f.written)

end Reader

end Timetable
