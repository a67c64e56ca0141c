import Timetable.Proofs.FieldReading
import Timetable.Proofs.TextPlaces

namespace Timetable

/-- Whether some rule failed at the place. -/
def Trace.FailedAt : Trace → Cursor → Prop
  | .quiet, _ => False
  | .andThen first second, e => first.FailedAt e ∨ second.FailedAt e
  | .failed _ place inner, e => inner.FailedAt e ∨ e = place

/-- A failure never takes the frontier back, and takes it as far as the place where it happened. -/
theorem Frontier.le_fail (before after : Frontier) (rule : Rule) (place : Cursor) :
    after.place.offset ≤ (before.fail after rule place).place.offset ∧
      place.offset ≤ (before.fail after rule place).place.offset := by
  unfold fail
  dsimp only
  split
  next hone =>
    have hsame : after.place.offset = place.offset :=
      Decidable.byContradiction fun hne => by simp [countAt, hne] at hone
    omega
  split
  · omega
  split
  · simp only
    omega
  · simp only
    omega

namespace Trace

theorem le_frontier (t : Trace) (s : Frontier) :
    s.place.offset ≤ (t.frontier s).place.offset ∧
      ∀ e, t.FailedAt e → e.offset ≤ (t.frontier s).place.offset := by
  induction t generalizing s with
  | quiet => exact ⟨Nat.le_refl _, fun e he => he.elim⟩
  | andThen first second ihfirst ihsecond =>
    obtain ⟨hfirst, hfailed⟩ := ihfirst s
    obtain ⟨hsecond, hfailed'⟩ := ihsecond (first.frontier s)
    refine ⟨Nat.le_trans hfirst hsecond, fun e he => ?_⟩
    rcases he with he | he
    · exact Nat.le_trans (hfailed e he) hsecond
    · exact hfailed' e he
  | failed rule place inner ih =>
    obtain ⟨hinner, hfailed⟩ := ih s
    obtain ⟨hafter, hplace⟩ := s.le_fail (inner.frontier s) rule place
    refine ⟨Nat.le_trans hinner hafter, fun e he => ?_⟩
    rcases he with he | rfl
    · exact Nat.le_trans (hfailed e he) hafter
    · exact hplace

theorem place_frontier (t : Trace) (s : Frontier) :
    (t.frontier s).place = s.place ∨ t.FailedAt (t.frontier s).place := by
  induction t generalizing s with
  | quiet => exact Or.inl rfl
  | andThen first second ihfirst ihsecond =>
    show (second.frontier (first.frontier s)).place = _ ∨ _
    rcases ihsecond (first.frontier s) with he | he
    · rcases ihfirst s with he' | he'
      · exact Or.inl (he.trans he')
      · exact Or.inr (Or.inl (by rw [frontier, he]; exact he'))
    · exact Or.inr (Or.inr he)
  | failed rule place inner ih =>
    show (s.fail (inner.frontier s) rule place).place = _ ∨ _
    rcases s.place_fail (inner.frontier s) rule place with he | he
    · rcases ih s with he' | he'
      · exact Or.inl (he.trans he')
      · exact Or.inr (Or.inl (by rw [frontier, he]; exact he'))
    · exact Or.inr (Or.inr he)

end Trace

namespace Reader

variable {α β : Type} {p q : Reader α} {c d e : Cursor}

/-- Whether some rule fails at `e` when the reader reads from `c`. -/
@[irreducible]
def FailsAt (p : Reader α) (c e : Cursor) : Prop := (p c).trace.FailedAt e

/-- The frontier that a failing reader leaves is the farthest place where some rule failed. -/
theorem farthest_failure (h : p.FailsAt c c) :
    p.FailsAt c ((p c).trace.frontier ⟨c, []⟩).place ∧
      ∀ e, p.FailsAt c e → e.offset ≤ ((p c).trace.frontier ⟨c, []⟩).place.offset := by
  unfold FailsAt at h ⊢
  refine ⟨?_, ((p c).trace.le_frontier ⟨c, []⟩).2⟩
  rcases (p c).trace.place_frontier ⟨c, []⟩ with he | he
  · rw [he]
    exact h
  · exact he

theorem not_failsAt_pure (a : α) : ¬(pure a : Reader α).FailsAt c e := by
  unfold FailsAt
  exact id

theorem not_failsAt_here : ¬here.FailsAt c e := by
  unfold FailsAt
  exact id

theorem not_failsAt_char (x : Char) : ¬(char x).FailsAt c e := by
  unfold FailsAt char
  split
  · exact id
  · split <;> exact id

theorem not_failsAt_digits : ¬digits.FailsAt c e := by
  unfold FailsAt digits
  split <;> exact id

theorem failsAt_bind {k : α → Reader β} :
    (p >>= k).FailsAt c e ↔
      p.FailsAt c e ∨ ∃ a d, (p c).result = some (a, d) ∧ (k a).FailsAt d e := by
  unfold FailsAt
  show (Reader.bind p k c).trace.FailedAt e ↔ _
  unfold Reader.bind
  rcases p c with ⟨_ | ⟨a, d⟩, t⟩
  · simp
  · constructor
    · rintro (h | h)
      · exact Or.inl h
      · exact Or.inr ⟨a, d, rfl, h⟩
    · rintro (h | ⟨a', d', he, h⟩)
      · exact Or.inl h
      · cases he
        exact Or.inr h

theorem failsAt_orElse :
    (orElse p q).FailsAt c e ↔ p.FailsAt c e ∨ (p c).result = none ∧ q.FailsAt c e := by
  unfold FailsAt orElse
  rcases p c with ⟨_ | r, t⟩ <;> simp [Trace.FailedAt]

theorem failsAt_optional : (optional p).FailsAt c e ↔ p.FailsAt c e := by
  unfold FailsAt optional
  rcases p c with ⟨_ | ⟨a, d⟩, t⟩ <;> rfl

theorem failsAt_rule {r : Rule} :
    (rule r p).FailsAt c e ↔ p.FailsAt c e ∨ (p c).result = none ∧ e = c := by
  unfold FailsAt rule
  rcases p c with ⟨_ | x, t⟩ <;> simp [Trace.FailedAt]

theorem FailsAt.bind {k : α → Reader β} (h : p.FailsAt c e) : (p >>= k).FailsAt c e :=
  failsAt_bind.mpr (Or.inl h)

theorem FailsAt.behind {k : α → Reader β} {a : α} (hread : (p c).result = some (a, d))
    (h : (k a).FailsAt d e) : (p >>= k).FailsAt c e :=
  failsAt_bind.mpr (Or.inr ⟨a, d, hread, h⟩)

theorem FailsAt.optional (h : p.FailsAt c e) : (optional p).FailsAt c e := failsAt_optional.mpr h

theorem FailsAt.rule {r : Rule} (h : p.FailsAt c e) : (rule r p).FailsAt c e :=
  failsAt_rule.mpr (Or.inl h)

theorem failsAt_rule_self {r : Rule} (h : (rule r p c).result = none) :
    (rule r p).FailsAt c c := by
  rw [result_rule] at h
  exact failsAt_rule.mpr (Or.inr ⟨h, rfl⟩)

theorem failsAt_many :
    FailsAt (many p) c e ↔ p.FailsAt c e ∨ ∃ a d, (p c).result = some (a, d) ∧
      d.rest.length < c.rest.length ∧ FailsAt (many p) d e := by
  unfold FailsAt
  rw [many]
  rcases p c with ⟨_ | ⟨a, d⟩, t⟩
  · simp
  · simp only
    split
    next hlt =>
      constructor
      · rintro (h | h)
        · exact Or.inl h
        · exact Or.inr ⟨a, d, rfl, hlt, h⟩
      · rintro (h | ⟨a', d', he, -, h⟩)
        · exact Or.inl h
        · cases he
          exact Or.inr h
    next hlt =>
      constructor
      · exact Or.inl
      · rintro (h | ⟨a', d', he, hlt', -⟩)
        · exact h
        · cases he
          exact absurd hlt' hlt

theorem failsAt_endOfText : endOfText.FailsAt c e ↔ c.rest ≠ [] ∧ e = c := by
  obtain ⟨offset, rest⟩ := c
  cases rest <;> simp [FailsAt, endOfText, rule, Trace.FailedAt]

theorem failsAt_number : number.FailsAt c e ↔ (number c).result = none ∧ e = c := by
  have hinner : ¬(do let place ← here; let ds ← digits; pure ⟨place.offset, ds⟩ :
      Reader Numeral).FailsAt c e := by
    rw [failsAt_bind]
    rintro (h | ⟨place, d, -, h⟩)
    · exact not_failsAt_here h
    rcases failsAt_bind.mp h with h | ⟨ds, d, -, h⟩
    · exact not_failsAt_digits h
    · exact not_failsAt_pure _ h
  rw [number, failsAt_rule, or_iff_right hinner, result_rule]

theorem number_eq_none (h : ∀ x, c.rest.head? = some x → x.isDigit = false) :
    (number c).result = none := by
  cases hr : (number c).result with
  | none => rfl
  | some r =>
    obtain ⟨ds, hpasses, -⟩ := number_passes hr
    obtain ⟨x, xs, hx, hdigit⟩ := ds.exists_cons
    have hhead : c.rest.head? = some x := by rw [hpasses.rest_eq, hx]; rfl
    cases hdigit.symm.trans (h x hhead)

theorem failsAt_char_number {x : Char} (hx : x.utf8Size = 1)
    (h : (do char x; number).FailsAt c e) : c.Passes [x] e := by
  rcases failsAt_bind.mp h with h | ⟨⟨⟩, d, hchar, h⟩
  · exact absurd h (not_failsAt_char x)
  · obtain ⟨-, rfl⟩ := failsAt_number.mp h
    exact (char_eq_some hx).mp hchar

theorem clauseStop_of_range (h : range.FailsAt c e) : ∃ t, ClauseStop t ∧ c.Passes t e := by
  rw [range, failsAt_rule] at h
  rcases h with h | ⟨-, rfl⟩
  · rcases failsAt_bind.mp h with h | ⟨n, d, hfirst, h⟩
    · obtain ⟨-, rfl⟩ := failsAt_number.mp h
      exact ⟨[], .start, .refl e⟩
    rcases failsAt_bind.mp h with h | ⟨last, f, -, h⟩
    · obtain ⟨first, hpasses, -⟩ := number_passes hfirst
      have hdash := failsAt_char_number (by decide) (failsAt_optional.mp h)
      exact ⟨first.chars ++ ['-'], .dash first, hpasses.trans hdash⟩
    · exact absurd h (not_failsAt_pure _)
  · exact ⟨[], .start, .refl e⟩

theorem clauseStop_of_head
    (h : (orElse (do wildcard; pure none) (do let r ← range; pure (some r))).FailsAt c e) :
    ∃ t, ClauseStop t ∧ c.Passes t e := by
  rcases failsAt_orElse.mp h with h | ⟨-, h⟩
  · rcases failsAt_bind.mp h with h | ⟨⟨⟩, d, -, h⟩
    · rw [wildcard, failsAt_rule, or_iff_right (not_failsAt_char '*')] at h
      obtain ⟨-, rfl⟩ := h
      exact ⟨[], .start, .refl e⟩
    · exact absurd h (not_failsAt_pure _)
  · rcases failsAt_bind.mp h with h | ⟨r, d, -, h⟩
    · exact clauseStop_of_range h
    · exact absurd h (not_failsAt_pure _)

/-- A rule of a clause fails only behind a beginning that does not end in the digits of a step. -/
theorem clauseStop_of_term (h : term.FailsAt c e) : ∃ t, ClauseStop t ∧ c.Passes t e := by
  rw [term, failsAt_rule] at h
  rcases h with h | ⟨-, rfl⟩
  · rcases failsAt_bind.mp h with h | ⟨start, d, hstart, h⟩
    · exact absurd h not_failsAt_here
    cases hstart
    rcases failsAt_bind.mp h with h | ⟨r, d, hhead, h⟩
    · exact clauseStop_of_head h
    obtain ⟨hd, hpasses, -⟩ := head_passes hhead
    rcases failsAt_bind.mp h with h | ⟨s, f, -, h⟩
    · rw [failsAt_optional, step, failsAt_rule] at h
      rcases h with h | ⟨-, rfl⟩
      · exact ⟨_, .slash hd, hpasses.trans (failsAt_char_number (by decide) h)⟩
      · exact ⟨_, .head hd, hpasses⟩
    rcases failsAt_bind.mp h with h | ⟨stop, g, -, h⟩
    · exact absurd h not_failsAt_here
    · exact absurd h (not_failsAt_pure _)
  · exact ⟨[], .start, .refl e⟩

theorem fieldStop_of_others {p : Reader Term} (hp : p = (do char ','; term)) {c : Cursor}
    (h : FailsAt (many p) c e) : ∃ t, FieldStop t ∧ c.Passes (',' :: t) e := by
  rcases failsAt_many.mp h with h | ⟨t, d, hterm, hlt, h⟩
  · rw [hp] at h
    rcases failsAt_bind.mp h with h | ⟨⟨⟩, d, hcomma, h⟩
    · exact absurd h (not_failsAt_char ',')
    · obtain ⟨t, ht, hpasses⟩ := clauseStop_of_term h
      exact ⟨t, .clause ht, ((char_eq_some (by decide)).mp hcomma).trans hpasses⟩
  · obtain ⟨f, hf, -⟩ := comma_term_passes (hp ▸ hterm)
    obtain ⟨t, ht, hpasses⟩ := fieldStop_of_others hp h
    exact ⟨_, .cons f ht, hf.trans hpasses⟩
termination_by c.rest.length

/-- A rule of a field fails only behind a beginning that does not end in the digits of a step. -/
theorem fieldStop_of_field (h : field.FailsAt c e) : ∃ t, FieldStop t ∧ c.Passes t e := by
  rw [field, failsAt_rule] at h
  rcases h with h | ⟨-, rfl⟩
  · rcases failsAt_bind.mp h with h | ⟨t, d, hfirst, h⟩
    · obtain ⟨t, ht, hpasses⟩ := clauseStop_of_term h
      exact ⟨t, .clause ht, hpasses⟩
    obtain ⟨first, hpasses, -⟩ := term_passes hfirst
    rcases failsAt_bind.mp h with h | ⟨ts, f, -, h⟩
    · obtain ⟨t, ht, hpasses'⟩ := fieldStop_of_others rfl h
      exact ⟨_, .cons first ht, hpasses.trans hpasses'⟩
    · exact absurd h (not_failsAt_pure _)
  · exact ⟨[], .clause .start, .refl e⟩

theorem wildcard_eq_none (h : c.rest.head? ≠ some '*') : (wildcard c).result = none := by
  rw [wildcard, result_rule]
  exact char_eq_none h

theorem char_number_failsAt {x : Char} (hx : x.utf8Size = 1) (h : c.Passes [x] e)
    (hend : ∀ y, e.rest.head? = some y → y.isDigit = false) :
    (do char x; number).FailsAt c e :=
  .behind ((char_eq_some hx).mpr h) (failsAt_rule_self (number_eq_none hend))

theorem head_failsAt
    (h : (orElse (do wildcard; pure none) (do let r ← range; pure (some r))).FailsAt c e) :
    term.FailsAt c e := by
  rw [term]
  exact .rule (.behind rfl h.bind)

theorem step_failsAt {hd : ClauseHead} (hhead : c.Passes hd.written d)
    (hend : Stops ClauseHead.written hd.written d.rest) (h : step.FailsAt d e) :
    term.FailsAt c e := by
  rw [term]
  refine .rule (.behind rfl ?_)
  exact .behind (head_eq_some hhead hend) h.optional.bind

/-- Where a text does not go on with the beginning of a clause, some rule misses something. -/
theorem term_failsAt {t : List Char} (ht : ClauseStop t) (h : c.Passes t e)
    (hend : Stops ClauseForm.written t e.rest) : term.FailsAt c e := by
  cases ht with
  | start =>
    obtain rfl : c = e := (Cursor.Passes.refl c).unique h
    have hstar : (wildcard c).result = none :=
      wildcard_eq_none fun hx => hend '*' hx ⟨⟨.wildcard, none⟩, List.prefix_rfl⟩
    have hwildcard : wildcard.FailsAt c c := failsAt_rule_self hstar
    exact head_failsAt (failsAt_orElse.mpr (Or.inl hwildcard.bind))
  | dash first =>
    obtain ⟨d, hfirst, hdash⟩ := h.split
    obtain ⟨x, xs, hx, hdigit⟩ := first.exists_cons
    have hstar : (wildcard c).result = none := by
      refine wildcard_eq_none fun he => ?_
      rw [hfirst.rest_eq, hx] at he
      cases he
      cases hdigit
    have hread : (number c).result = some (first.numeral c.offset, d) := by
      refine number_eq_some hfirst fun y hy => ?_
      rw [hdash.rest_eq] at hy
      cases hy
      decide
    have hlast := char_number_failsAt (by decide) hdash fun y hy => Bool.eq_false_iff.mpr
      fun hdigit => hend y hy (ClauseForm.begins_head (ClauseHead.begins_dash_digit first hdigit))
    have hrange : range.FailsAt c e := by
      rw [range]
      exact .rule (.behind hread hlast.optional.bind)
    exact head_failsAt (failsAt_orElse.mpr (Or.inr ⟨bind_eq_none hstar, hrange.bind⟩))
  | head hd =>
    refine step_failsAt h (hend.of_begins fun x => ClauseForm.begins_head) ?_
    exact failsAt_rule_self (step_eq_none fun hx => hend '/' hx (ClauseForm.begins_slash hd))
  | slash hd =>
    obtain ⟨d, hhead, hslash⟩ := h.split
    have hbehind : Stops ClauseHead.written hd.written d.rest := by
      refine ClauseHead.stops_of_ends fun x hx => ?_
      rw [hslash.rest_eq] at hx
      cases hx
      decide
    refine step_failsAt hhead hbehind (.rule ?_)
    exact char_number_failsAt (by decide) hslash fun x hx => Bool.eq_false_iff.mpr
      fun hdigit => hend x hx (ClauseForm.begins_slash_digit hd hdigit)

theorem others_failsAt {t : List Char} (ht : FieldStop t) (h : c.Passes (',' :: t) e)
    (hend : Stops FieldForm.written t e.rest) : FailsAt (many (do char ','; term)) c e := by
  induction ht generalizing c with
  | clause ht =>
    obtain ⟨d, hcomma, ht'⟩ := Cursor.Passes.split (t := [',']) h
    have hterm := term_failsAt ht ht' (FieldForm.stops_clause hend)
    exact failsAt_many.mpr (Or.inl (.behind ((char_eq_some (by decide)).mpr hcomma) hterm))
  | @cons f t ht ih =>
    obtain ⟨d, hf, hothers⟩ := Cursor.Passes.split (t := ',' :: f.written) h
    have hbehind : Stops ClauseForm.written f.written d.rest :=
      hothers.rest_eq ▸ (endsClause_comma _).stops f.written
    exact failsAt_many.mpr (Or.inr ⟨_, d, comma_term_eq_some hf hbehind, length_lt_of_comma hf,
      ih hothers (FieldForm.stops_behind_comma hend)⟩)

/-- Where a text does not go on with the beginning of a field, some rule misses something. -/
theorem field_failsAt {t : List Char} (ht : FieldStop t) (h : c.Passes t e)
    (hend : Stops FieldForm.written t e.rest) : field.FailsAt c e := by
  rw [field]
  refine .rule ?_
  cases ht with
  | clause ht => exact (term_failsAt ht h (FieldForm.stops_clause hend)).bind
  | cons f ht =>
    obtain ⟨d, hf, hothers⟩ := h.split
    have hbehind : Stops ClauseForm.written f.written d.rest :=
      hothers.rest_eq ▸ (endsClause_comma _).stops f.written
    have hrest := others_failsAt ht hothers (FieldForm.stops_behind_comma hend)
    exact .behind (term_eq_some hf hbehind) hrest.bind

end Reader

end Timetable
