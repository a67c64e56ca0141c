import Timetable.PatternText
import Timetable.Proofs.FieldForm

namespace Timetable

theorem byteCount_append (before after : List Char) :
    byteCount (before ++ after) = byteCount before + byteCount after := by
  induction before with
  | nil => exact (Nat.zero_add _).symm
  | cons c cs ih => rw [List.cons_append, byteCount, byteCount, ih, Nat.add_assoc]

theorem exists_byteCount_cons (c : Char) (cs : List Char) :
    ∃ n, byteCount (c :: cs) = n + 1 ∧ c.utf8Size ≤ n + 1 ∧ n + 1 - c.utf8Size = byteCount cs := by
  have hpos := c.utf8Size_pos
  refine ⟨byteCount (c :: cs) - 1, ?_, ?_, ?_⟩ <;> rw [byteCount] <;> omega

theorem dropBytes?_byteCount (before after : List Char) :
    dropBytes? (byteCount before) (before ++ after) = some after := by
  induction before with
  | nil => rw [byteCount, dropBytes?, List.nil_append]
  | cons c cs ih =>
    obtain ⟨n, hn, hle, hsub⟩ := exists_byteCount_cons c cs
    rw [hn, List.cons_append, dropBytes?, if_pos hle, hsub, ih]

theorem takeBytes?_byteCount (shown after : List Char) :
    takeBytes? (byteCount shown) (shown ++ after) = some shown := by
  induction shown with
  | nil => rw [byteCount, takeBytes?]
  | cons c cs ih =>
    obtain ⟨n, hn, hle, hsub⟩ := exists_byteCount_cons c cs
    rw [hn, List.cons_append, takeBytes?, if_pos hle, hsub, ih, Option.map_some]

/-- A span that covers whole characters cuts them out of the text. -/
theorem Finding.snippet_diagnostic {text : String} {f : Finding} {before shown after : List Char}
    (htext : text.toList = before ++ shown ++ after)
    (hspan : f.span = ⟨byteCount before, byteCount shown⟩) :
    (f.diagnostic text).snippet = String.ofList shown := by
  have hdrop := dropBytes?_byteCount before (shown ++ after)
  have htake := takeBytes?_byteCount shown after
  rw [← List.append_assoc] at hdrop
  simp only [Diagnostic.snippet, diagnostic, Source.ofPattern, hspan, htext, hdrop,
    Option.bind_eq_bind, Option.bind_some, htake]

/-- The character at the frontier is covered by the span of the finding. -/
theorem Frontier.finding_eq (s : Frontier) :
    s.finding = ⟨.unexpected (Rule.ordered s.rules) s.place.rest.head?,
      ⟨s.place.offset, byteCount s.place.rest.head?.toList⟩⟩ := by
  unfold finding
  cases s.place.rest.head? <;> rfl

/-- Whether a place is one of the text: what is left to read is its end, and the offset counts the
bytes in front. -/
def Cursor.Within (text : List Char) (c : Cursor) : Prop :=
  ∃ before, text = before ++ c.rest ∧ c.offset = byteCount before

/-- Whether every rule that failed did so at a place of the text. -/
def Trace.Within (text : List Char) : Trace → Prop
  | .quiet => True
  | .andThen first second => first.Within text ∧ second.Within text
  | .failed _ place inner => place.Within text ∧ inner.Within text

/-- Whether reading went from place to place of the text. -/
structure Reading.Within {α : Type} (text : List Char) (r : Reading α) : Prop where
  result : ∀ a d, r.result = some (a, d) → d.Within text
  trace : r.trace.Within text

variable {text : List Char}

theorem Cursor.within_start (text : List Char) : Cursor.Within text ⟨0, text⟩ := ⟨[], rfl, rfl⟩

theorem Cursor.Within.advance {c : Cursor} (hc : c.Within text) {read rest : List Char}
    (h : c.rest = read ++ rest) : Cursor.Within text ⟨c.offset + byteCount read, rest⟩ := by
  obtain ⟨before, htext, hoffset⟩ := hc
  refine ⟨before ++ read, ?_, ?_⟩
  · rw [htext, h, List.append_assoc]
  · rw [hoffset, byteCount_append]

namespace Reading.Within

variable {α : Type} {a : α} {d : Cursor} {t : Trace}

theorem success (hd : d.Within text) (ht : t.Within text) :
    Reading.Within text ⟨some (a, d), t⟩ :=
  ⟨fun _ _ h => by cases h; exact hd, ht⟩

theorem failure (ht : t.Within text) : (⟨none, t⟩ : Reading α).Within text :=
  ⟨fun _ _ h => (by cases h), ht⟩

end Reading.Within

/-- A failure is reported where it happened, or else what was known before stays. -/
theorem Frontier.place_fail (before after : Frontier) (rule : Rule) (place : Cursor) :
    (before.fail after rule place).place = after.place ∨
      (before.fail after rule place).place = place := by
  unfold fail
  dsimp only
  split
  · exact Or.inl rfl
  split
  · exact Or.inl rfl
  split
  · exact Or.inl rfl
  · exact Or.inr rfl

theorem Trace.Within.place_frontier {t : Trace} (ht : t.Within text) {s : Frontier}
    (hs : s.place.Within text) : (t.frontier s).place.Within text := by
  induction t generalizing s with
  | quiet => exact hs
  | andThen first second ihfirst ihsecond => exact ihsecond ht.2 (ihfirst ht.1 hs)
  | failed rule place inner ih =>
    show (s.fail (inner.frontier s) rule place).place.Within text
    rcases s.place_fail (inner.frontier s) rule place with he | he <;> rw [he]
    · exact ih ht.2 hs
    · exact ht.1

namespace Reader

variable {α β : Type} {p q : Reader α}

/-- Whether the reader never leaves the text or stops within a character. -/
def Stays (p : Reader α) : Prop := ∀ text c, c.Within text → (p c).Within text

theorem stays_pure (a : α) : (pure a : Reader α).Stays := fun _ _ hc => .success hc trivial

theorem stays_here : here.Stays := fun _ _ hc => .success hc trivial

theorem stays_char (x : Char) : (char x).Stays := by
  intro text c hc
  unfold char
  split
  next => exact .failure trivial
  next y rest hrest =>
    split
    next he =>
      subst he
      have hy : c.rest = [y] ++ rest := hrest
      exact .success (hc.advance hy) trivial
    next => exact .failure trivial

/-- Digits take one byte each. -/
theorem stays_digits : digits.Stays := by
  intro text c hc
  unfold digits
  split
  next => exact .failure trivial
  next x xs hrun =>
    have hsize : byteCount (x :: xs) = (x :: xs).length := by
      refine byteCount_eq_length fun y hy => utf8Size_of_isFieldChar (isFieldChar_of_isDigit ?_)
      rw [← hrun] at hy
      exact List.all_eq_true.mp List.all_takeWhile y hy
    have hrest : c.rest = (x :: xs) ++ c.rest.drop (x :: xs).length :=
      (List.prefix_iff_eq_append.mp (hrun ▸ List.takeWhile_prefix Char.isDigit)).symm
    have hadvance := hc.advance hrest
    rw [hsize] at hadvance
    exact .success hadvance trivial

namespace Stays

theorem bind {k : α → Reader β} (hp : p.Stays) (hk : ∀ a, (k a).Stays) : (p >>= k).Stays := by
  intro text c hc
  have hp := hp text c hc
  show (Reader.bind p k c).Within text
  unfold Reader.bind
  split
  next t he => exact .failure (he ▸ hp).trace
  next a d t he =>
    rw [he] at hp
    have hk := hk a text d (hp.result a d rfl)
    exact ⟨hk.result, hp.trace, hk.trace⟩

theorem orElse (hp : p.Stays) (hq : q.Stays) : (orElse p q).Stays := by
  intro text c hc
  have hp := hp text c hc
  unfold Reader.orElse
  split
  next r t he => exact he ▸ hp
  next t he =>
    have hq := hq text c hc
    exact ⟨hq.result, (he ▸ hp).trace, hq.trace⟩

theorem optional (hp : p.Stays) : (optional p).Stays := by
  intro text c hc
  have hp := hp text c hc
  unfold Reader.optional
  split
  next a d t he =>
    rw [he] at hp
    exact .success (hp.result a d rfl) hp.trace
  next t he => exact .success hc (he ▸ hp).trace

theorem rule (hp : p.Stays) (r : Rule) : (rule r p).Stays := by
  intro text c hc
  have hp := hp text c hc
  unfold Reader.rule
  split
  next x t he => exact he ▸ hp
  next t he => exact .failure ⟨hc, (he ▸ hp).trace⟩

theorem many_within (hp : p.Stays) {c : Cursor} (hc : c.Within text) : (many p c).Within text := by
  have hread := hp text c hc
  rw [many]
  split
  next t he => exact .success hc (he ▸ hread).trace
  next a d t he =>
    rw [he] at hread
    have hd : d.Within text := hread.result a d rfl
    split
    next hlt =>
      have hothers := hp.many_within hd
      refine ⟨fun b e hb => ?_, hread.trace, hothers.trace⟩
      obtain ⟨⟨as, e'⟩, has, he⟩ := Option.map_eq_some_iff.mp hb
      cases he
      exact hothers.result as e has
    next => exact .success hd hread.trace
termination_by c.rest.length

theorem many (hp : p.Stays) : Stays (many p) := fun _ _ hc => hp.many_within hc

/-- A reader that fails does so at a character of the text, or where it ends. -/
theorem run_eq_error (hp : p.Stays) {e : Finding} (h : p.run text = .error e) :
    ∃ expected before after, text = before ++ after ∧
      e = ⟨.unexpected expected after.head?, ⟨byteCount before, byteCount after.head?.toList⟩⟩ := by
  unfold run at h
  dsimp only at h
  split at h
  next => cases h
  next =>
    cases h
    have hstart := Cursor.within_start text
    obtain ⟨before, htext, hoffset⟩ :=
      (hp text _ hstart).trace.place_frontier (s := ⟨⟨0, text⟩, []⟩) hstart
    generalize (p ⟨0, text⟩).trace.frontier ⟨⟨0, text⟩, []⟩ = s at htext hoffset ⊢
    exact ⟨Rule.ordered s.rules, before, s.place.rest, htext, by rw [s.finding_eq, hoffset]⟩

end Stays

theorem stays_endOfText : endOfText.Stays := by
  refine Stays.rule (fun text c hc => ?_) .endOfText
  split
  · exact .success hc trivial
  · exact .failure trivial

theorem stays_number : number.Stays :=
  .rule (.bind stays_here fun _ => .bind stays_digits fun _ => stays_pure _) .number

theorem stays_range : range.Stays :=
  .rule (.bind stays_number fun _ =>
    .bind (.optional (.bind (stays_char '-') fun _ => stays_number)) fun _ => stays_pure _) .range

theorem stays_step : step.Stays :=
  .rule (.bind (stays_char '/') fun _ => stays_number) .step

theorem stays_term : term.Stays := by
  have hwildcard : (do wildcard; pure none : Reader (Option (Numeral × Option Numeral))).Stays :=
    .bind (.rule (stays_char '*') .wildcard) fun _ => stays_pure none
  have hrange : (do let r ← range; pure (some r)).Stays :=
    .bind stays_range fun r => stays_pure (some r)
  exact .rule (.bind stays_here fun _ => .bind (.orElse hwildcard hrange) fun _ =>
    .bind (.optional stays_step) fun _ => .bind stays_here fun _ => stays_pure _) .clause

theorem stays_field : field.Stays := by
  have hothers : Stays (many do char ','; term) :=
    .many (.bind (stays_char ',') fun _ => stays_term)
  exact .rule (.bind stays_term fun _ => .bind hothers fun _ => stays_pure _) .field

/-- Fields with a character between them. -/
theorem Stays.field_char (x : Char) {k : List Term → Reader β} (hk : ∀ ts, (k ts).Stays) :
    (do let ts ← field; char x; k ts).Stays :=
  .bind stays_field fun ts => .bind (stays_char x) fun _ => hk ts

theorem stays_date : date.Stays :=
  .rule (.field_char '.' fun _ => .field_char '.' fun _ =>
    .bind stays_field fun _ => stays_pure _) .date

theorem stays_time : time.Stays := by
  have hmillisecond : (optional do char '.'; field).Stays :=
    .optional (.bind (stays_char '.') fun _ => stays_field)
  exact .rule (.field_char ':' fun _ => .field_char ':' fun _ =>
    .bind stays_field fun _ => .bind hmillisecond fun _ => stays_pure _) .time

theorem Stays.optional_blank (hp : p.Stays) :
    (Reader.optional do let r ← p; char ' '; pure r).Stays :=
  .optional (.bind hp fun r => .bind (stays_char ' ') fun _ => stays_pure r)

theorem stays_layout : layout.Stays :=
  .rule (.bind stays_date.optional_blank fun _ =>
    .bind (Stays.optional_blank (.rule stays_field .weekday)) fun _ =>
      .bind stays_time fun _ => .bind stays_endOfText fun _ => stays_pure _) .pattern

theorem stays_loneField : loneField.Stays :=
  .rule (.bind stays_field fun _ => .bind stays_endOfText fun _ => stays_pure _) .loneField

end Reader

end Timetable
