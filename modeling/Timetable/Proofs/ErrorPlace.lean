import Mathlib.Data.Nat.Find
import Timetable.Proofs.Openings

namespace Timetable

open PatternForm

/-- Whether `w` is the longest beginning of the text that can become a pattern. -/
structure LongestViable (text w : List Char) : Prop where
  begins : w <+: text
  viable : Viable w
  longest : ∀ v, v <+: text → Viable v → v.length ≤ w.length

theorem viable_nil : Viable [] :=
  ((Opening.hour none none).viable (FieldForm.begins_clause ClauseStop.start.begins)).shorter
    List.nil_prefix

theorem exists_longestViable (text : List Char) : ∃ w, LongestViable text w := by
  classical
  let n := Nat.findGreatest (fun n => Viable (text.take n)) text.length
  have hn : n ≤ text.length := Nat.findGreatest_le _
  refine ⟨text.take n, List.take_prefix n text, ?_, fun v hv hviable => ?_⟩
  · exact Nat.findGreatest_spec (P := fun n => Viable (text.take n)) (Nat.zero_le _) viable_nil
  · rw [List.length_take_of_le hn]
    refine Nat.le_findGreatest hv.length_le ?_
    rwa [← List.prefix_iff_eq_take.mp hv]

namespace LongestViable

variable {text w v rest : List Char}

theorem extends_all (h : LongestViable text w) (hv : v <+: text) (hviable : Viable v) : v <+: w :=
  List.prefix_of_prefix_length_le hv h.begins (h.longest v hv hviable)

theorem stops (h : LongestViable text w) (htext : text = w ++ rest) :
    Stops PatternForm.written w rest := by
  intro x hx hviable
  obtain ⟨tail, rfl⟩ : ∃ tail, rest = x :: tail := by
    cases rest with
    | nil => cases hx
    | cons y tail =>
      cases hx
      exact ⟨tail, rfl⟩
  have hle := h.longest (w ++ [x]) ⟨tail, by simp [htext]⟩ hviable
  rw [List.length_append, List.length_singleton] at hle
  omega

end LongestViable

/-- The character in front of the digits that a text ends in. -/
def stem? (text : List Char) : Option Char := (text.reverse.dropWhile Char.isDigit).head?

theorem stem?_append (before : List Char) {x : Char} (hx : x.isDigit = false) {run : List Char}
    (hrun : ∀ c ∈ run, c.isDigit = true) : stem? (before ++ x :: run) = some x := by
  have hrun : ∀ c ∈ run.reverse, c.isDigit = true := fun c hc => hrun c (List.mem_reverse.mp hc)
  rw [stem?, List.reverse_append, List.reverse_cons, List.append_assoc,
    List.dropWhile_append_of_pos hrun]
  simp [hx]

theorem stem?_digits {run : List Char} (hrun : ∀ c ∈ run, c.isDigit = true) : stem? run = none := by
  have hrun : ∀ c ∈ run.reverse, c.isDigit = true := fun c hc => hrun c (List.mem_reverse.mp hc)
  rw [stem?, ← List.append_nil run.reverse, List.dropWhile_append_of_pos hrun]
  rfl

theorem EndsInStep.shape {text : List Char} (h : EndsInStep text) :
    stem? text = some '/' ∧ ∃ z, text.getLast? = some z ∧ z.isDigit = true := by
  obtain ⟨before, step, rfl⟩ := h
  refine ⟨stem?_append before (by decide) step.isDigit, ?_⟩
  obtain ⟨run, z, hz⟩ := (List.eq_nil_or_concat step.chars).resolve_left step.ne_nil
  refine ⟨z, ?_, step.isDigit z (by simp [hz])⟩
  rw [hz, List.concat_eq_append, ← List.cons_append, ← List.append_assoc, List.getLast?_concat]

/-- The beginnings of a clause that some rule goes on from do not end in the digits of a step. -/
theorem ClauseStop.not_endsInStep {before t : List Char} (ht : ClauseStop t)
    (hbefore : ∀ x, before.getLast? = some x → BoundsClause x) : ¬EndsInStep (before ++ t) := by
  intro h
  obtain ⟨hstem, z, hz, hdigit⟩ := h.shape
  have hne {x : Char} (hx : x.isDigit = false) (text : List Char) :
      (text ++ [x]).getLast? ≠ some z := by
    rw [List.getLast?_concat]
    rintro ⟨⟩
    cases hx.symm.trans hdigit
  cases ht with
  | start =>
    rw [List.append_nil] at hz
    cases (hbefore z hz).boundsNumber.symm.trans hdigit
  | dash first =>
    rw [← List.append_assoc] at hz
    exact hne (by decide) _ hz
  | slash hd =>
    rw [← List.append_assoc] at hz
    exact hne (by decide) _ hz
  | head hd =>
    cases hd with
    | wildcard => exact hne (by decide) before hz
    | number first =>
      rcases List.eq_nil_or_concat before with rfl | ⟨front, y, rfl⟩
      · cases (stem?_digits first.isDigit).symm.trans hstem
      · have hy : BoundsClause y := hbefore y (by simp)
        rw [List.concat_eq_append, List.append_assoc] at hstem
        cases (stem?_append front hy.boundsNumber first.isDigit).symm.trans hstem
        rcases hy with hcomma | hseparator
        · cases hcomma
        · cases hseparator
    | range first last =>
      rw [ClauseHead.written, ← List.append_assoc] at hstem
      cases (stem?_append _ (by decide) last.isDigit).symm.trans hstem

theorem FieldStop.not_endsInStep {before t : List Char} (ht : FieldStop t)
    (hbefore : ∀ x, before.getLast? = some x → BoundsClause x) : ¬EndsInStep (before ++ t) := by
  induction ht generalizing before with
  | clause ht => exact ht.not_endsInStep hbefore
  | @cons c t _ ih =>
    have hcomma : ∀ x, (before ++ c.written ++ [',']).getLast? = some x → BoundsClause x :=
      SetOff.bounds_concat (Or.inl rfl) (before ++ c.written)
    simpa using ih hcomma

namespace PatternForm

theorem Opening.bounds {w : List Char} (hw : Opening w) :
    ∀ x, w.getLast? = some x → BoundsField x := by
  have hseparator {x : Char} (hx : isSeparator x = true) (text : List Char) :
      ∀ y, (text ++ [x]).getLast? = some y → BoundsField y := SetOff.bounds_concat hx text
  cases hw with
  | hour date weekday =>
    rcases weekday with _ | weekday
    · rcases date with _ | ⟨year, month, day⟩
      · intro x hx
        cases hx
      · rw [front, Option.map_none, Layout.weekdayWritten, List.append_nil]
        exact hseparator rfl _
    · rw [front, Option.map_some, Layout.weekdayWritten, ← List.append_assoc]
      exact hseparator rfl _
  | month year => exact hseparator rfl year.written
  | _ =>
    simp only [← List.append_assoc]
    exact hseparator rfl _

theorem Stop.not_endsInStep {text : List Char} (h : Stop text) : ¬EndsInStep text := by
  obtain ⟨w, t, hw, ht, rfl⟩ := h
  exact ht.not_endsInStep fun x hx => (hw.bounds x hx).boundsClause

/-- What can become a pattern ends where some rule goes on from, or in the digits of a step. -/
theorem stop_of_viable {text : List Char} (h : Viable text) : Stop text ∨ EndsInStep text := by
  obtain ⟨w, t, hw, ht, rfl⟩ := inField_of_viable h
  rcases begins_field_cases ht with hstop | hstep
  · exact Or.inl ⟨w, t, hw, hstop, rfl⟩
  · exact Or.inr (hstep.append w)

end PatternForm

namespace Reader

/-- Some rule fails where the longest beginning that can become a pattern ends, unless that ends in
the digits of a step and is no pattern itself. -/
theorem failsAt_longest {text w : List Char} {e : Cursor} (hlongest : LongestViable text w)
    (hpasses : Cursor.Passes ⟨0, text⟩ w e) (hno : ∀ l : PatternForm, l.written ≠ text) :
    layout.FailsAt ⟨0, text⟩ e ↔ (EndsInStep w → ∃ l : PatternForm, l.written = w) := by
  have hstops := hlongest.stops hpasses.rest_eq
  constructor
  · intro hfails hstep
    rcases stop_of_layout hfails with ⟨t, ht, hpasses'⟩ | ⟨-, l, hpasses'⟩
    · cases hpasses.text_unique hpasses'
      exact absurd hstep ht.not_endsInStep
    · exact ⟨l, (hpasses.text_unique hpasses').symm⟩
  · intro hstep
    rcases stop_of_viable hlongest.viable with hstop | hends
    · exact layout_failsAt_of_stop hstop hpasses hstops
    · obtain ⟨l, rfl⟩ := hstep hends
      refine layout_failsAt_end hpasses hstops fun hnil => hno l ?_
      have htext : text = l.written ++ e.rest := hpasses.rest_eq
      rw [htext, hnil, List.append_nil]

end Reader

theorem byteCount_viable {text : List Char} (h : Viable text) : byteCount text = text.length := by
  obtain ⟨l, hl⟩ := h
  exact byteCount_eq_length fun c hc => utf8Size_of_mem_written c (hl.subset hc)

/-- What is reported of a text that is no pattern: the farthest place where some rule failed. -/
theorem ofText_eq_error {text : String} (h : ∀ l : PatternForm, l.written ≠ text.toList) :
    ∃ s : Frontier, Pattern.ofText text = .error (s.finding.diagnostic text) ∧
      Reader.layout.FailsAt ⟨0, text.toList⟩ s.place ∧
      ∀ e, Reader.layout.FailsAt ⟨0, text.toList⟩ e → e.offset ≤ s.place.offset := by
  have hnone := Reader.layout_eq_none h
  refine ⟨(Reader.layout ⟨0, text.toList⟩).trace.frontier ⟨⟨0, text.toList⟩, []⟩, ?_,
    Reader.farthest_failure (Reader.failsAt_rule_self hnone)⟩
  simp only [Pattern.ofText, readPattern, Reader.run, hnone]
  rfl

/-- A text that is no pattern is refused where its longest beginning that can become one ends. Only
if that ends in the digits of a step, and is no pattern itself, the place is an earlier one: no rule
begins behind a step. -/
theorem unexpected_place {text : String} (h : ¬∃ l : PatternForm, l.written = text.toList) :
    ∃ expected before after w, text.toList = before ++ after ∧
      Pattern.ofText text = .error ⟨.unexpected expected after.head?, .parse, .ofPattern text,
        ⟨byteCount before, byteCount after.head?.toList⟩⟩ ∧
      LongestViable text.toList w ∧ before <+: w ∧
      (before = w ↔ (EndsInStep w → ∃ l : PatternForm, l.written = w)) := by
  have hno := not_exists.mp h
  obtain ⟨s, herror, hplace, hfarthest⟩ := ofText_eq_error hno
  obtain ⟨w, hw⟩ := exists_longestViable text.toList
  obtain ⟨before, hbefore, hviable⟩ :
      ∃ before, Cursor.Passes ⟨0, text.toList⟩ before s.place ∧ Viable before := by
    rcases Reader.stop_of_layout hplace with ⟨t, ht, hpasses⟩ | ⟨-, l, hpasses⟩
    · exact ⟨t, hpasses, ht.viable⟩
    · exact ⟨l.written, hpasses, begins_written l⟩
  -- What stands before the reported place is viable, so the longest viable beginning extends it.
  have htext : text.toList = before ++ s.place.rest := hbefore.rest_eq
  have hoffset : s.place.offset = before.length := by rw [hbefore.offset_eq, Nat.zero_add]
  have hle : before <+: w := hw.extends_all ⟨s.place.rest, htext.symm⟩ hviable
  refine ⟨Rule.ordered s.rules, before, s.place.rest, w, htext, ?_, hw, hle, ?_⟩
  · rw [herror, Finding.diagnostic, s.finding_eq, hoffset, byteCount_viable hviable]
  · -- No failure lies farther than the reported place, so it is one at the end of `w` that counts.
    obtain ⟨rest, hrest⟩ := hw.begins
    have hpasses : Cursor.Passes ⟨0, text.toList⟩ w ⟨w.length, rest⟩ :=
      ⟨hrest.symm, (Nat.zero_add _).symm⟩
    rw [← Reader.failsAt_longest hw hpasses hno]
    constructor
    · rintro rfl
      rw [← hbefore.unique hpasses]
      exact hplace
    · intro hfails
      have hfar := hfarthest _ hfails
      rw [hoffset] at hfar
      exact hle.eq_of_length_le hfar

/-- A text with a letter behind the step of its first field. -/
def strayLetter : String := "10/5x:00:00"

theorem ofText_strayLetter : Pattern.ofText strayLetter =
    .error ⟨.unexpected [.pattern] (some '1'), .parse, .ofPattern strayLetter, ⟨0, 1⟩⟩ := by
  decide +kernel

theorem unexpected_place_strayLetter :
    (¬∃ l : PatternForm, l.written = strayLetter.toList) ∧
      ∃ expected before after w, strayLetter.toList = before ++ after ∧
        Pattern.ofText strayLetter = .error ⟨.unexpected expected after.head?, .parse,
          .ofPattern strayLetter, ⟨byteCount before, byteCount after.head?.toList⟩⟩ ∧
        LongestViable strayLetter.toList w ∧ before <+: w ∧
        (before = w ↔ (EndsInStep w → ∃ l : PatternForm, l.written = w)) := by
  have hno : ¬∃ l : PatternForm, l.written = strayLetter.toList :=
    Pattern.ofText_isSyntax_iff.mp ⟨_, ofText_strayLetter, trivial⟩
  exact ⟨hno, unexpected_place hno⟩

/-- The place is not always where the longest beginning that can become a pattern ends. -/
theorem unexpected_before_longest : ¬∀ (text : String) (d : Diagnostic),
    Pattern.ofText text = .error d → d.fault.IsSyntax →
      ∃ w, LongestViable text.toList w ∧ d.span.offset = byteCount w := by
  intro h
  obtain ⟨w, hw, hoffset⟩ := h strayLetter _ ofText_strayLetter trivial
  let tenFifths : ClauseForm :=
    ⟨.number ((Digits.single '1' rfl).concat '0' rfl), some (.single '5' rfl)⟩
  have hbegins : Begins FieldForm.written tenFifths.written :=
    FieldForm.begins_clause (begins_written tenFifths)
  have hviable : Viable tenFifths.written := (Opening.hour none none).viable hbegins
  have hlonger : 4 ≤ w.length := hw.longest tenFifths.written (by decide) hviable
  have hzero : 0 = w.length := hoffset.trans (byteCount_viable hw.viable)
  omega

end Timetable
