import Timetable.Proofs.InhabitedMerge
import Timetable.Proofs.JsonReading
import Timetable.Proofs.ListingCommand

namespace Timetable

section Words

theorem Json.word?_ofNat (v : UInt64) : (Json.ofNat v.toNat).word? = some v := by
  have hall : (decimalDigits v.toNat).all Char.isDigit = true :=
    List.all_eq_true.mpr fun c => isDigit_of_mem_decimalDigits
  have hlt : v.toNat < UInt64.size := v.toNat_lt
  simp only [Json.word?, Json.ofNat, hall, decimalValue_decimalDigits, hlt, if_true]
  exact congrArg some (UInt64.toNat_inj.mp (by simp))

theorem wordOfJson?_wordJson (o : Option UInt64) : wordOfJson? (some (wordJson o)) = some o := by
  cases o with
  | none => rfl
  | some v =>
    show (Json.ofNat v.toNat).word?.map some = _
    rw [Json.word?_ofNat, Option.map_some]

theorem plain_wordJson (o : Option UInt64) : (wordJson o).Plain := by
  cases o with
  | none => exact .null
  | some v => exact .number v.toNat

end Words

namespace Clause

/-- Absent numbers, and those of all 64 bits, survive. -/
theorem ofJson?_toJson (c : Clause) : ofJson? c.toJson = some c := by
  have hfirst : Json.member? [("begin", wordJson c.first), ("end", wordJson c.last),
      ("step", wordJson c.step)] "begin" = some (wordJson c.first) := rfl
  have hlast : Json.member? [("begin", wordJson c.first), ("end", wordJson c.last),
      ("step", wordJson c.step)] "end" = some (wordJson c.last) := rfl
  have hstep : Json.member? [("begin", wordJson c.first), ("end", wordJson c.last),
      ("step", wordJson c.step)] "step" = some (wordJson c.step) := rfl
  simp [ofJson?, toJson, Json.record?, hfirst, hlast, hstep, wordOfJson?_wordJson]

theorem plain_toJson (c : Clause) : c.toJson.Plain := by
  refine .object ?_
  simp [plain_wordJson]

end Clause

theorem clausesOfJson?_map_toJson (cs : List Clause) :
    clausesOfJson? (.array (cs.map Clause.toJson)) = some cs := by
  rw [clausesOfJson?, List.mapM_map]
  induction cs with
  | nil => rfl
  | cons c cs ih => simp [ih, Clause.ofJson?_toJson]

namespace Pattern

/-- Each list stands under the name of its field. -/
theorem member?_listName (g : Field → Json) (f : Field) :
    Json.member? (Field.all.map fun f => (f.listName, g f)) f.listName = some (g f) := by
  cases f <;> rfl

theorem ofJson?_toJson (p : Pattern) : ofJson? p.toJson = some p := by
  have hlist (f : Field) : (Json.member? (Field.all.map fun f =>
      (f.listName, Json.array ((p.get f).map Clause.toJson))) f.listName).bind clausesOfJson? =
        some (p.get f) := by
    rw [member?_listName fun f => Json.array ((p.get f).map Clause.toJson), Option.bind_some,
      clausesOfJson?_map_toJson]
  simp only [ofJson?, toJson, Json.record?, hlist, Option.bind_eq_bind, Option.bind_some]
  rfl

theorem plain_toJson (p : Pattern) : p.toJson.Plain := by
  refine .object fun member hmember => ?_
  obtain ⟨f, -, rfl⟩ := List.mem_map.mp hmember
  refine .array fun item hitem => ?_
  obtain ⟨c, -, rfl⟩ := List.mem_map.mp hitem
  exact c.plain_toJson

/-- White space may follow the tree of a pattern. -/
theorem ofJsonText?_prettyJson (p : Pattern) (space : String)
    (hspace : Json.skipSpace space.toList = []) : ofJsonText? (p.prettyJson ++ space) = some p := by
  have htext : p.prettyJson ++ space = String.ofList (p.toJson.pretty 0 ++ space.toList) := by
    rw [prettyJson, String.ofList_append, String.ofList_toList]
  rw [ofJsonText?, htext, Json.ofText?_pretty p.plain_toJson 0 hspace, Option.bind_some,
    ofJson?_toJson]

end Pattern

section Texts

theorem ClauseHead.exists_written_eq (h : ClauseHead) :
    ∃ c cs, h.written = c :: cs ∧ (c.isDigit = true ∨ c = '*') := by
  cases h with
  | wildcard => exact ⟨'*', [], rfl, Or.inr rfl⟩
  | number first =>
    obtain ⟨c, cs, hfirst, hc⟩ := first.exists_cons
    exact ⟨c, cs, hfirst, Or.inl hc⟩
  | range first last =>
    obtain ⟨c, cs, hfirst, hc⟩ := first.exists_cons
    exact ⟨c, cs ++ '-' :: last.chars, by rw [written, hfirst, List.cons_append], Or.inl hc⟩

/-- A pattern begins as its first field does. -/
theorem PatternForm.exists_written_eq (l : PatternForm) :
    ∃ c cs, l.written = c :: cs ∧ (c.isDigit = true ∨ c = '*') := by
  have hfirst : ∃ f : FieldForm, f.first.head.written <+: l.written := by
    obtain ⟨_ | ⟨year, month, day⟩, _ | weekday, hour, minute, second, millisecond⟩ := l
    · exact ⟨hour, by simp [written, Layout.written, Layout.map, Layout.dateWritten,
        Layout.weekdayWritten, FieldForm.written, ClauseForm.written]⟩
    · exact ⟨weekday, by simp [written, Layout.written, Layout.map, Layout.dateWritten,
        Layout.weekdayWritten, FieldForm.written, ClauseForm.written]⟩
    all_goals exact ⟨year, by simp [written, Layout.written, Layout.map, Layout.dateWritten,
      FieldForm.written, ClauseForm.written]⟩
  obtain ⟨f, rest, hrest⟩ := hfirst
  obtain ⟨c, cs, hhead, hc⟩ := f.first.head.exists_written_eq
  exact ⟨c, cs ++ rest, by rw [← hrest, hhead, List.cons_append], hc⟩

/-- No pattern looks like an option. -/
theorem head?_ne_of_ofText {text : String} {p : Pattern} (h : Pattern.ofText text = .ok p) :
    text.toList.head? ≠ some '-' := by
  obtain ⟨l, hl, -, -⟩ := Pattern.ofText_eq_ok_iff.mp h
  obtain ⟨c, cs, hwritten, hc⟩ := l.exists_written_eq
  rw [← hl, hwritten]
  rintro ⟨⟩
  rcases hc with hc | hc <;> cases hc

end Texts

namespace Command

theorem loneOperand?_of_head?_ne {text : String} (h : text.toList.head? ≠ some '-') :
    loneOperand? [text] = some text := by
  rw [loneOperand?, Arguments.ofList?, Arguments.scan?_operand _ _ h]
  rfl

theorem outcome_tree {text : String} {s : Schedule} (h : Schedule.ofText text = .ok s) :
    outcome ["ast", text] = .success (s.pattern.prettyJson ++ "\n") [] := by
  have hhead := head?_ne_of_ofText (Schedule.ofText_eq_ok_iff.mp h).1
  have hargs : ofArgs? ["ast", text] = some (.tree text) := by
    show (loneOperand? [text]).map Command.tree = _
    rw [loneOperand?_of_head?_ne hhead, Option.map_some]
  rw [outcome, hargs]
  show (tree text).run = _
  rw [run, h]
  rfl

end Command

/-- The tree that is printed for a text is the schedule of the text: reading it gives the same
pattern again, and merging that pattern the same points. -/
theorem printed_tree_reads_back {text : String} {s : Schedule} (h : Schedule.ofText text = .ok s) :
    (Command.outcome ["ast", text]).exitCode = 0 ∧
      ∃ p, Pattern.ofJsonText? (Command.outcome ["ast", text]).output = some p ∧
        p = s.pattern ∧ p.allowance = .ok s.allowance := by
  rw [Command.outcome_tree h]
  exact ⟨rfl, s.pattern, s.pattern.ofJsonText?_prettyJson "\n" (by decide), rfl,
    Schedule.allowance_pattern h⟩

theorem printed_tree_reads_back_largestStep :
    ∃ s, Schedule.ofText "*/18446744073709551615:0-5/2,7:59" = .ok s ∧
      s.pattern.hour = [.every 18446744073709551615] ∧
      s.pattern.minute = [.steppedRange 0 5 2, .point 7] ∧
      Pattern.ofJsonText? (Command.outcome ["ast", "*/18446744073709551615:0-5/2,7:59"]).output =
        some s.pattern ∧ s.pattern.allowance = .ok s.allowance := by
  obtain ⟨s, hs⟩ := exists_ok_of_isOk
    (x := Schedule.ofText "*/18446744073709551615:0-5/2,7:59") (by decide +kernel)
  have hclauses : Pattern.ofText "*/18446744073709551615:0-5/2,7:59" = .ok
      { Pattern.always with
        hour := [.every 18446744073709551615]
        minute := [.steppedRange 0 5 2, .point 7]
        second := [.point 59]
        millisecond := [.point 0] } := by decide +kernel
  have hpattern := Except.ok.inj ((Schedule.ofText_eq_ok_iff.mp hs).1.symm.trans hclauses)
  obtain ⟨-, p, hp, rfl, hallowance⟩ := printed_tree_reads_back hs
  exact ⟨s, hs, by rw [hpattern], by rw [hpattern], hp, hallowance⟩

end Timetable
