import Mathlib.Logic.Relation
import Timetable.Proofs.PatternRoundTrip

namespace Timetable

/-- The text without the zeros that its numbers do not need: those at the start of a run of digits
behind which another digit stands. `inRun` says whether a digit stands before the text. -/
def dropZeros (inRun : Bool) : List Char → List Char
  | [] => []
  | c :: cs =>
    if inRun = false ∧ c = '0' ∧ cs.head?.any Char.isDigit = true then dropZeros false cs
    else c :: dropZeros c.isDigit cs

theorem toNat_of_isDigit {c : Char} (h : c.isDigit = true) : 48 ≤ c.toNat ∧ c.toNat ≤ 57 := by
  simpa [Char.isDigit, UInt32.le_iff_toNat_le] using h

theorem decimalDigits_of_isDigit {c : Char} (h : c.isDigit = true) :
    decimalDigits (c.toNat - '0'.toNat) = [c] := by
  have hrange := toNat_of_isDigit h
  have hzero : '0'.toNat = 48 := rfl
  have hlt : c.toNat - '0'.toNat < 10 := by omega
  rw [decimalDigits, Nat.toDigits_of_lt_base hlt, List.singleton_inj, ← Char.toNat_inj,
    Nat.toNat_digitChar_of_lt_ten hlt]
  omega

/-- Digits behind those of a positive number write on at that number. -/
theorem decimalDigits_append {n : Nat} (hn : 0 < n) {run : List Char}
    (hrun : ∀ c ∈ run, c.isDigit = true) :
    decimalDigits n ++ run = decimalDigits (Nat.ofDigitChars 10 run n) := by
  induction run generalizing n with
  | nil => rw [List.append_nil, Nat.ofDigitChars_nil]
  | cons c cs ih =>
    obtain ⟨hc, hcs⟩ := List.forall_mem_cons.mp hrun
    have hrange := toNat_of_isDigit hc
    have hzero : '0'.toNat = 48 := rfl
    have happend : decimalDigits n ++ [c] = decimalDigits (10 * n + (c.toNat - '0'.toNat)) := by
      rw [← decimalDigits_of_isDigit hc]
      exact Nat.toDigits_append_toDigits (by decide) hn (by omega)
    calc
      decimalDigits n ++ c :: cs = decimalDigits n ++ [c] ++ cs := by simp
      _ = decimalDigits (10 * n + (c.toNat - '0'.toNat)) ++ cs := by rw [happend]
      _ = decimalDigits (Nat.ofDigitChars 10 (c :: cs) n) := by
        rw [ih (by omega) hcs, Nat.ofDigitChars_cons]

theorem decimalDigits_decimalValue {c : Char} {cs : List Char}
    (hrun : ∀ x ∈ c :: cs, x.isDigit = true) (hne : c ≠ '0') :
    decimalDigits (decimalValue (c :: cs)) = c :: cs := by
  obtain ⟨hc, hcs⟩ := List.forall_mem_cons.mp hrun
  have hrange := toNat_of_isDigit hc
  have hzero : '0'.toNat = 48 := rfl
  have hpos : 0 < c.toNat - '0'.toNat := by
    have : c.toNat ≠ '0'.toNat := fun h => hne (Char.toNat_inj.mp h)
    omega
  have happend := decimalDigits_append hpos hcs
  rw [decimalDigits_of_isDigit hc] at happend
  rw [decimalValue, Nat.ofDigitChars_cons, Nat.mul_zero, Nat.zero_add, ← happend]
  rfl

theorem decimalValue_zero_cons (cs : List Char) : decimalValue ('0' :: cs) = decimalValue cs := by
  rw [decimalValue, Nat.ofDigitChars_cons]
  rfl

section Dropping

variable {c : Char} {run rest : List Char}

theorem dropZeros_cons_of_not_isDigit (inRun : Bool) (h : c.isDigit = false) (cs : List Char) :
    dropZeros inRun (c :: cs) = c :: dropZeros false cs := by
  have hne : c ≠ '0' := by
    rintro rfl
    cases h
  rw [dropZeros, if_neg (fun hc => hne hc.2.1), h]

theorem dropZeros_of_ends (hrest : ∀ x, rest.head? = some x → x.isDigit = false) :
    dropZeros true rest = dropZeros false rest := by
  cases rest with
  | nil => rfl
  | cons x rest =>
    rw [dropZeros_cons_of_not_isDigit true (hrest x rfl),
      dropZeros_cons_of_not_isDigit false (hrest x rfl)]

theorem dropZeros_true_append (hrun : ∀ x ∈ run, x.isDigit = true) :
    dropZeros true (run ++ rest) = run ++ dropZeros true rest := by
  induction run with
  | nil => rfl
  | cons x xs ih =>
    obtain ⟨hx, hxs⟩ := List.forall_mem_cons.mp hrun
    rw [List.cons_append, dropZeros, if_neg (fun hc => nomatch hc.1), hx, ih hxs, List.cons_append]

theorem dropZeros_run (hne : run ≠ []) (hrun : ∀ x ∈ run, x.isDigit = true)
    (hrest : ∀ x, rest.head? = some x → x.isDigit = false) :
    dropZeros false (run ++ rest) = decimalDigits (decimalValue run) ++ dropZeros false rest := by
  induction run with
  | nil => exact absurd rfl hne
  | cons x xs ih =>
    obtain ⟨hx, hxs⟩ := List.forall_mem_cons.mp hrun
    by_cases hzero : x = '0'
    · subst hzero
      cases xs with
      | nil =>
        have hlast : rest.head?.any Char.isDigit ≠ true := by
          cases hhead : rest.head? with
          | none => simp
          | some y => simp [hrest y hhead]
        rw [List.singleton_append, dropZeros, if_neg (fun hc => hlast hc.2.2)]
        show '0' :: dropZeros true rest = decimalDigits 0 ++ dropZeros false rest
        rw [dropZeros_of_ends hrest]
        rfl
      | cons y ys =>
        have hy : y.isDigit = true := hxs y List.mem_cons_self
        have hskip : dropZeros false ('0' :: (y :: ys ++ rest)) =
            dropZeros false (y :: ys ++ rest) := by
          rw [dropZeros, if_pos ⟨rfl, rfl, by simp [hy]⟩]
        rw [List.cons_append, hskip, ih (List.cons_ne_nil y ys) hxs, decimalValue_zero_cons]
    · rw [List.cons_append, dropZeros, if_neg (fun hc => hzero hc.2.1), hx,
        dropZeros_true_append hxs, dropZeros_of_ends hrest, decimalDigits_decimalValue hrun hzero,
        List.cons_append]

end Dropping

theorem Digits.dropZeros_chars {d : Digits} (hfits : d.value < UInt64.size) {rest : List Char}
    (hrest : ∀ x, rest.head? = some x → x.isDigit = false) :
    dropZeros false (d.chars ++ rest) =
      decimalDigits d.value.toUInt64.toNat ++ dropZeros false rest := by
  have hword : d.value.toUInt64.toNat = d.value := UInt64.toNat_ofNat_of_lt hfits
  rw [dropZeros_run d.ne_nil d.isDigit hrest, hword]
  rfl

namespace ClauseForm

variable {c : ClauseForm} {rest : List Char}

theorem dropZeros_stepWritten (hfits : c.Fits) (hrest : EndsClause rest) :
    dropZeros false (c.stepWritten ++ rest) = c.clause.stepWritten ++ dropZeros false rest := by
  obtain ⟨head, step⟩ := c
  have hstep : (clause ⟨head, step⟩).step = step.map (·.value.toUInt64) := by
    cases head <;> rfl
  rw [Clause.stepWritten, hstep]
  cases step with
  | none => rfl
  | some ds =>
    have hvalue : ds.value < UInt64.size := hfits ds (by simp [numbers])
    rw [stepWritten, List.cons_append, dropZeros_cons_of_not_isDigit false (by decide),
      ds.dropZeros_chars hvalue fun x hx => (hrest.not_continues hx).1]
    rfl

/-- A clause keeps what writing its meaning takes. -/
theorem dropZeros_written (hfits : c.Fits) (hrest : EndsClause rest) :
    dropZeros false (c.written ++ rest) = c.clause.written ++ dropZeros false rest := by
  have hstepped := dropZeros_stepWritten hfits hrest
  have hbehind : ∀ x, (c.stepWritten ++ rest).head? = some x → x.isDigit = false := by
    intro x hx
    unfold stepWritten at hx
    cases hs : c.step with
    | none =>
      rw [hs] at hx
      exact (hrest.not_continues hx).1
    | some ds =>
      rw [hs] at hx
      cases hx
      rfl
  rw [written, Clause.written, List.append_assoc, List.append_assoc, ← hstepped]
  obtain ⟨head, step⟩ := c
  cases head with
  | wildcard => exact dropZeros_cons_of_not_isDigit false (by decide) _
  | number first =>
    have hfirst : first.value < UInt64.size := hfits first (by simp [numbers, ClauseHead.numbers])
    exact first.dropZeros_chars hfirst hbehind
  | range first last =>
    have hfirst : first.value < UInt64.size := hfits first (by simp [numbers, ClauseHead.numbers])
    have hlast : last.value < UInt64.size := hfits last (by simp [numbers, ClauseHead.numbers])
    rw [ClauseHead.written, List.append_assoc, List.cons_append,
      first.dropZeros_chars hfirst (by rintro x ⟨⟩; rfl),
      dropZeros_cons_of_not_isDigit false (by decide), last.dropZeros_chars hlast hbehind]
    simp [Clause.headWritten, clause]

end ClauseForm

theorem clausesWritten_cons_cons (c next : Clause) (cs : List Clause) :
    clausesWritten (c :: next :: cs) = c.written ++ ',' :: clausesWritten (next :: cs) := by
  simp [clausesWritten, List.intercalate_cons_cons]

/-- What a field's text says is written like the text, but without needless zeros. -/
theorem FieldForm.dropZeros_written {f : FieldForm} (hfits : f.Fits) :
    dropZeros false f.written = clausesWritten f.clauses := by
  obtain ⟨first, others⟩ := f
  obtain ⟨hfirst, hothers⟩ := List.forall_mem_cons.mp hfits
  show dropZeros false (first.written ++ othersWritten others) =
    clausesWritten (first.clause :: others.map ClauseForm.clause)
  clear hfits
  induction others generalizing first with
  | nil =>
    rw [othersWritten, List.flatMap_nil, ClauseForm.dropZeros_written hfirst endsField_nil.endsClause]
    simp [clausesWritten, dropZeros]
  | cons c cs ih =>
    obtain ⟨hc, hcs⟩ := List.forall_mem_cons.mp hothers
    have hwritten : othersWritten (c :: cs) = ',' :: (c.written ++ othersWritten cs) := rfl
    rw [hwritten, ClauseForm.dropZeros_written hfirst (endsClause_comma _),
      dropZeros_cons_of_not_isDigit false (by decide), ih c hc hcs, List.map_cons,
      clausesWritten_cons_cons]

theorem clausesWritten_inj {cs ds : List Clause} (hcs : cs ≠ []) (hds : ds ≠ [])
    (hcs' : ∀ c ∈ cs, c.Expressible) (hds' : ∀ c ∈ ds, c.Expressible) :
    clausesWritten cs = clausesWritten ds ↔ cs = ds := by
  refine ⟨fun h => ?_, congrArg clausesWritten⟩
  rw [← FieldForm.written_ofClauses hcs, ← FieldForm.written_ofClauses hds] at h
  rw [← FieldForm.clauses_ofClauses hcs hcs', ← FieldForm.clauses_ofClauses hds hds',
    FieldForm.written_injective h]

/-- Whether the second text has one more zero in front of one of its numbers. -/
def AddsZero (text text' : List Char) : Prop :=
  ∃ before d after, d.isDigit = true ∧ (∀ c, before.getLast? = some c → c.isDigit = false) ∧
    text = before ++ d :: after ∧ text' = before ++ '0' :: d :: after

/-- Whether texts differ only in the zeros in front of their numbers. -/
def SameButZeros : List Char → List Char → Prop := Relation.EqvGen AddsZero

/-- Zeros are dropped one by one, whatever text stands before. -/
theorem sameButZeros_dropZeros (before text : List Char) (inRun : Bool)
    (h : inRun = false → ∀ c, before.getLast? = some c → c.isDigit = false) :
    SameButZeros (before ++ dropZeros inRun text) (before ++ text) := by
  induction text generalizing before inRun with
  | nil => exact .refl _
  | cons c cs ih =>
    rw [dropZeros]
    split
    next hc =>
      obtain ⟨hrun, rfl, hdigit⟩ := hc
      obtain ⟨d, ds, rfl⟩ : ∃ d ds, cs = d :: ds := by
        cases cs with
        | nil => cases hdigit
        | cons d ds => exact ⟨d, ds, rfl⟩
      exact .trans _ _ _ (ih before false fun _ => h hrun)
        (.rel _ _ ⟨before, d, ds, by simpa using hdigit, h hrun, rfl, rfl⟩)
    next =>
      have hkept := ih (before ++ [c]) c.isDigit fun hc x hx => by
        rw [List.getLast?_concat] at hx
        cases hx
        exact hc
      simpa using hkept

theorem dropZeros_append_zero {before after : List Char} {d : Char} (hd : d.isDigit = true)
    (hbefore : ∀ c, before.getLast? = some c → c.isDigit = false) {inRun : Bool}
    (hrun : before = [] → inRun = false) :
    dropZeros inRun (before ++ '0' :: d :: after) = dropZeros inRun (before ++ d :: after) := by
  induction before generalizing inRun with
  | nil =>
    rw [hrun rfl, List.nil_append, dropZeros, if_pos ⟨rfl, rfl, by simp [hd]⟩]
    rfl
  | cons b bs ih =>
    have hhead : (bs ++ '0' :: d :: after).head?.any Char.isDigit =
        (bs ++ d :: after).head?.any Char.isDigit := by
      cases bs with
      | nil => simp [hd]
      | cons => rfl
    have hnext (next : Bool) (hnext : bs = [] → next = false) :
        dropZeros next (bs ++ '0' :: d :: after) = dropZeros next (bs ++ d :: after) := by
      refine ih (fun c hc => hbefore c ?_) hnext
      rw [List.getLast?_cons, hc]
      rfl
    rw [List.cons_append, List.cons_append, dropZeros, dropZeros, hhead, hnext false fun _ => rfl,
      hnext b.isDigit fun hbs => hbefore b (by rw [hbs]; rfl)]

theorem dropZeros_eq_iff {text text' : List Char} :
    dropZeros false text = dropZeros false text' ↔ SameButZeros text text' := by
  constructor
  · intro h
    have hfirst := sameButZeros_dropZeros [] text false fun _ c hc => nomatch hc
    have hlast := sameButZeros_dropZeros [] text' false fun _ c hc => nomatch hc
    rw [List.nil_append, List.nil_append] at hfirst hlast
    exact .trans _ _ _ (.symm _ _ hfirst) (h ▸ hlast)
  · intro h
    induction h with
    | rel text text' h =>
      obtain ⟨before, d, after, hd, hbefore, rfl, rfl⟩ := h
      exact (dropZeros_append_zero hd hbefore fun _ => rfl).symm
    | refl => rfl
    | symm _ _ _ ih => exact ih.symm
    | trans _ _ _ _ _ ih ih' => exact ih.trans ih'

/-- What is read from a field's text is written like that text without needless zeros. Two texts
are read alike if they differ in nothing else. -/
theorem field_text_kept {field : Field} {text text' : String} {cs cs' : List Clause}
    (h : fieldOfText field text = .ok cs) (h' : fieldOfText field text' = .ok cs') :
    clausesWritten cs = dropZeros false text.toList ∧
      (cs = cs' ↔ SameButZeros text.toList text'.toList) := by
  have hread {text : String} {cs : List Clause} (h : fieldOfText field text = .ok cs) :
      ∃ f : FieldForm, f.written = text.toList ∧ f.Fits ∧ cs = f.clauses := by
    rw [fieldOfText, mapError_eq_ok] at h
    obtain ⟨f, hf⟩ := isFieldText_of_readField h
    rw [← hf, readField_written_eq_ok_iff] at h
    exact ⟨f, hf, h.1.fits, h.2⟩
  obtain ⟨f, htext, hfits, rfl⟩ := hread h
  obtain ⟨f', htext', hfits', rfl⟩ := hread h'
  have hexpressible (f : FieldForm) : ∀ c ∈ f.clauses, c.Expressible :=
    List.forall_mem_map.mpr fun c _ => c.expressible_clause
  rw [← htext, ← htext', ← dropZeros_eq_iff, f.dropZeros_written hfits, f'.dropZeros_written hfits',
    clausesWritten_inj f.clauses_ne_nil f'.clauses_ne_nil (hexpressible f) (hexpressible f')]
  exact ⟨rfl, Iff.rfl⟩

/-- The zeros before 7 are more than 64 bits have digits, those in 30 and 0 are needed. -/
theorem field_text_kept_paddedMinutes :
    ∃ cs, fieldOfText .minute "000000000000000000000000007/002,0-030" = .ok cs ∧
      fieldOfText .minute "7/2,00-30" = .ok cs ∧ clausesWritten cs = "7/2,0-30".toList ∧
      SameButZeros "000000000000000000000000007/002,0-030".toList "7/2,00-30".toList := by
  obtain ⟨cs, h⟩ := exists_ok_of_isOk
    (x := fieldOfText .minute "000000000000000000000000007/002,0-030") (by decide +kernel)
  obtain ⟨cs', h'⟩ := exists_ok_of_isOk (x := fieldOfText .minute "7/2,00-30") (by decide +kernel)
  obtain ⟨hwritten, hsame⟩ := field_text_kept h h'
  have hzeros : SameButZeros "000000000000000000000000007/002,0-030".toList
      "7/2,00-30".toList := dropZeros_eq_iff.mp (by decide +kernel)
  obtain rfl := hsame.mpr hzeros
  exact ⟨cs, h, h', hwritten.trans (by decide +kernel), hzeros⟩

end Timetable
