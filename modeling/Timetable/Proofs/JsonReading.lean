import Mathlib.Data.Option.Basic
import Mathlib.Tactic.SplitIfs
import Timetable.JsonReader
import Timetable.Proofs.LayoutText

namespace Timetable

theorem exists_decimalDigits_eq (n : Nat) :
    ∃ d ds, decimalDigits n = d :: ds ∧ d.isDigit = true := by
  obtain ⟨d, ds, hd⟩ := List.exists_cons_of_ne_nil (decimalDigits_ne_nil n)
  exact ⟨d, ds, hd, isDigit_of_mem_decimalDigits (n := n) (hd ▸ List.mem_cons_self)⟩

/-- No number but zero is written with a zero in front. -/
theorem head?_decimalDigits {n : Nat} (h : 0 < n) : (decimalDigits n).head? ≠ some '0' := by
  induction n using Nat.strongRecOn with
  | ind n ih =>
    by_cases hlt : n < 10
    · have hdigit : ∀ k < 10, 0 < k → Nat.digitChar k ≠ '0' := by decide
      rw [decimalDigits, Nat.toDigits_of_lt_base hlt, List.head?_cons]
      exact fun he => hdigit n hlt h (Option.some.inj he)
    · have hsplit : decimalDigits n = decimalDigits (n / 10) ++ decimalDigits (n % 10) := by
        have happend : decimalDigits (n / 10) ++ decimalDigits (n % 10) =
            decimalDigits (10 * (n / 10) + n % 10) :=
          Nat.toDigits_append_toDigits (by decide) (by omega) (by omega)
        rw [happend, Nat.div_add_mod]
      obtain ⟨d, ds, hd, -⟩ := exists_decimalDigits_eq (n / 10)
      have hhead := ih (n / 10) (by omega) (by omega)
      rw [hd] at hhead hsplit
      rw [hsplit]
      exact hhead

namespace Json

section Space

variable {cs cs' : List Char}

/-- The characters of white space. -/
def spaces : List Char := [' ', '\t', '\n', '\r']

theorem skipSpace_cons {c : Char} (cs : List Char) (h : c ∉ spaces) :
    skipSpace (c :: cs) = c :: cs :=
  List.dropWhile_cons_of_neg (by simpa [spaces] using h)

theorem skipSpace_newLine (indent : Nat) (cs : List Char) :
    skipSpace (newLine indent ++ cs) = skipSpace cs := by
  refine List.dropWhile_append_of_pos fun c hc => ?_
  rcases List.mem_cons.mp hc with rfl | hc
  · rfl
  · rw [(List.mem_replicate.mp hc).2]
    rfl

theorem readValue?_congr (fuel : Nat) (h : skipSpace cs = skipSpace cs') :
    readValue? fuel cs = readValue? fuel cs' := by
  cases fuel with
  | zero => rfl
  | succ fuel => rw [readValue?, readValue?, h]

theorem readItems?_congr (fuel : Nat) (h : skipSpace cs = skipSpace cs') :
    readItems? fuel cs = readItems? fuel cs' := by
  cases fuel with
  | zero => rfl
  | succ fuel => rw [readItems?, readItems?, readValue?_congr fuel h]

theorem readMembers?_congr (fuel : Nat) (h : skipSpace cs = skipSpace cs') :
    readMembers? fuel cs = readMembers? fuel cs' := by
  cases fuel with
  | zero => rfl
  | succ fuel => rw [readMembers?, readMembers?, h]

end Space

section Strings

variable {c : Char} {rest : List Char}

theorem hexValue?_hexDigit (n : Nat) : hexValue? (hexDigit n) = some (n % 16) := by
  have hdigit : ∀ k < 16, hexValue? (Nat.digitChar k) = some k := by decide
  exact hdigit _ (Nat.mod_lt n (by decide))

theorem readEscape?_control (h : c.toNat < 32) (rest : List Char) :
    readEscape? ('u' :: '0' :: '0' :: hexDigit (c.toNat / 16) :: hexDigit c.toNat :: rest) =
      some (c, rest) := by
  have hzero : hexValue? '0' = some 0 := rfl
  have hvalue : c.toNat / 16 % 16 * 16 + c.toNat % 16 = c.toNat := by omega
  have hunit : readUnit? ('0' :: '0' :: hexDigit (c.toNat / 16) :: hexDigit c.toNat :: rest) =
      some (c.toNat, rest) := by
    simp [readUnit?, hzero, hexValue?_hexDigit, hvalue]
  have hlow : ¬(0xD800 ≤ c.toNat ∧ c.toNat < 0xDC00) := by omega
  have hhigh : ¬(0xDC00 ≤ c.toNat ∧ c.toNat < 0xE000) := by omega
  simp [readEscape?, readCodePoint?, hunit, hlow, hhigh]

/-- Reading undoes the quoting of a character. -/
theorem readString?_charQuoted (fuel : Nat) (found : List Char) (c : Char) (rest : List Char) :
    readString? (fuel + 1) found (charQuoted c ++ rest) = readString? fuel (c :: found) rest := by
  unfold charQuoted
  split_ifs with hquote hslash hfeed hreturn htab hback hform hlow
  · rw [hquote]; rfl
  · rw [hslash]; rfl
  · rw [hfeed]; rfl
  · rw [hreturn]; rfl
  · rw [htab]; rfl
  · rw [show c = Char.ofNat 8 from Char.toNat_inj.mp hback]; rfl
  · rw [show c = Char.ofNat 12 from Char.toNat_inj.mp hform]; rfl
  · have hescape := readEscape?_control hlow rest
    simp only [List.cons_append, List.nil_append, readString?, hescape]
    rfl
  · rw [List.singleton_append, readString?, if_neg hlow]
    · exact hquote
    · exact hslash

theorem readString?_flatMap {cs : List Char} {fuel : Nat} (found : List Char)
    (h : cs.length < fuel) :
    readString? fuel found (cs.flatMap charQuoted ++ '"' :: rest) =
      some (found.reverse ++ cs, rest) := by
  induction cs generalizing fuel found with
  | nil =>
    obtain ⟨fuel, rfl⟩ := Nat.exists_eq_succ_of_ne_zero (Nat.ne_of_gt h)
    rw [List.append_nil]
    rfl
  | cons c cs ih =>
    obtain ⟨fuel, rfl⟩ := Nat.exists_eq_succ_of_ne_zero (Nat.ne_zero_of_lt h)
    rw [List.flatMap_cons, List.append_assoc, readString?_charQuoted,
      ih _ (Nat.lt_of_succ_lt_succ h)]
    simp

theorem length_le_flatMap_charQuoted (cs : List Char) :
    cs.length ≤ (cs.flatMap charQuoted).length := by
  induction cs with
  | nil => exact Nat.le_refl 0
  | cons c cs ih =>
    have hpos : 1 ≤ (charQuoted c).length := by
      unfold charQuoted
      split_ifs <;> simp
    rw [List.flatMap_cons, List.length_append, List.length_cons]
    omega

theorem readString?_quoted (s : String) (rest : List Char) :
    let body := s.toList.flatMap charQuoted ++ '"' :: rest
    readString? (body.length + 1) [] body = some (s.toList, rest) := by
  have hlength := length_le_flatMap_charQuoted s.toList
  refine readString?_flatMap [] ?_
  rw [List.length_append]
  omega

end Strings

section Numbers

variable {rest : List Char}

/-- Whether a number has ended where the text goes on. -/
def EndsNumber (rest : List Char) : Prop :=
  ∀ c, rest.head? = some c → c.isDigit = false ∧ c ≠ '.' ∧ c ≠ 'e' ∧ c ≠ 'E'

theorem endsNumber_nil : EndsNumber [] := by
  intro c h
  cases h

theorem endsNumber_cons {c : Char} (rest : List Char)
    (h : c.isDigit = false ∧ c ≠ '.' ∧ c ≠ 'e' ∧ c ≠ 'E') : EndsNumber (c :: rest) := by
  intro c' h'
  cases h'
  exact h

theorem endsNumber_newLine (indent : Nat) (rest : List Char) :
    EndsNumber (newLine indent ++ rest) :=
  endsNumber_cons _ (by decide)

theorem endsNumber_of_skipSpace (h : skipSpace rest = []) : EndsNumber rest := by
  cases rest with
  | nil => exact endsNumber_nil
  | cons c rest =>
    have hends : ∀ c ∈ spaces, c.isDigit = false ∧ c ≠ '.' ∧ c ≠ 'e' ∧ c ≠ 'E' := by
      simp [spaces]
    by_cases hc : c ∈ spaces
    · exact endsNumber_cons rest (hends c hc)
    · rw [skipSpace_cons rest hc] at h
      cases h

theorem readRun?_append {ds : List Char} (hne : ds ≠ []) (hds : ∀ c ∈ ds, c.isDigit = true)
    (hrest : EndsNumber rest) : readRun? (ds ++ rest) = some (ds, rest) := by
  have htake : (ds ++ rest).takeWhile Char.isDigit = ds :=
    takeWhile_append_of_ends hds fun c hc => (hrest c hc).1
  obtain ⟨d, ds, rfl⟩ := List.exists_cons_of_ne_nil hne
  rw [readRun?, htake]
  exact congrArg (fun cs => some (d :: ds, cs)) List.drop_left

theorem readWhole?_decimalDigits (n : Nat) (hrest : EndsNumber rest) :
    readWhole? (decimalDigits n ++ rest) = some (decimalDigits n, rest) := by
  have hzeros : (decimalDigits n).head? ≠ some '0' ∨ (decimalDigits n).length = 1 := by
    rcases Nat.eq_zero_or_pos n with rfl | hpos
    · exact Or.inr rfl
    · exact Or.inl (head?_decimalDigits hpos)
  rw [readWhole?, readRun?_append (decimalDigits_ne_nil n)
    (fun c => isDigit_of_mem_decimalDigits) hrest]
  simp [guard, hzeros]

theorem readFractionPart?_of_ends (hrest : EndsNumber rest) :
    readFractionPart? rest = some ([], rest) := by
  unfold readFractionPart?
  split
  next => exact absurd rfl (hrest '.' rfl).2.1
  next => rfl

theorem readExponent?_of_ends (hrest : EndsNumber rest) :
    readExponent? rest = some ([], rest) := by
  cases rest with
  | nil => rfl
  | cons c rest =>
    obtain ⟨-, -, he, hE⟩ := hrest c rfl
    simp [readExponent?, he, hE]

theorem readNumber?_decimalDigits (n : Nat) (hrest : EndsNumber rest) :
    readNumber? (decimalDigits n ++ rest) = some (.ofNat n, rest) := by
  obtain ⟨d, ds, hd, hdigit⟩ := exists_decimalDigits_eq n
  have hsign : d ≠ '-' := by
    rintro rfl
    cases hdigit
  have hwhole := readWhole?_decimalDigits n hrest
  rw [hd, List.cons_append] at hwhole ⊢
  unfold readNumber?
  split
  next heq =>
    split at heq
    next he => exact absurd (List.cons.inj he).1 hsign
    next =>
      cases heq
      simp [hwhole, readFractionPart?_of_ends hrest, readExponent?_of_ends hrest, ofNat, hd]

end Numbers

section Values

/-- Whether every number in the value is the writing of a natural number. -/
inductive Plain : Json → Prop
  | null : Plain .null
  | bool (value : Bool) : Plain (.bool value)
  | number (n : Nat) : Plain (.ofNat n)
  | string (value : String) : Plain (.string value)
  | array {items : List Json} (h : ∀ item ∈ items, Plain item) : Plain (.array items)
  | object {members : List (String × Json)} (h : ∀ member ∈ members, Plain member.2) :
    Plain (.object members)

/-- Whether the value is read back from its text, wherever that stands. Each call reads a shorter
part of the text, so the length of the text is fuel enough. -/
def Rereads (j : Json) : Prop :=
  ∀ fuel indent rest, (pretty indent j).length ≤ fuel → EndsNumber rest →
    readValue? fuel (pretty indent j ++ rest) = some (j, rest)

variable {fuel indent : Nat} {rest : List Char}

theorem prettyItems_eq_map (indent : Nat) (items : List Json) :
    prettyItems indent items = items.map (pretty indent) := by
  induction items with
  | nil => rfl
  | cons item items ih => rw [prettyItems, ih, List.map_cons]

/-- A member of an object with its name. -/
def prettyMember (indent : Nat) (member : String × Json) : List Char :=
  quoted member.1 ++ ':' :: ' ' :: pretty indent member.2

theorem prettyMembers_eq_map (indent : Nat) (members : List (String × Json)) :
    prettyMembers indent members = members.map (prettyMember indent) := by
  induction members with
  | nil => rfl
  | cons member members ih => rw [prettyMembers, ih, List.map_cons, prettyMember]

/-- Parts behind another one. -/
def further (indent : Nat) (parts : List (List Char)) : List Char :=
  parts.flatMap fun part => ',' :: newLine indent ++ part

theorem further_cons (indent : Nat) (part : List Char) (parts : List (List Char)) :
    further indent (part :: parts) = ',' :: (newLine indent ++ (part ++ further indent parts)) := by
  simp [further]

theorem enclosed_cons (opening closing : Char) (indent : Nat) (part : List Char)
    (parts : List (List Char)) :
    enclosed opening closing indent (part :: parts) =
      opening :: (newLine (indent + 1) ++ (part ++ further (indent + 1) parts ++
        (newLine indent ++ [closing]))) := by
  simp [enclosed, further]

theorem length_lt_of_further {part next : List Char} {parts : List (List Char)}
    (h : (part ++ further indent (next :: parts)).length < fuel + 1) :
    (next ++ further indent parts).length < fuel := by
  rw [further_cons] at h
  simp only [List.length_append, List.length_cons] at h ⊢
  omega

theorem length_lt_of_enclosed {opening closing : Char} {part : List Char}
    {parts : List (List Char)}
    (h : (enclosed opening closing indent (part :: parts)).length ≤ fuel + 1) :
    (part ++ further (indent + 1) parts).length < fuel := by
  rw [enclosed_cons] at h
  simp only [List.length_append, List.length_cons] at h ⊢
  omega

theorem exists_enclosed_eq (opening closing : Char) (indent : Nat) (parts : List (List Char)) :
    ∃ cs, enclosed opening closing indent parts = opening :: cs := by
  cases parts with
  | nil => exact ⟨_, rfl⟩
  | cons part parts => exact ⟨_, enclosed_cons opening closing indent part parts⟩

theorem notMem_of_isDigit {d : Char} (h : d.isDigit = true) :
    d ∉ spaces ++ ['n', 't', 'f', '"', '[', ']', '{'] := by
  intro hmem
  have hnone : ∀ c ∈ spaces ++ ['n', 't', 'f', '"', '[', ']', '{'], c.isDigit = false := by
    simp [spaces]
  cases h.symm.trans (hnone d hmem)

/-- No value begins with white space or like the end of an array. -/
theorem Plain.exists_pretty_eq {j : Json} (h : j.Plain) (indent : Nat) :
    ∃ c cs, pretty indent j = c :: cs ∧ c ∉ ']' :: spaces := by
  cases h with
  | null => exact ⟨'n', _, rfl, by decide⟩
  | bool value =>
    cases value with
    | false => exact ⟨'f', _, rfl, by decide⟩
    | true => exact ⟨'t', _, rfl, by decide⟩
  | number n =>
    obtain ⟨d, ds, hd, hdigit⟩ := exists_decimalDigits_eq n
    refine ⟨d, ds, hd, fun hmem => notMem_of_isDigit hdigit ?_⟩
    revert hmem
    simp +contextual [or_imp]
  | string value => exact ⟨'"', _, rfl, by decide⟩
  | @array items =>
    obtain ⟨cs, hcs⟩ := exists_enclosed_eq '[' ']' indent (prettyItems (indent + 1) items)
    exact ⟨'[', cs, hcs, by decide⟩
  | @object members =>
    obtain ⟨cs, hcs⟩ := exists_enclosed_eq '{' '}' indent (prettyMembers (indent + 1) members)
    exact ⟨'{', cs, hcs, by decide⟩

theorem readItems?_pretty (outer : Nat) (rest : List Char) {item : Json} {items : List Json}
    (hitem : item.Rereads) (hitems : ∀ i ∈ items, Rereads i)
    (hfuel : (pretty indent item ++ further indent (items.map (pretty indent))).length < fuel) :
    readItems? fuel (pretty indent item ++ further indent (items.map (pretty indent)) ++
      (newLine outer ++ ']' :: rest)) = some (item :: items, rest) := by
  induction items generalizing item fuel with
  | nil =>
    obtain ⟨fuel, rfl⟩ := Nat.exists_eq_succ_of_ne_zero (Nat.ne_zero_of_lt hfuel)
    rw [List.length_append] at hfuel
    have hvalue := hitem fuel indent (newLine outer ++ ']' :: rest) (by omega)
      (endsNumber_newLine outer _)
    simp [readItems?, further, hvalue, skipSpace_newLine, skipSpace_cons, spaces]
  | cons next items ih =>
    obtain ⟨fuel, rfl⟩ := Nat.exists_eq_succ_of_ne_zero (Nat.ne_zero_of_lt hfuel)
    obtain ⟨hnext, hitems⟩ := List.forall_mem_cons.mp hitems
    have hrest := ih hnext hitems (length_lt_of_further hfuel)
    rw [List.map_cons, further_cons] at hfuel ⊢
    -- From the next item on the text is read as one; only that a comma sets it off matters here.
    generalize pretty indent next ++ further indent (items.map (pretty indent)) = body at *
    have hvalue := hitem fuel indent (',' :: (newLine indent ++ (body ++
      (newLine outer ++ ']' :: rest)))) (by simp at hfuel; omega) (endsNumber_cons _ (by decide))
    have hskip := readItems?_congr fuel
      (skipSpace_newLine indent (body ++ (newLine outer ++ ']' :: rest)))
    simp [readItems?, hvalue, skipSpace_cons, spaces, hskip, hrest]

/-- Behind a name and its value, reading goes on with the other members. -/
theorem readMembers?_prettyMember {member : String × Json}
    (hvalue : readValue? fuel (pretty indent member.2 ++ rest) = some (member.2, rest)) :
    readMembers? (fuel + 1) (prettyMember indent member ++ rest) =
      match skipSpace rest with
      | ',' :: rest => (readMembers? fuel rest).bind fun found => some (member :: found.1, found.2)
      | '}' :: rest => some ([member], rest)
      | _ => none := by
  have hname := readString?_quoted member.1 (':' :: ' ' :: (pretty indent member.2 ++ rest))
  have hspace : readValue? fuel (' ' :: (pretty indent member.2 ++ rest)) =
      readValue? fuel (pretty indent member.2 ++ rest) := readValue?_congr fuel rfl
  have hquote : '"' ∉ spaces := by decide
  have hcolon : ':' ∉ spaces := by decide
  simp only [prettyMember, quoted, readMembers?, List.cons_append, List.append_assoc,
    List.nil_append, skipSpace_cons _ hquote, skipSpace_cons _ hcolon, hname, hspace, hvalue,
    Option.bind_eq_bind, Option.bind_some, String.ofList_toList]
  rfl

theorem readMembers?_pretty (outer : Nat) (rest : List Char) {member : String × Json}
    {members : List (String × Json)} (hmember : member.2.Rereads)
    (hmembers : ∀ m ∈ members, Rereads m.2)
    (hfuel : (prettyMember indent member ++
      further indent (members.map (prettyMember indent))).length < fuel) :
    readMembers? fuel (prettyMember indent member ++
      further indent (members.map (prettyMember indent)) ++ (newLine outer ++ '}' :: rest)) =
        some (member :: members, rest) := by
  have hlength (m : String × Json) :
      (pretty indent m.2).length ≤ (prettyMember indent m).length := by
    simp only [prettyMember, List.length_append, List.length_cons]
    omega
  induction members generalizing member fuel with
  | nil =>
    obtain ⟨fuel, rfl⟩ := Nat.exists_eq_succ_of_ne_zero (Nat.ne_zero_of_lt hfuel)
    have hle := hlength member
    rw [List.length_append] at hfuel
    have hvalue := hmember fuel indent (newLine outer ++ '}' :: rest) (by omega)
      (endsNumber_newLine outer _)
    simp [further, readMembers?_prettyMember hvalue, skipSpace_newLine, skipSpace_cons, spaces]
  | cons next members ih =>
    obtain ⟨fuel, rfl⟩ := Nat.exists_eq_succ_of_ne_zero (Nat.ne_zero_of_lt hfuel)
    obtain ⟨hnext, hmembers⟩ := List.forall_mem_cons.mp hmembers
    have hle := hlength member
    have hrest := ih hnext hmembers (length_lt_of_further hfuel)
    rw [List.map_cons, further_cons] at hfuel ⊢
    generalize prettyMember indent next ++
      further indent (members.map (prettyMember indent)) = body at *
    have hvalue := hmember fuel indent (',' :: (newLine indent ++ (body ++
      (newLine outer ++ '}' :: rest)))) (by simp at hfuel; omega) (endsNumber_cons _ (by decide))
    have hskip := readMembers?_congr fuel
      (skipSpace_newLine indent (body ++ (newLine outer ++ '}' :: rest)))
    simp [readMembers?_prettyMember hvalue, skipSpace_cons, spaces, hskip, hrest]

theorem readValue?_of_isDigit {d : Char} (h : d.isDigit = true) (cs : List Char) :
    readValue? (fuel + 1) (d :: cs) = readNumber? (d :: cs) := by
  have hmem := notMem_of_isDigit h
  rw [readValue?, skipSpace_cons]
  · split <;> simp_all
  · simp_all

theorem readValue?_array {c : Char} {cs : List Char} (indent : Nat)
    (hspace : c ∉ ']' :: spaces) :
    readValue? (fuel + 1) ('[' :: (newLine indent ++ c :: cs)) =
      (readItems? fuel (c :: cs)).bind fun found => some (Json.array found.1, found.2) := by
  have hskip : skipSpace (newLine indent ++ c :: cs) = c :: cs := by
    rw [skipSpace_newLine, skipSpace_cons]
    exact fun hmem => hspace (List.mem_cons_of_mem ']' hmem)
  have hbracket : '[' ∉ spaces := by decide
  simp only [readValue?, skipSpace_cons _ hbracket, hskip]
  split
  next heq =>
    cases heq
    exact absurd List.mem_cons_self hspace
  next => rfl

theorem readValue?_object {cs : List Char} (indent : Nat) :
    readValue? (fuel + 1) ('{' :: (newLine indent ++ '"' :: cs)) =
      (readMembers? fuel ('"' :: cs)).bind fun found => some (Json.object found.1, found.2) := by
  have hskip : skipSpace (newLine indent ++ '"' :: cs) = '"' :: cs := by
    rw [skipSpace_newLine, skipSpace_cons _ (by decide)]
  have hbrace : '{' ∉ spaces := by decide
  simp only [readValue?, skipSpace_cons _ hbrace, hskip]
  rfl

theorem Plain.rereads_of_succ {j : Json} (hj : j.Plain)
    (h : ∀ fuel indent rest, (pretty indent j).length ≤ fuel + 1 → EndsNumber rest →
      readValue? (fuel + 1) (pretty indent j ++ rest) = some (j, rest)) : j.Rereads := by
  intro fuel indent rest hfuel hrest
  obtain ⟨c, cs, hc, -⟩ := hj.exists_pretty_eq indent
  cases fuel with
  | zero =>
    rw [hc] at hfuel
    cases hfuel
  | succ fuel => exact h fuel indent rest hfuel hrest

/-- The reader undoes the printer. -/
theorem Plain.rereads {j : Json} (h : j.Plain) : j.Rereads := by
  induction h with
  | null => exact Plain.null.rereads_of_succ fun fuel indent rest _ _ => rfl
  | bool value =>
    refine (Plain.bool value).rereads_of_succ fun fuel indent rest _ _ => ?_
    cases value <;> rfl
  | number n =>
    refine (Plain.number n).rereads_of_succ fun fuel indent rest _ hrest => ?_
    obtain ⟨d, ds, hd, hdigit⟩ := exists_decimalDigits_eq n
    have hnumber := readNumber?_decimalDigits n hrest
    show readValue? (fuel + 1) (decimalDigits n ++ rest) = some (ofNat n, rest)
    rw [hd, List.cons_append] at hnumber ⊢
    exact (readValue?_of_isDigit hdigit (ds ++ rest)).trans hnumber
  | string value =>
    refine (Plain.string value).rereads_of_succ fun fuel indent rest _ _ => ?_
    have hstring := readString?_quoted value rest
    rw [pretty, quoted, List.cons_append, List.cons_append, List.append_assoc,
      List.singleton_append, readValue?, skipSpace_cons _ (by decide)]
    show (readString? _ [] _).bind (fun found =>
      some (Json.string (String.ofList found.1), found.2)) = _
    rw [hstring, Option.bind_some, String.ofList_toList]
  | @array items h ih =>
    refine (Plain.array h).rereads_of_succ fun fuel indent rest hfuel _ => ?_
    cases items with
    | nil => rfl
    | cons item items =>
      obtain ⟨hitem, hitems⟩ := List.forall_mem_cons.mp ih
      rw [pretty, prettyItems_eq_map] at hfuel ⊢
      have hread := readItems?_pretty indent rest hitem hitems (length_lt_of_enclosed hfuel)
      rw [List.map_cons, enclosed_cons]
      obtain ⟨c, cs, hc, hspace⟩ := (h item List.mem_cons_self).exists_pretty_eq (indent + 1)
      simp only [hc, List.cons_append, List.append_assoc, List.nil_append] at hread ⊢
      rw [readValue?_array (indent + 1) hspace, hread]
      rfl
  | @object members h ih =>
    refine (Plain.object h).rereads_of_succ fun fuel indent rest hfuel _ => ?_
    cases members with
    | nil => rfl
    | cons member members =>
      obtain ⟨hmember, hmembers⟩ := List.forall_mem_cons.mp ih
      rw [pretty, prettyMembers_eq_map] at hfuel ⊢
      have hread := readMembers?_pretty indent rest hmember hmembers (length_lt_of_enclosed hfuel)
      rw [List.map_cons, enclosed_cons]
      simp only [prettyMember, quoted, List.cons_append, List.append_assoc, List.nil_append]
        at hread ⊢
      rw [readValue?_object (indent + 1), hread]
      rfl

/-- White space may follow the text of a value. -/
theorem ofText?_pretty {j : Json} (h : j.Plain) (indent : Nat) {space : List Char}
    (hspace : skipSpace space = []) :
    ofText? (String.ofList (pretty indent j ++ space)) = some j := by
  have hread := h.rereads (2 * (pretty indent j ++ space).length + 2) indent space
    (by rw [List.length_append]; omega) (endsNumber_of_skipSpace hspace)
  simp only [ofText?, String.toList_ofList, hread, hspace, Option.bind_eq_bind, Option.bind_some]
  rfl

end Values

end Json

end Timetable
