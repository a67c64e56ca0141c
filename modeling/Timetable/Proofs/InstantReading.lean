import Timetable.InstantText
import Timetable.Proofs.Calendar

namespace Timetable

section Padded

variable {width n : Nat}

theorem decimalValue_padded (width n : Nat) : decimalValue (padded width n) = n := by
  unfold padded decimalValue
  rw [Nat.ofDigitChars_append, Nat.ofDigitChars_replicate_zero, Nat.mul_zero]
  exact decimalValue_decimalDigits n

theorem isDigit_of_mem_padded {c : Char} (h : c ∈ padded width n) : c.isDigit = true := by
  rcases List.mem_append.mp h with hzero | hdigit
  · rw [(List.mem_replicate.mp hzero).2]
    decide
  · exact isDigit_of_mem_decimalDigits hdigit

theorem padded_ne_nil (width n : Nat) : padded width n ≠ [] :=
  List.append_ne_nil_of_right_ne_nil _ (decimalDigits_ne_nil n)

/-- What has room in the width fills it exactly. -/
theorem length_padded (h : (decimalDigits n).length ≤ width) : (padded width n).length = width := by
  rw [padded, List.length_append, List.length_replicate]
  omega

end Padded

theorem skipBlanks_cons {c : Char} (cs : List Char) (h : isBlank c = false) :
    skipBlanks (c :: cs) = c :: cs := List.dropWhile_cons_of_neg (by simp [h])

theorem skipBlanks_digits {ds : List Char} (rest : List Char) (hne : ds ≠ [])
    (hdigits : ∀ c ∈ ds, c.isDigit = true) : skipBlanks (ds ++ rest) = ds ++ rest := by
  obtain ⟨d, ds, rfl⟩ := List.exists_cons_of_ne_nil hne
  exact skipBlanks_cons _ (isBlank_of_isDigit (hdigits d List.mem_cons_self))

/-- Reading digits stops at the most that are wanted or where the digits end. -/
theorem readDigits?_append {most : Nat} {ds : List Char} (rest : List Char) (hne : ds ≠ [])
    (hdigits : ∀ c ∈ ds, c.isDigit = true) (hlen : ds.length ≤ most)
    (hrest : ds.length = most ∨ ∀ c ∈ rest.head?, c.isDigit = false) :
    readDigits? most (ds ++ rest) = some (ds, rest) := by
  have hstop : (rest.take (most - ds.length)).takeWhile Char.isDigit = [] := by
    rcases hrest with heq | hhead
    · rw [heq, Nat.sub_self, List.take_zero, List.takeWhile_nil]
    · cases rest with
      | nil => rw [List.take_nil, List.takeWhile_nil]
      | cons c cs =>
        have hc := hhead c rfl
        cases most - ds.length with
        | zero => rfl
        | succ k => rw [List.take_succ_cons, List.takeWhile_cons_of_neg (by simp [hc])]
  have hrun : ((ds ++ rest).take most).takeWhile Char.isDigit = ds := by
    rw [List.take_append, List.take_of_length_le hlen, List.takeWhile_append_of_pos hdigits,
      hstop, List.append_nil]
  obtain ⟨d, ds, rfl⟩ := List.exists_cons_of_ne_nil hne
  rw [readDigits?, hrun]
  exact congrArg some (Prod.ext rfl List.drop_left)

theorem readPart?_padded {n : Nat} (h : n < 100) (rest : List Char) :
    readPart? (padded 2 n ++ rest) = some (n, rest) := by
  have hlen : (padded 2 n).length = 2 :=
    length_padded ((Nat.length_toDigits_le_iff (by decide) (by decide)).mpr h)
  have hdigits : ∀ c ∈ padded 2 n, c.isDigit = true := fun c => isDigit_of_mem_padded
  unfold readPart?
  rw [skipBlanks_digits rest (padded_ne_nil 2 n) hdigits,
    readDigits?_append rest (padded_ne_nil 2 n) hdigits hlen.le (Or.inl hlen)]
  exact congrArg (fun v => some (v, rest)) (decimalValue_padded 2 n)

/-- A year that starts with a digit has no sign. -/
theorem readYear?_of_isDigit {d : Char} (cs : List Char) (hd : d.isDigit = true) :
    readYear? (d :: cs) =
      (readDigits? 4 (d :: cs)).map fun r => ((decimalValue r.1 : Int), r.2) := by
  unfold readYear?
  rw [skipBlanks_cons cs (isBlank_of_isDigit hd)]
  split
  next h =>
    cases h
    exact absurd hd (by decide)
  next h =>
    cases h
    exact absurd hd (by decide)
  next => cases readDigits? 4 (d :: cs) <;> rfl

/-- A year reads as it is written, as four digits or with its sign. -/
theorem readYear?_yearWritten (year : Int) (rest : List Char) :
    readYear? (yearWritten year ++ '-' :: rest) = some (year, '-' :: rest) := by
  have hdigits {n : Nat} : ∀ c ∈ padded 4 n, c.isDigit = true := fun c => isDigit_of_mem_padded
  unfold yearWritten
  split
  next hrange =>
    have hlt : year.toNat < 10000 := by omega
    have hlen : (padded 4 year.toNat).length = 4 :=
      length_padded ((Nat.length_toDigits_le_iff (by decide) (by decide)).mpr hlt)
    have hread := readDigits?_append ('-' :: rest) (padded_ne_nil 4 year.toNat) hdigits
      hlen.le (Or.inl hlen)
    have hvalue : ((decimalValue (padded 4 year.toNat) : Nat) : Int) = year := by
      rw [decimalValue_padded]
      omega
    obtain ⟨d, ds, hd⟩ := List.exists_cons_of_ne_nil (padded_ne_nil 4 year.toNat)
    have hfirst : d.isDigit = true := hdigits d (hd ▸ List.mem_cons_self)
    rw [hd, List.cons_append] at hread ⊢
    rw [readYear?_of_isDigit _ hfirst, hread, Option.map_some, ← hd, hvalue]
  next hrange =>
    have hread : readDigits? (padded 4 year.natAbs ++ '-' :: rest).length
        (padded 4 year.natAbs ++ '-' :: rest) = some (padded 4 year.natAbs, '-' :: rest) := by
      refine readDigits?_append _ (padded_ne_nil 4 _) hdigits ?_ (Or.inr fun c hc => ?_)
      · rw [List.length_append]
        exact Nat.le_add_right _ _
      · cases hc
        decide
    have hvalue := decimalValue_padded 4 year.natAbs
    split
    next hneg =>
      rw [List.cons_append, readYear?, skipBlanks_cons _ (by decide)]
      simp only [hread, Option.bind_eq_bind, Option.bind_some, hvalue, Option.pure_def]
      rw [show -(year.natAbs : Int) = year by omega]
    next hpos =>
      rw [List.cons_append, readYear?, skipBlanks_cons _ (by decide)]
      simp only [hread, Option.bind_eq_bind, Option.bind_some, hvalue, Option.pure_def]
      rw [show (year.natAbs : Int) = year by omega]

theorem readFraction?_milli {milli : Nat} (h : milli < 1000) :
    readFraction? ('.' :: padded 3 milli) = some (milli * 1000000, []) := by
  have hlen : (padded 3 milli).length = 3 :=
    length_padded ((Nat.length_toDigits_le_iff (by decide) (by decide)).mpr h)
  have hread := readDigits?_append [] (padded_ne_nil 3 milli)
    (fun c => isDigit_of_mem_padded) hlen.le (Or.inl hlen)
  rw [List.append_nil] at hread
  have hnano : (padded 3 milli ++ List.replicate 9 '0').take 9 =
      padded 3 milli ++ List.replicate 6 '0' := by
    rw [List.take_append, List.take_of_length_le (by omega), hlen, List.take_replicate]
    rfl
  have hvalue : decimalValue (padded 3 milli ++ List.replicate 6 '0') = milli * 1000000 := by
    unfold decimalValue
    rw [Nat.ofDigitChars_append, Nat.ofDigitChars_replicate_zero]
    show 10 ^ 6 * decimalValue (padded 3 milli) = milli * 1000000
    rw [decimalValue_padded, Nat.mul_comm]
  rw [readFraction?]
  simp only [hlen, hread, Option.bind_eq_bind, Option.bind_some, hnano, hvalue, Option.pure_def]

theorem readChar?_self (c : Char) (cs : List Char) : readChar? c (c :: cs) = some cs := if_pos rfl

theorem bind_of_eq_some {α β : Type} {o : Option α} {a : α} {k : α → Option β} (h : o = some a) :
    (o >>= k) = k a := by
  rw [h]
  rfl

/-- A date and a time read as they are written down to the millisecond. -/
theorem readInstant?_written (year : Int) {month day hour minute second milli : Nat}
    (hmonth : month < 100) (hday : day < 100) (hhour : hour < 100) (hminute : minute < 100)
    (hsecond : second < 100) (hmilli : milli < 1000) :
    readInstant? (readChar? 'T') (yearWritten year ++ '-' :: padded 2 month ++
        '-' :: padded 2 day ++
        'T' :: (padded 2 hour ++ ':' :: padded 2 minute ++ ':' :: padded 2 second) ++
        '.' :: padded 3 milli) =
      if second = 60 then
        Instant.ofParts? year month day hour minute 59 (1000000000 + milli * 1000000)
      else Instant.ofParts? year month day hour minute second (milli * 1000000) := by
  simp only [List.append_assoc, List.cons_append]
  unfold readInstant?
  -- Each part takes its own characters off and leaves the rest to the next one.
  refine (bind_of_eq_some (readYear?_yearWritten year _)).trans ?_
  refine (bind_of_eq_some (readChar?_self '-' _)).trans ?_
  refine (bind_of_eq_some (readPart?_padded hmonth _)).trans ?_
  refine (bind_of_eq_some (readChar?_self '-' _)).trans ?_
  refine (bind_of_eq_some (readPart?_padded hday _)).trans ?_
  refine (bind_of_eq_some (readChar?_self 'T' _)).trans ?_
  refine (bind_of_eq_some (readPart?_padded hhour _)).trans ?_
  refine (bind_of_eq_some (readChar?_self ':' _)).trans ?_
  refine (bind_of_eq_some (readPart?_padded hminute _)).trans ?_
  refine (bind_of_eq_some (readChar?_self ':' _)).trans ?_
  refine (bind_of_eq_some (readPart?_padded hsecond _)).trans ?_
  refine (bind_of_eq_some (readFraction?_milli hmilli)).trans ?_
  rfl

theorem TimeOfDay.ofParts?_self {t : TimeOfDay} (h : 1000000000 ≤ t.nano → t.second = 59) :
    ofParts? t.hour t.minute t.second t.nano = some t := by
  have hnano := t.nano_lt
  refine dif_pos ⟨t.hour_lt, t.minute_lt, t.second_lt, ?_⟩
  omega

namespace Instant

/-- The written second and fraction give the reading back. -/
theorem ofParts?_shown {i : Instant} (hw : i.IsWhole) (hleap : i.IsLeap → i.time.second = 59) :
    (if i.time.shownSecond = 60 then
      ofParts? i.date.year i.date.month i.date.day i.time.hour i.time.minute 59
        (1000000000 + i.time.shownNano / 1000000 * 1000000)
    else
      ofParts? i.date.year i.date.month i.date.day i.time.hour i.time.minute i.time.shownSecond
        (i.time.shownNano / 1000000 * 1000000)) = some i := by
  have hsecond := i.time.second_lt
  have hnano := i.time.nano_lt
  have hself : ofParts? i.date.year i.date.month i.date.day i.time.hour i.time.minute
      i.time.second i.time.nano = some i := by
    rw [ofParts?, i.date.ofParts?_self, TimeOfDay.ofParts?_self hleap]
    rfl
  unfold IsWhole at hw
  unfold IsLeap at hleap
  unfold TimeOfDay.shownSecond TimeOfDay.shownNano
  by_cases hl : i.time.nano < 1000000000
  · have hmilli : i.time.nano % 1000000000 / 1000000 * 1000000 = i.time.nano := by omega
    rw [if_pos hl, if_neg (by omega), hmilli, hself]
  · have h59 : i.time.second = 59 := hleap (by omega)
    have hmilli : 1000000000 + i.time.nano % 1000000000 / 1000000 * 1000000 = i.time.nano := by
      omega
    rw [if_neg hl, h59, if_pos rfl, hmilli, ← h59, hself]

/-- A whole number of milliseconds reads as it is printed. Of leap seconds that holds only where
the clock has one. -/
theorem ofText?_text {i : Instant} (hw : i.IsWhole) (hleap : i.IsLeap → i.time.second = 59) :
    ofText? i.text = some i := by
  have hhour := i.time.hour_lt
  have hminute := i.time.minute_lt
  have hsecond := i.time.second_lt
  have hmonth := i.date.month_mem.2
  have hday := i.date.day_le_31
  have hshown : i.time.shownSecond < 100 := by
    unfold TimeOfDay.shownSecond
    split <;> omega
  have hmilli : i.time.shownNano / 1000000 < 1000 := by
    unfold TimeOfDay.shownNano
    omega
  have hread : readInstant? (readChar? 'T') i.text.toList = some i := by
    rw [text, String.toList_ofList, written, Date.written, TimeOfDay.clockWritten,
      readInstant?_written i.date.year (by omega) (by omega) (by omega) (by omega) hshown hmilli]
    exact ofParts?_shown hw hleap
  rw [ofText?, hread]
  rfl

end Instant

end Timetable
