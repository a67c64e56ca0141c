import Timetable.Proofs.ResumedListing
import Timetable.Proofs.Traversal

namespace Timetable

namespace Query

variable {q : Query}

/-- A command line for a query whose pattern comes first, without a double dash before it. -/
def plainLine (q : Query) : List String :=
  q.direction.commandName :: q.pattern :: ("--from" ++ "=" ++ q.start) ::
    ("--count" ++ "=" ++ decimalText q.count) :: if q.inclusive then ["--inclusive"] else []

theorem askedBy_plainLine (h : q.pattern.toList.head? ≠ some '-') (hpos : 1 ≤ q.count)
    (hmax : q.count ≤ countLimit) : q.AskedBy q.plainLine := by
  have hflag : Arguments.scan? ⟨["--from", "--count"], ["--inclusive"]⟩
      (if q.inclusive then ["--inclusive"] else []) =
        some ⟨[], if q.inclusive then [("--inclusive", "")] else []⟩ := by
    cases q.inclusive <;> decide
  refine askedBy_of_scan hpos hmax ?_
  rw [Arguments.scan?_operand _ _ h,
    Arguments.scan?_joined _ _ (by decide) (by decide) (by decide),
    Arguments.scan?_joined _ _ (by decide) (by decide) (by decide), hflag]
  rfl

end Query

namespace Schedule

variable {s : Schedule} {dir : Direction} {inclusive : Bool} {t : Instant} {ms : List Instant}
  {count : Nat} {e : Diagnostic}

theorem nearest_error (h : s.nearest dir t = .error e) : e = s.unsatisfiable dir t :=
  ((s.nearest_eq_error_iff dir t e).mp h).1

theorem following_error (h : s.following dir t = .error e) :
    e = s.unsatisfiable dir ((t.shift? dir).getD t) := by
  unfold following at h
  cases hu : t.shift? dir with
  | none =>
    rw [hu] at h
    cases h
    rfl
  | some u =>
    rw [hu] at h
    exact nearest_error h

/-- Where the first query of a run begins. -/
def firstTried (dir : Direction) (inclusive : Bool) (t : Instant) : Instant :=
  if inclusive then t else (t.shift? dir).getD t

theorem run_error (h : s.run t dir count inclusive = .error e) :
    e = s.unsatisfiable dir (firstTried dir inclusive t) := by
  rw [run_eq] at h
  cases hfirst : (if inclusive then s.nearest dir t else s.following dir t) with
  | ok m =>
    rw [hfirst] at h
    cases h
  | error e' =>
    rw [hfirst] at h
    cases h
    cases inclusive with
    | true => exact nearest_error hfirst
    | false => exact following_error hfirst

/-- The matches that a search may answer with are finitely many. -/
theorem exists_enumerates (s : Schedule) (dir : Direction) (h : inclusive = true ∨ t.IsWhole) :
    ∃ ms, s.Enumerates dir inclusive t ms := by
  obtain ⟨start, ha⟩ := s.first_answers dir h
  exact ha.exists_enumerates fun r hm _ => s.exists_enumerates_beyond dir r hm.1

theorem Enumerates.eq_nil_iff (h : s.Enumerates dir inclusive t ms) :
    ms = [] ↔ ∀ m, s.allowance.Match m → ¬dir.Covers inclusive t m := by
  rw [List.eq_nil_iff_forall_not_mem]
  exact forall_congr' fun m => (not_congr (h.mem_iff m)).trans not_and

end Schedule

/-- The warning that fewer matches were left than asked for. -/
def shortfallWarning (printed requested : Nat) : String :=
  "WARN cadence::cli: no further matches within the year domain printed=" ++
    decimalText printed ++ " requested=" ++ decimalText requested

namespace Outcome

/-- Whether an outcome is that of listing the first `n` of these matches. It prints a line for
each, which reads as the match again, and warns if there are not as many. -/
structure Lists (o : Outcome) (ms : List Instant) (n : Nat) : Prop where
  exitCode : o.exitCode = 0
  output : o.output = String.join ((ms.take n).map fun m => m.text ++ "\n")
  lines : outputLines o.output = (ms.take n).map Instant.text
  readable : ∀ m ∈ ms, Instant.ofText? m.text = some m
  warnings_short : ms.length < n → o.warnings = [shortfallWarning ms.length n]
  warnings_full : n ≤ ms.length → o.warnings = []

theorem lists_of_toList_eq {s : Schedule} {dir : Direction} {inclusive : Bool} {t : Instant}
    {ms : List Instant} {found : Array Instant} {n : Nat} (h : s.Enumerates dir inclusive t ms)
    (hfound : found.toList = ms.take n) :
    (success (instantLines found) (shortfall found.size n)).Lists ms n := by
  have hsize : found.size = min n ms.length := by
    rw [← Array.length_toList, hfound, List.length_take]
  refine ⟨rfl, ?_, ?_, fun m hm => ?_, fun hlt => ?_, fun hle => ?_⟩
  · apply String.toList_inj.mp
    rw [output, toList_instantLines, hfound, String.toList_join, List.flatMap_map]
    simp [Instant.text]
  · rw [output, outputLines_instantLines, hfound]
  · have hmatch := ((h.mem_iff m).mp hm).1
    exact Instant.ofText?_text hmatch.isPlain.1 fun hleap => absurd hleap hmatch.isPlain.2
  · rw [hsize, Nat.min_eq_right hlt.le]
    exact if_pos hlt
  · rw [hsize, Nat.min_eq_left hle]
    exact if_neg (Nat.lt_irrefl n)

theorem exitCode_failure (e : Diagnostic) :
    (failure e).exitCode = 1 ∧ (failure e).output = "" := ⟨rfl, rfl⟩

end Outcome

/-- A list fails for the lack of a match, or else shows the first ones. -/
theorem Command.run_list_cases {s : Schedule} {dir : Direction} {pattern : String} {t : Instant}
    {inclusive : Bool} {ms : List Instant} (count : Nat) (hs : Schedule.ofText pattern = .ok s)
    (h : inclusive = true ∨ t.IsWhole) (hms : s.Enumerates dir inclusive t ms) :
    (ms = [] ∧ (list dir pattern (some t) count inclusive).run =
        .failure (s.unsatisfiable dir (Schedule.firstTried dir inclusive t))) ∨
      ms ≠ [] ∧ (list dir pattern (some t) count inclusive).run.Lists ms count := by
  rcases hms.run_cases h count with ⟨hnil, e, he⟩ | ⟨hne, found, hfound, hlist⟩
  · rw [run_list_of_error hs he, Schedule.run_error he]
    exact Or.inl ⟨hnil, rfl⟩
  · rw [run_list_of_ok hs hfound]
    exact Or.inr ⟨hne, Outcome.lists_of_toList_eq hms hlist⟩

theorem Command.run_list_of_fault {dir : Direction} {pattern : String} {t : Instant} {count : Nat}
    {inclusive : Bool} {e : Diagnostic} (hs : Schedule.ofText pattern = .error e) :
    (list dir pattern (some t) count inclusive).run = .failure e := by
  rw [run, hs]
  rfl

/-- What a list tells is true. From a whole millisecond, or from any instant that is included, it
fails without output only if the text is no pattern, with the fault of that, or if the schedule
has no match on its way, with that fault. Else it shows the first of all the matches on its way,
and warns only if they are fewer than asked for. -/
theorem listing_outcome_exact {q : Query} {line : List String} {t : Instant}
    (hq : q.AskedBy line) (ht : Instant.ofText? q.start = some t)
    (h : q.inclusive = true ∨ t.IsWhole) :
    ((Command.outcome line).exitCode = 1 ∧ (Command.outcome line).output = "" ↔
      (∃ e, Schedule.ofText q.pattern = .error e) ∨
        ∃ s, Schedule.ofText q.pattern = .ok s ∧
          ∀ m, s.allowance.Match m → ¬q.direction.Covers q.inclusive t m) ∧
    (∀ e, Schedule.ofText q.pattern = .error e → Command.outcome line = .failure e) ∧
    ∀ s, Schedule.ofText q.pattern = .ok s →
      ∃ ms, s.Enumerates q.direction q.inclusive t ms ∧
        (ms = [] → ∃ e, Command.outcome line = .failure e ∧
          e.code = "cadence::search::unsatisfiable" ∧
          e = s.unsatisfiable q.direction (Schedule.firstTried q.direction q.inclusive t)) ∧
        (ms ≠ [] → (Command.outcome line).Lists ms q.count) := by
  rw [hq.outcome_eq ht]
  cases hs : Schedule.ofText q.pattern with
  | error e =>
    rw [Command.run_list_of_fault hs]
    refine ⟨iff_of_true (Outcome.exitCode_failure e) (Or.inl ⟨e, rfl⟩), fun e' he => ?_,
      fun s hok => ?_⟩
    · cases he
      rfl
    · cases hok
  | ok s =>
    obtain ⟨ms, hms⟩ := s.exists_enumerates q.direction h
    rcases Command.run_list_cases q.count hs h hms with ⟨hnil, hrun⟩ | ⟨hne, hlists⟩
    · rw [hrun]
      refine ⟨iff_of_true (Outcome.exitCode_failure _) (Or.inr ⟨s, rfl, hms.eq_nil_iff.mp hnil⟩),
        fun e he => ?_, fun s' hok => ?_⟩
      · cases he
      · cases hok
        exact ⟨ms, hms, fun _ => ⟨_, rfl, rfl, rfl⟩, fun hne => absurd hnil hne⟩
    · refine ⟨iff_of_false (fun hfail => ?_) ?_, fun e he => ?_, fun s' hok => ?_⟩
      · rw [hlists.exitCode] at hfail
        exact absurd hfail.1 (by decide)
      · rintro (⟨e, he⟩ | ⟨s', hok, hnone⟩)
        · cases he
        · cases hok
          exact hne (hms.eq_nil_iff.mpr hnone)
      · cases he
      · cases hok
        exact ⟨ms, hms, fun hnil => absurd hnil hne, fun _ => hlists⟩

/-- Asks for two instants where there is one. -/
def lastEvening : Query :=
  ⟨.forward, "2100.12.31 23:00:00", "2100-01-01T00:00:00", 2, false⟩

theorem listing_outcome_exact_lastEvening :
    Command.outcome lastEvening.plainLine =
        .success "2100-12-31T23:00:00.000\n"
          ["WARN cadence::cli: no further matches within the year domain printed=1 requested=2"] ∧
      ∃ s t m, Schedule.ofText lastEvening.pattern = .ok s ∧
        Instant.ofText? lastEvening.start = some t ∧ s.Enumerates .forward false t [m] ∧
        (Command.outcome lastEvening.plainLine).Lists [m] 2 := by
  have houtcome : Command.outcome lastEvening.plainLine =
      .success "2100-12-31T23:00:00.000\n"
        ["WARN cadence::cli: no further matches within the year domain printed=1 requested=2"] := by
    decide +kernel
  obtain ⟨s, hs⟩ := exists_ok_of_isOk (x := Schedule.ofText lastEvening.pattern) (by decide +kernel)
  have hasked := Query.askedBy_plainLine (q := lastEvening) (by decide) (by decide) (by decide)
  let newYear : Instant := .dayStart ⟨2100, 1, 1, by decide, by decide, by decide⟩
  have hstart : Instant.ofText? lastEvening.start = some newYear := by decide +kernel
  obtain ⟨ms, hms, hnil, hlists⟩ :=
    (listing_outcome_exact hasked hstart (Or.inr (by decide))).2.2 s hs
  have hne : ms ≠ [] := fun he => by
    obtain ⟨e, he, -⟩ := hnil he
    rw [houtcome] at he
    cases he
  have hlines := congrArg List.length (hlists hne).lines
  rw [houtcome, List.length_map, List.length_take,
    show (outputLines _).length = 1 by decide +kernel] at hlines
  obtain ⟨m, rfl⟩ : ∃ m, ms = [m] := by
    rw [show lastEvening.count = 2 from rfl] at hlines
    exact List.length_eq_one_iff.mp (by omega)
  exact ⟨houtcome, s, newYear, m, hs, hstart, hms, hlists hne⟩

end Timetable
