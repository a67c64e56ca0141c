import Timetable.Proofs.Enumeration
import Timetable.Proofs.ListingCommand

namespace Timetable

namespace Schedule

variable {s : Schedule} {dir : Direction} {inclusive : Bool} {t m : Instant} {ms : List Instant}

theorem Enumerates.after {before after : List Instant}
    (h : s.Enumerates dir inclusive t (before ++ m :: after)) :
    s.Enumerates dir false m after := by
  induction before generalizing inclusive t with
  | nil => exact h.tail
  | cons first before ih => exact ih h.tail

/-- What an enumeration holds behind its first `n` matches are the matches beyond the last of
those. -/
theorem Enumerates.drop {n : Nat} (h : s.Enumerates dir inclusive t ms)
    (hm : (ms.take n).getLast? = some m) : s.Enumerates dir false m (ms.drop n) := by
  obtain ⟨before, hbefore⟩ := List.getLast?_eq_some_iff.mp hm
  have hms : before ++ m :: ms.drop n = ms := by
    rw [← List.singleton_append, ← List.append_assoc, ← hbefore, List.take_append_drop]
  rw [← hms] at h
  exact h.after

/-- Wherever a run begins, it begins with a match. -/
theorem match_of_first
    (h : (if inclusive then s.nearest dir t else s.following dir t) = .ok m) :
    s.allowance.Match m := by
  cases inclusive with
  | true => exact (((s.nearest_answers dir t).1 m).mp h).1.1
  | false => exact (((s.follows_rounded dir t).1 m).mp h).1.1

/-- A run lists what can be enumerated from its first match on, if there is one. -/
theorem run_from_first (s : Schedule) (dir : Direction) (inclusive : Bool) (t : Instant) :
    (∃ e, ∀ count, s.run t dir count inclusive = .error e) ∨
      ∃ m ms, s.Enumerates dir true m ms ∧
        ∀ count, ∃ found, s.run t dir count inclusive = .ok found ∧
          found.toList = ms.take count := by
  cases hfirst : (if inclusive then s.nearest dir t else s.following dir t) with
  | error e =>
    refine Or.inl ⟨e, fun count => ?_⟩
    rw [run_eq, hfirst]
    rfl
  | ok m =>
    have hm := match_of_first hfirst
    obtain ⟨ms, hms⟩ := s.exists_enumerates_beyond dir m hm.isPlain.1
    have hall : s.Enumerates dir true m (m :: ms) :=
      Enumerates.cons hm (Direction.Reaches.refl m) (fun q _ hq => hq) hms
    refine Or.inr ⟨m, m :: ms, hall, fun count => ⟨_, ?_, hall.toList_appendRun #[] count⟩⟩
    rw [run_eq, hfirst]
    rfl

/-- A run from the last instant of another one lists what that would have gone on to list, and
fails if that is nothing. -/
theorem run_resumes {shown : Array Instant} {last : Instant} {n more : Nat} (hmore : 1 ≤ more)
    (hshown : s.run t dir n inclusive = .ok shown) (hlast : shown.toList.getLast? = some last) :
    s.allowance.Match last ∧ ∃ all rest, s.run t dir (n + more) inclusive = .ok all ∧
      all.toList = shown.toList ++ rest ∧ all.toList.drop n = rest ∧
      (rest = [] ∧ (∃ e, s.run last dir more false = .error e) ∨
        rest ≠ [] ∧ ∃ found, s.run last dir more false = .ok found ∧ found.toList = rest) := by
  obtain ⟨e, herror⟩ | ⟨m, ms, hms, hrun⟩ := s.run_from_first dir inclusive t
  · cases (herror n).symm.trans hshown
  · obtain ⟨shown', hshown', htake⟩ := hrun n
    cases hshown.symm.trans hshown'
    obtain ⟨all, hall, htakeAll⟩ := hrun (n + more)
    rw [htake] at hlast ⊢
    have hmatch : s.allowance.Match last :=
      ((hms.mem_iff last).mp (List.mem_of_mem_take (List.mem_of_getLast? hlast))).1
    -- A match is a whole millisecond, so the strict query from it passes over nothing.
    have hrest := hms.drop hlast
    refine ⟨hmatch, all, (ms.drop n).take more, hall, ?_, ?_, ?_⟩
    · rw [htakeAll, List.take_add]
    · rw [htakeAll, List.drop_take, Nat.add_sub_cancel_left]
    · rcases hrest.run_cases (Or.inr hmatch.isPlain.1) more with ⟨hnil, herror⟩ | ⟨hne, hfound⟩
      · exact Or.inl ⟨by rw [hnil, List.take_nil], herror⟩
      · refine Or.inr ⟨fun hnil => ?_, hfound⟩
        rcases List.take_eq_nil_iff.mp hnil with hzero | hnil
        · omega
        · exact hne hnil

end Schedule

namespace Command

variable {s : Schedule} {dir : Direction} {pattern : String} {t : Instant} {count : Nat}
  {inclusive : Bool}

theorem run_list_of_error {e : Diagnostic} (hs : Schedule.ofText pattern = .ok s)
    (h : s.run t dir count inclusive = .error e) :
    (list dir pattern (some t) count inclusive).run = .failure e := by
  rw [run, hs]
  show Outcome.ofExcept (s.run t dir count inclusive >>= _) = _
  rw [h]
  rfl

theorem run_list_of_ok {found : Array Instant} (hs : Schedule.ofText pattern = .ok s)
    (h : s.run t dir count inclusive = .ok found) :
    (list dir pattern (some t) count inclusive).run =
      .success (instantLines found) (shortfall found.size count) := by
  rw [run, hs]
  show Outcome.ofExcept (s.run t dir count inclusive >>= _) = _
  rw [h]
  rfl

/-- A list that succeeds is the output of a run. -/
theorem exists_run_of_exitCode
    (h : (list dir pattern (some t) count inclusive).run.exitCode = 0) :
    ∃ s found, Schedule.ofText pattern = .ok s ∧ s.run t dir count inclusive = .ok found := by
  cases hs : Schedule.ofText pattern with
  | error e =>
    rw [run, hs] at h
    cases h
  | ok s =>
    cases hrun : s.run t dir count inclusive with
    | error e =>
      rw [run_list_of_error hs hrun] at h
      cases h
    | ok found => exact ⟨s, found, rfl, hrun⟩

end Command

namespace Query

variable {q : Query} {line : List String} {t : Instant}

theorem AskedBy.outcome_eq (h : q.AskedBy line) (ht : Instant.ofText? q.start = some t) :
    Command.outcome line =
      (Command.list q.direction q.pattern (some t) q.count q.inclusive).run := by
  rw [Command.outcome, h.ofArgs?, ht]
  rfl

/-- A start that is no instant is a misuse. -/
theorem AskedBy.exists_start (h : q.AskedBy line)
    (hexit : (Command.outcome line).exitCode = 0) : ∃ t, Instant.ofText? q.start = some t := by
  cases ht : Instant.ofText? q.start with
  | some t => exact ⟨t, rfl⟩
  | none =>
    rw [Command.outcome, h.ofArgs?, ht] at hexit
    cases hexit

end Query

theorem instantLines_append {all first rest : Array Instant}
    (h : all.toList = first.toList ++ rest.toList) :
    instantLines all = instantLines first ++ instantLines rest := by
  apply String.toList_inj.mp
  rw [String.toList_append, toList_instantLines, toList_instantLines, toList_instantLines, h,
    List.flatMap_append]

/-- A list can be resumed from its own output. After a list that succeeds, whether or not it
printed as many lines as it was asked for, another one from the last line on prints what the
first one would have gone on to print, and fails if that is nothing. -/
theorem listing_resumes {dir : Direction} {pattern start last : String} {n m : Nat}
    {inclusive : Bool} {first resumed whole : List String}
    (hfirst : Query.AskedBy ⟨dir, pattern, start, n, inclusive⟩ first)
    (hresumed : Query.AskedBy ⟨dir, pattern, last, m, false⟩ resumed)
    (hwhole : Query.AskedBy ⟨dir, pattern, start, n + m, inclusive⟩ whole)
    (hexit : (Command.outcome first).exitCode = 0)
    (hlast : (outputLines (Command.outcome first).output).getLast? = some last) :
    (Command.outcome whole).exitCode = 0 ∧
      (Command.outcome whole).output =
        (Command.outcome first).output ++ (Command.outcome resumed).output ∧
      outputLines (Command.outcome resumed).output =
        (outputLines (Command.outcome whole).output).drop n ∧
      ((outputLines (Command.outcome whole).output).drop n ≠ [] →
        (Command.outcome resumed).exitCode = 0) ∧
      ((outputLines (Command.outcome whole).output).drop n = [] →
        (Command.outcome resumed).exitCode = 1 ∧ (Command.outcome resumed).output = "") := by
  obtain ⟨t, ht⟩ := hfirst.exists_start hexit
  rw [hfirst.outcome_eq ht] at hexit hlast ⊢
  obtain ⟨s, shown, hs, hshown⟩ := Command.exists_run_of_exitCode hexit
  rw [Command.run_list_of_ok hs hshown] at hlast ⊢
  obtain ⟨l, hl, hltext⟩ : ∃ l, shown.toList.getLast? = some l ∧ l.text = last := by
    rw [Outcome.output, outputLines_instantLines, List.getLast?_map] at hlast
    exact Option.map_eq_some_iff.mp hlast
  obtain ⟨hmatch, all, rest, hall, happend, hdrop, hcases⟩ :=
    Schedule.run_resumes hresumed.count_mem.1 hshown hl
  -- The printed line loses nothing of a match, which has no leap second and no finer part.
  have hread : Instant.ofText? last = some l := by
    rw [← hltext]
    exact Instant.ofText?_text hmatch.isPlain.1 fun hleap => absurd hleap hmatch.isPlain.2
  have hlines : (outputLines (instantLines all)).drop n = rest.map Instant.text := by
    rw [outputLines_instantLines, ← List.map_drop, hdrop]
  rw [hwhole.outcome_eq ht, Command.run_list_of_ok hs hall, hresumed.outcome_eq hread]
  rcases hcases with ⟨rfl, e, he⟩ | ⟨hne, found, hfound, rfl⟩
  · rw [Command.run_list_of_error hs he]
    have hsame : instantLines all = instantLines shown ++ instantLines #[] :=
      instantLines_append happend
    exact ⟨rfl, hsame, hlines.symm, fun hne => absurd hlines hne, fun _ => ⟨rfl, rfl⟩⟩
  · rw [Command.run_list_of_ok hs hfound]
    refine ⟨rfl, instantLines_append happend, ?_, fun _ => rfl, fun hnil => ?_⟩
    · exact (outputLines_instantLines found).trans hlines.symm
    · exact absurd (List.map_eq_nil_iff.mp (hlines.symm.trans hnil)) hne

/-- Asks for instants of the schedule of every second. -/
def everySecond (start : String) (count : Nat) : Query := ⟨.forward, "*:*:*", start, count, false⟩

/-- A start between two milliseconds counts for the first list only, which here ends where the
years do. -/
theorem listing_resumes_lastSecond :
    Command.outcome (everySecond "2100-12-31T23:59:57.0005" 2).commandLine =
        .success "2100-12-31T23:59:58.000\n2100-12-31T23:59:59.000\n" [] ∧
      (Command.outcome (everySecond "2100-12-31T23:59:59.000" 1).commandLine).exitCode = 1 ∧
      (Command.outcome (everySecond "2100-12-31T23:59:59.000" 1).commandLine).output = "" := by
  have hasked (start : String) (count : Nat) (hpos : 1 ≤ count) (hmax : count ≤ countLimit) :
      (everySecond start count).AskedBy (everySecond start count).commandLine :=
    Query.askedBy_commandLine _ hpos hmax
  have hfirst : Command.outcome (everySecond "2100-12-31T23:59:57.0005" 2).commandLine =
      .success "2100-12-31T23:59:58.000\n2100-12-31T23:59:59.000\n" [] := by decide +kernel
  have hlast : (outputLines (Command.outcome
      (everySecond "2100-12-31T23:59:57.0005" 2).commandLine).output).getLast? =
        some "2100-12-31T23:59:59.000" := by
    rw [hfirst]
    decide +kernel
  have hresume := listing_resumes (hasked "2100-12-31T23:59:57.0005" 2 (by decide) (by decide))
    (hasked "2100-12-31T23:59:59.000" 1 (by decide) (by decide))
    (hasked "2100-12-31T23:59:57.0005" 3 (by decide) (by decide)) (by rw [hfirst]; rfl) hlast
  exact ⟨hfirst, hresume.2.2.2.2 (by decide +kernel)⟩

end Timetable
