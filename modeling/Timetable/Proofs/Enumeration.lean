import Timetable.Proofs.StrictInstant

namespace Timetable

namespace Direction

variable {dir : Direction} {inclusive : Bool} {t q r : Instant}

/-- Whether a search from `t` may answer with `q`: with what lies farther on, and with `t` itself
if that is included. -/
def Covers (dir : Direction) (inclusive : Bool) (t q : Instant) : Prop :=
  if inclusive then dir.Reaches t q else dir.Beyond t q

theorem Covers.reaches (h : dir.Covers inclusive t q) : dir.Reaches t q := by
  cases inclusive with
  | true => exact h
  | false => exact Beyond.reaches h

theorem Covers.beyond (h : dir.Covers inclusive t q) (hb : dir.Beyond q r) :
    dir.Covers inclusive t r := by
  have hb' : dir.Beyond t r := h.reaches.beyond hb
  cases inclusive with
  | true => exact hb'.reaches
  | false => exact hb'

theorem Beyond.ne (h : dir.Beyond q r) : q ≠ r := by
  rintro rfl
  exact not_beyond.mpr (Reaches.refl q) h

end Direction

namespace Schedule

/-- Whether a list holds all the matches that a search from `t` may answer with, in the order in
which it meets them. -/
structure Enumerates (s : Schedule) (dir : Direction) (inclusive : Bool) (t : Instant)
    (ms : List Instant) : Prop where
  ordered : ms.Pairwise dir.Beyond
  mem_iff : ∀ q, q ∈ ms ↔ s.allowance.Match q ∧ dir.Covers inclusive t q

variable {s : Schedule} {dir : Direction} {inclusive : Bool} {t m start : Instant}
  {answer : Except Diagnostic Instant} {ms : List Instant}

namespace Enumerates

/-- Behind its first match, the list holds the matches beyond that. -/
theorem tail (h : s.Enumerates dir inclusive t (m :: ms)) : s.Enumerates dir false m ms := by
  obtain ⟨hfirst, hrest⟩ := List.pairwise_cons.mp h.ordered
  have hm := (h.mem_iff m).mp List.mem_cons_self
  refine ⟨hrest, fun q => ⟨fun hq => ?_, fun ⟨hq, hb⟩ => ?_⟩⟩
  · exact ⟨((h.mem_iff q).mp (List.mem_cons_of_mem m hq)).1, hfirst q hq⟩
  · have hmem := (h.mem_iff q).mpr ⟨hq, hm.2.beyond hb⟩
    exact (List.mem_cons.mp hmem).resolve_left fun he => Direction.Beyond.ne hb he.symm

/-- The first match and the list of those beyond it make a list of all. -/
theorem cons (hm : s.allowance.Match m) (hc : dir.Covers inclusive t m)
    (hfirst : ∀ q, s.allowance.Match q → dir.Covers inclusive t q → dir.Reaches m q)
    (h : s.Enumerates dir false m ms) : s.Enumerates dir inclusive t (m :: ms) := by
  refine ⟨List.pairwise_cons.mpr ⟨fun q hq => ((h.mem_iff q).mp hq).2, h.ordered⟩, fun q => ?_⟩
  constructor
  · intro hq
    rcases List.mem_cons.mp hq with rfl | hq
    · exact ⟨hm, hc⟩
    · have hmatch := (h.mem_iff q).mp hq
      exact ⟨hmatch.1, hc.beyond hmatch.2⟩
  · rintro ⟨hq, hcq⟩
    by_cases he : m = q
    · exact he ▸ List.mem_cons_self
    · exact List.mem_cons_of_mem m ((h.mem_iff q).mpr ⟨hq, (hfirst q hq hcq).beyond_of_ne he⟩)

theorem nil (hnone : ∀ q, s.allowance.Match q → ¬dir.Covers inclusive t q) :
    s.Enumerates dir inclusive t [] := by
  refine ⟨List.Pairwise.nil, fun q => ⟨fun hq => ?_, fun ⟨hq, hc⟩ => absurd hc (hnone q hq)⟩⟩
  cases hq

/-- An exact answer is the head of the list. -/
theorem head?_eq (h : s.Enumerates dir inclusive t ms)
    (ha : s.Answers dir start (dir.Covers inclusive t) answer) : ms.head? = answer.toOption := by
  cases ms with
  | nil =>
    cases answer with
    | error e => rfl
    | ok r =>
      have hr := ((ha.1 r).mp rfl).1
      cases (h.mem_iff r).mpr hr
  | cons m ms =>
    have hm := (h.mem_iff m).mp List.mem_cons_self
    have hok : answer = .ok m := by
      refine (ha.1 m).mpr ⟨hm, fun q hq hc => ?_⟩
      rcases List.mem_cons.mp ((h.mem_iff q).mpr ⟨hq, hc⟩) with rfl | hmem
      · exact Direction.Reaches.refl q
      · exact ((h.tail.mem_iff q).mp hmem).2.reaches
    rw [hok]
    rfl

end Enumerates

/-- A strict query from a whole millisecond is exact. -/
theorem following_answers (s : Schedule) (dir : Direction) (hw : t.IsWhole) :
    s.Answers dir ((t.shift? dir).getD t) (dir.Covers false t) (s.following dir t) :=
  follows_iff.mpr (Or.inl hw)

/-- An exact first answer, with the matches beyond it, enumerates all. -/
theorem Answers.exists_enumerates (ha : s.Answers dir start (dir.Covers inclusive t) answer)
    (h : ∀ r, s.allowance.Match r → dir.Covers inclusive t r →
      ∃ ms, s.Enumerates dir false r ms) :
    ∃ ms, s.Enumerates dir inclusive t ms := by
  cases answer with
  | error e => exact ⟨[], Enumerates.nil ((ha.2 e).mp rfl).2⟩
  | ok r =>
    obtain ⟨⟨hm, hc⟩, hfirst⟩ := (ha.1 r).mp rfl
    obtain ⟨ms, hms⟩ := h r hm hc
    exact ⟨r :: ms, Enumerates.cons hm hc hfirst hms⟩

/-- The matches beyond a whole millisecond are finitely many: each leaves less of the calendar. -/
theorem exists_enumerates_beyond (s : Schedule) (dir : Direction) (t : Instant)
    (hw : t.IsWhole) : ∃ ms, s.Enumerates dir false t ms :=
  (s.following_answers dir hw).exists_enumerates fun r hm hb =>
    have : dir.room r < dir.room t := Direction.Beyond.room_lt hb
    exists_enumerates_beyond s dir r hm.1
termination_by dir.room t

theorem advance_eq_head? (h : s.Enumerates dir false t ms) (hw : t.IsWhole) :
    s.advance dir (some t) = ms.head? :=
  (h.head?_eq (s.following_answers dir hw)).symm

/-- One step of an enumeration leads from a match to the next one. -/
theorem Enumerates.advance_head? (h : s.Enumerates dir inclusive t ms) :
    s.advance dir ms.head? = ms.tail.head? := by
  cases ms with
  | nil => rfl
  | cons m ms =>
    have hm := (h.mem_iff m).mp List.mem_cons_self
    exact advance_eq_head? h.tail hm.1.1

theorem Enumerates.toList_appendRun (h : s.Enumerates dir inclusive t ms)
    (found : Array Instant) (n : Nat) :
    (s.appendRun dir ms.head? found n).toList = found.toList ++ ms.take n := by
  induction n generalizing inclusive t ms found with
  | zero => simp [appendRun]
  | succ n ih =>
    have hnext := h.advance_head?
    cases ms with
    | nil => simp [appendRun]
    | cons m ms =>
      rw [List.head?_cons] at hnext ⊢
      rw [appendRun, hnext, List.tail_cons, ih h.tail]
      simp

theorem Enumerates.toList_appendUpcoming {last : Option Instant}
    (h : s.Enumerates .forward inclusive t ms) (hlast : s.advance .forward last = ms.head?)
    (found : Array (Option Instant)) (n : Nat) :
    (s.appendUpcoming last found n).toList =
      found.toList ++ (List.range n).map (ms[·]?) := by
  induction n generalizing inclusive t ms last found with
  | zero => simp [appendUpcoming]
  | succ n ih =>
    have hnext := h.advance_head?
    rw [appendUpcoming, hlast, List.range_succ_eq_map, List.map_cons, List.map_map]
    cases ms with
    | nil =>
      rw [ih h hnext]
      simp [Function.comp_def]
    | cons m ms =>
      rw [ih h.tail hnext]
      simp [Function.comp_def]

theorem run_eq (s : Schedule) (t : Instant) (dir : Direction) (count : Nat) (inclusive : Bool) :
    s.run t dir count inclusive =
      (if inclusive then s.nearest dir t else s.following dir t).map fun first =>
        s.appendRun dir (some first) #[] count := by
  unfold run
  cases inclusive with
  | true => cases s.nearest dir t <;> rfl
  | false => cases s.following dir t <;> rfl

/-- The first query of a run is exact if it includes its start or starts from a whole
millisecond. -/
theorem first_answers (s : Schedule) (dir : Direction) (h : inclusive = true ∨ t.IsWhole) :
    ∃ start, s.Answers dir start (dir.Covers inclusive t)
      (if inclusive then s.nearest dir t else s.following dir t) := by
  cases inclusive with
  | true => exact ⟨t, s.nearest_answers dir t⟩
  | false =>
    have hw := h.resolve_left Bool.false_ne_true
    exact ⟨(t.shift? dir).getD t, s.following_answers dir hw⟩

/-- A run fails for the lack of a match, or else lists the first ones. -/
theorem Enumerates.run_cases (hms : s.Enumerates dir inclusive t ms)
    (h : inclusive = true ∨ t.IsWhole) (count : Nat) :
    (ms = [] ∧ ∃ e, s.run t dir count inclusive = .error e) ∨
      ms ≠ [] ∧ ∃ found, s.run t dir count inclusive = .ok found ∧
        found.toList = ms.take count := by
  obtain ⟨start, ha⟩ := s.first_answers dir h
  have hhead := hms.head?_eq ha
  have hrun := hms.toList_appendRun #[] count
  rw [run_eq]
  cases hfirst : (if inclusive then s.nearest dir t else s.following dir t) with
  | error e =>
    rw [hfirst] at hhead
    exact Or.inl ⟨List.head?_eq_none_iff.mp hhead, e, rfl⟩
  | ok m =>
    rw [hfirst] at hhead
    have hne : ms ≠ [] := by
      rintro rfl
      cases hhead
    have hsome : ms.head? = some m := hhead
    rw [hsome] at hrun
    exact Or.inr ⟨hne, _, rfl, hrun⟩

end Schedule

/-- Enumerations are complete and ordered. A run that includes its start, or starts from a whole
millisecond, fails only if there is no match on its way, and else lists the first of them, as many
as asked for. Enumerating forward without end gives every match after the start and then nothing
any more. -/
theorem enumeration_exact (s : Schedule) (t : Instant) :
    (∀ dir inclusive, inclusive = true ∨ t.IsWhole → ∃ ms, s.Enumerates dir inclusive t ms ∧
      ∀ count, ((∃ e, s.run t dir count inclusive = .error e) ↔ ms = []) ∧
        ∀ found, s.run t dir count inclusive = .ok found → found.toList = ms.take count) ∧
    (t.IsWhole → ∃ ms, s.Enumerates .forward false t ms ∧
      ∀ n, (s.upcoming t n).toList = (List.range n).map fun k => ms[k]?) := by
  constructor
  · intro dir inclusive h
    obtain ⟨start, ha⟩ := s.first_answers dir h
    obtain ⟨ms, hms⟩ := ha.exists_enumerates fun r hm _ => s.exists_enumerates_beyond dir r hm.1
    refine ⟨ms, hms, fun count => ?_⟩
    rcases hms.run_cases h count with ⟨hnil, e, he⟩ | ⟨hne, found, hfound, hlist⟩
    · refine ⟨⟨fun _ => hnil, fun _ => ⟨e, he⟩⟩, fun found hfound => ?_⟩
      cases he.symm.trans hfound
    · refine ⟨⟨fun ⟨e, he⟩ => ?_, fun hnil => absurd hnil hne⟩, fun found' hfound' => ?_⟩
      · cases he.symm.trans hfound
      · cases hfound'.symm.trans hfound
        exact hlist
  · intro hw
    obtain ⟨ms, hms⟩ := s.exists_enumerates_beyond .forward t hw
    refine ⟨ms, hms, fun n => ?_⟩
    have hupcoming := hms.toList_appendUpcoming (Schedule.advance_eq_head? hms hw) #[] n
    simpa [Schedule.upcoming] using hupcoming

/-- The leap second at the end of 2016, from its first millisecond. -/
def leapSecond : Instant := (Instant.ofParts? 2016 12 31 23 59 59 1000000000).get (by decide)

theorem enumeration_exact_from_leapSecond :
    leapSecond.IsWhole ∧ leapSecond.IsLeap ∧
      (∀ count e, Schedule.always.run leapSecond .backward count false ≠ .error e) ∧
      ∃ ms, Schedule.always.Enumerates .forward false leapSecond ms ∧
        ∀ n, (Schedule.always.upcoming leapSecond n).toList =
          (List.range n).map fun k => ms[k]? := by
  have hw : leapSecond.IsWhole := by decide
  obtain ⟨hrun, hupcoming⟩ := enumeration_exact Schedule.always leapSecond
  refine ⟨hw, by decide, fun count e he => ?_, hupcoming hw⟩
  obtain ⟨ms, hms, hcount⟩ := hrun .backward false (Or.inr hw)
  have hnil := (hcount count).1.mp ⟨e, he⟩
  -- The last millisecond before the leap second is a match.
  let last : Instant := ⟨leapSecond.date, .dayEnd⟩
  have hmatch : Schedule.always.allowance.Match last := ⟨by decide, by decide +kernel⟩
  have hbefore : last < leapSecond := by decide
  have hmem := (hms.mem_iff last).mpr ⟨hmatch, hbefore⟩
  rw [hnil] at hmem
  cases hmem

end Timetable
