import Timetable.Proofs.SearchSound
import Timetable.Schedule

namespace Timetable

namespace Allowance

variable {a : Allowance} {dir : Direction} {t : Instant}

/-- The match that a search reaches first is the only answer to it. -/
theorem Nearest.eq_some_iff {o : Option Instant} (h : a.Nearest dir t o) (r : Instant) :
    o = some r ↔ a.Nearest dir t (some r) := by
  constructor
  · rintro rfl
    exact h
  · rintro ⟨hm, hr, hc⟩
    cases o with
    | none => exact absurd hr (h r hm)
    | some s =>
      obtain ⟨hm', hr', hc'⟩ := h
      have hsr : dir.Reaches s r := hc' r hm hr
      have hrs : dir.Reaches r s := hc s hm' hr'
      rw [hsr.antisymm hrs]

theorem Nearest.eq_none_iff {o : Option Instant} (h : a.Nearest dir t o) :
    o = none ↔ a.Nearest dir t none := by
  constructor
  · rintro rfl
    exact h
  · intro hn
    cases o with
    | none => rfl
    | some s => exact absurd h.2.1 (hn s h.1)

theorem nearest_forward_iff_isLeast {r : Instant} :
    a.Nearest .forward t (some r) ↔ IsLeast {q | a.Match q ∧ t ≤ q} r := by
  constructor
  · rintro ⟨hm, hr, hc⟩
    exact ⟨⟨hm, hr⟩, fun q hq => hc q hq.1 hq.2⟩
  · rintro ⟨⟨hm, hr⟩, hleast⟩
    exact ⟨hm, hr, fun q hq hle => hleast ⟨hq, hle⟩⟩

theorem nearest_backward_iff_isGreatest {r : Instant} :
    a.Nearest .backward t (some r) ↔ IsGreatest {q | a.Match q ∧ q ≤ t} r := by
  constructor
  · rintro ⟨hm, hr, hc⟩
    exact ⟨⟨hm, hr⟩, fun q hq => hc q hq.1 hq.2⟩
  · rintro ⟨⟨hm, hr⟩, hgreatest⟩
    exact ⟨hm, hr, fun q hq hle => hgreatest ⟨hq, hle⟩⟩

end Allowance

namespace Schedule

theorem nearest_eq_ok_iff (s : Schedule) (dir : Direction) (t r : Instant) :
    s.nearest dir t = .ok r ↔ s.allowance.nearest? dir t = some r := by
  unfold nearest
  cases s.allowance.nearest? dir t with
  | none =>
    constructor
    · intro h
      cases h
    · intro h
      cases h
  | some j =>
    constructor
    · intro h
      cases h
      rfl
    · intro h
      cases h
      rfl

theorem nearest_eq_error_iff (s : Schedule) (dir : Direction) (t : Instant) (e : Diagnostic) :
    s.nearest dir t = .error e ↔
      e = s.unsatisfiable dir t ∧ s.allowance.nearest? dir t = none := by
  unfold nearest
  cases s.allowance.nearest? dir t with
  | none =>
    constructor
    · intro h
      cases h
      exact ⟨rfl, rfl⟩
    · rintro ⟨rfl, -⟩
      rfl
  | some j =>
    constructor
    · intro h
      cases h
    · rintro ⟨-, h⟩
      cases h

/-- Whether a query answers with the first match for which `P` holds, and otherwise fails for the
lack of one. -/
def Answers (s : Schedule) (dir : Direction) (start : Instant) (P : Instant → Prop)
    (answer : Except Diagnostic Instant) : Prop :=
  (∀ r, answer = .ok r ↔ (s.allowance.Match r ∧ P r) ∧
    ∀ q, s.allowance.Match q → P q → dir.Reaches r q) ∧
  ∀ e, answer = .error e ↔
    e = s.unsatisfiable dir start ∧ ∀ q, s.allowance.Match q → ¬P q

theorem nearest_answers (s : Schedule) (dir : Direction) (t : Instant) :
    s.Answers dir t (dir.Reaches t) (s.nearest dir t) := by
  have hnearest := s.allowance.nearest?_nearest dir t
  refine ⟨fun r => ?_, fun e => ?_⟩
  · rw [s.nearest_eq_ok_iff, hnearest.eq_some_iff]
    exact and_assoc.symm
  · rw [s.nearest_eq_error_iff, hnearest.eq_none_iff]
    rfl

/-- What holds of the same matches makes the same answer. -/
theorem Answers.congr {s : Schedule} {dir : Direction} {start : Instant} {P Q : Instant → Prop}
    {answer : Except Diagnostic Instant} (h : s.Answers dir start P answer)
    (hpq : ∀ q, s.allowance.Match q → (P q ↔ Q q)) : s.Answers dir start Q answer := by
  obtain ⟨hok, herror⟩ := h
  refine ⟨fun r => (hok r).trans ?_, fun e => (herror e).trans ?_⟩
  · constructor
    · rintro ⟨⟨hm, hp⟩, hfirst⟩
      exact ⟨⟨hm, (hpq r hm).mp hp⟩, fun q hq hp' => hfirst q hq ((hpq q hq).mpr hp')⟩
    · rintro ⟨⟨hm, hp⟩, hfirst⟩
      exact ⟨⟨hm, (hpq r hm).mpr hp⟩, fun q hq hp' => hfirst q hq ((hpq q hq).mp hp')⟩
  · constructor
    · rintro ⟨he, hnone⟩
      exact ⟨he, fun q hq hp => hnone q hq ((hpq q hq).mpr hp)⟩
    · rintro ⟨he, hnone⟩
      exact ⟨he, fun q hq hp => hnone q hq ((hpq q hq).mp hp)⟩

end Schedule

/-- Searching forward is exact: from any start and for any allowance, that of an empty list of
clauses included, it finds the least match at or after the start, and it finds nothing only if
there is none. -/
theorem forward_search_exact (a : Allowance) (s : Schedule) (t : Instant) :
    ((∀ r, a.nearest? .forward t = some r ↔ IsLeast {q | a.Match q ∧ t ≤ q} r) ∧
      (a.nearest? .forward t = none ↔ ∀ q, a.Match q → ¬t ≤ q) ∧
      ∀ r, a.nearest? .forward t = some r →
        (2000 ≤ r.date.year ∧ r.date.year ≤ 2100) ∧ ¬r.IsLeap ∧
          ∀ q, t ≤ q → q < r → ¬a.Match q) ∧
    (∀ r, s.nearest .forward t = .ok r ↔ IsLeast {q | s.allowance.Match q ∧ t ≤ q} r) ∧
    ∀ e, s.nearest .forward t = .error e ↔
      e = s.unsatisfiable .forward t ∧ ∀ q, s.allowance.Match q → ¬t ≤ q := by
  have hnearest := a.nearest?_nearest .forward t
  have hschedule := s.allowance.nearest?_nearest .forward t
  refine ⟨⟨fun r => ?_, hnearest.eq_none_iff, fun r hr => ?_⟩, fun r => ?_, fun e => ?_⟩
  · rw [hnearest.eq_some_iff, Allowance.nearest_forward_iff_isLeast]
  · rw [hr] at hnearest
    obtain ⟨hm, -, hclear⟩ := hnearest
    refine ⟨hm.year_mem, hm.isPlain.2, fun q hle hlt hq => ?_⟩
    have hback : r ≤ q := hclear q hq hle
    exact absurd hlt (not_lt_of_ge hback)
  · rw [s.nearest_eq_ok_iff, hschedule.eq_some_iff, Allowance.nearest_forward_iff_isLeast]
  · rw [s.nearest_eq_error_iff, hschedule.eq_none_iff]
    rfl

/-- Searching backward is exact: from any start and for any allowance, that of an empty list of
clauses included, it finds the greatest match at or before the start, and it finds nothing only
if there is none. -/
theorem backward_search_exact (a : Allowance) (s : Schedule) (t : Instant) :
    ((∀ r, a.nearest? .backward t = some r ↔ IsGreatest {q | a.Match q ∧ q ≤ t} r) ∧
      (a.nearest? .backward t = none ↔ ∀ q, a.Match q → ¬q ≤ t) ∧
      ∀ r, a.nearest? .backward t = some r →
        (2000 ≤ r.date.year ∧ r.date.year ≤ 2100) ∧ ¬r.IsLeap ∧
          ∀ q, r < q → q ≤ t → ¬a.Match q) ∧
    (∀ r, s.nearest .backward t = .ok r ↔ IsGreatest {q | s.allowance.Match q ∧ q ≤ t} r) ∧
    ∀ e, s.nearest .backward t = .error e ↔
      e = s.unsatisfiable .backward t ∧ ∀ q, s.allowance.Match q → ¬q ≤ t := by
  have hnearest := a.nearest?_nearest .backward t
  have hschedule := s.allowance.nearest?_nearest .backward t
  refine ⟨⟨fun r => ?_, hnearest.eq_none_iff, fun r hr => ?_⟩, fun r => ?_, fun e => ?_⟩
  · rw [hnearest.eq_some_iff, Allowance.nearest_backward_iff_isGreatest]
  · rw [hr] at hnearest
    obtain ⟨hm, -, hclear⟩ := hnearest
    refine ⟨hm.year_mem, hm.isPlain.2, fun q hlt hle hq => ?_⟩
    have hback : q ≤ r := hclear q hq hle
    exact absurd hlt (not_lt_of_ge hback)
  · rw [s.nearest_eq_ok_iff, hschedule.eq_some_iff, Allowance.nearest_backward_iff_isGreatest]
  · rw [s.nearest_eq_error_iff, hschedule.eq_none_iff]
    rfl

end Timetable
