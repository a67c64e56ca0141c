import Timetable.Proofs.NearestInstant
import Timetable.Proofs.PatternMeaning

namespace Timetable

namespace Instant

/-- The instant, rounded to a whole millisecond as far as the calendar allows it: up for a search
forward, down for a search backward. -/
def rounded (dir : Direction) (i : Instant) : Instant := (i.align? dir).getD i

variable {i u c q : Instant} {dir : Direction}

theorem lt_iff_slot_second :
    i < u ↔ i.slot .second < u.slot .second ∨
      i.slot .second = u.slot .second ∧ i.time.nano < u.time.nano := by
  rw [← not_le, le_iff_slot_second]
  omega

/-- A plain instant is at or after the shifted start if it is after the rounded start. -/
theorem le_nextMilli?_iff (hu : i.nextMilli? = some u) (hc : i.align? .forward = some c)
    (hq : q.IsPlain) : u ≤ q ↔ c < q := by
  have hqw : q.time.nano % 1000000 = 0 := hq.1
  have hqn := hq.nano_le
  have hend := secondEnd_cases i.time
  have hlt := i.time.nano_lt_secondEnd
  rw [le_iff_slot_second, lt_iff_slot_second]
  unfold align? at hc
  simp only at hc
  split at hc
  next hw =>
    cases hc
    rw [truncate_of_isWhole hw]
    rcases nextMilli?_parts hu with ⟨hs, hn, hin⟩ | ⟨⟨hs, hfirst⟩, hn⟩
    · omega
    · have hreach := hfirst q hq
      omega
  next hw =>
    have hslot : i.truncate.slot .second = i.slot .second := rfl
    have hnano : i.truncate.time.nano = i.time.nano - i.time.nano % 1000000 := rfl
    have hend' := secondEnd_cases i.truncate.time
    have hlt' := i.truncate.time.nano_lt_secondEnd
    rcases nextMilli?_parts hu with ⟨hs, hn, hin⟩ | ⟨⟨hs, hfirst⟩, hn⟩
    · rcases nextMilli?_parts hc with ⟨hs', hn', hin'⟩ | ⟨-, hn'⟩
      · omega
      · omega
    · rcases nextMilli?_parts hc with ⟨-, hn', hin'⟩ | ⟨⟨hs', hfirst'⟩, hn'⟩
      · omega
      · -- Both carry into the next second, of which each is a plain instant when truncated.
        have hcw : c.time.nano = 0 := by omega
        have hcplain : c.IsPlain := isPlain_of_nano_eq (show 0 < 1000 by decide) hcw
        have hun : u.truncate.time.nano = 0 := by
          show u.time.nano - u.time.nano % 1000000 = 0
          omega
        have huplain : u.truncate.IsPlain := isPlain_of_nano_eq (show 0 < 1000 by decide) hun
        have hle : u.slot .second ≤ c.slot .second := hfirst c hcplain (by omega)
        have hge : c.slot .second ≤ u.slot .second := hfirst' u.truncate huplain (by
          show i.truncate.slot .second < u.slot .second
          omega)
        omega

theorem previousMilli?_le_iff (hu : i.previousMilli? = some u) (hq : q.IsPlain) :
    q ≤ u ↔ q < i.truncate := by
  have hqw : q.time.nano % 1000000 = 0 := hq.1
  have hqn := hq.nano_le
  have hslot : i.truncate.slot .second = i.slot .second := rfl
  have hnano : i.truncate.time.nano = i.time.nano - i.time.nano % 1000000 := rfl
  rw [le_iff_slot_second, lt_iff_slot_second]
  rcases previousMilli?_parts hu with ⟨hs, hn⟩ | ⟨⟨hs, hlast⟩, hn, hfirst⟩
  · omega
  · have hreach := hlast q hq
    omega

theorem shift?_beyond (hu : i.shift? dir = some u) : dir.Beyond i u := by
  cases dir
  · apply lt_iff_slot_second.mpr
    rcases nextMilli?_parts hu with ⟨hs, hn, -⟩ | ⟨⟨hs, -⟩, -⟩
    · omega
    · omega
  · apply lt_iff_slot_second.mpr
    rcases previousMilli?_parts hu with ⟨hs, hn⟩ | ⟨⟨hs, -⟩, -⟩
    · omega
    · omega

theorem reaches_rounded (dir : Direction) (i : Instant) : dir.Reaches i (i.rounded dir) := by
  unfold rounded
  cases hc : i.align? dir with
  | none => exact Direction.Reaches.refl i
  | some c => exact (align?_some hc).2.1

theorem rounded_of_isWhole (dir : Direction) (h : i.IsWhole) : i.rounded dir = i := by
  have hw : i.time.nano % 1000000 = 0 := h
  have ht := truncate_of_isWhole h
  cases dir
  · simp [rounded, align?, hw, ht]
  · simp [rounded, align?, ht]

end Instant

namespace Allowance

variable {a : Allowance} {dir : Direction} {t q : Instant}

/-- The shifted start has the same matches before it as the rounded start beyond it. -/
theorem Match.reaches_shift_iff (hq : a.Match q) {u : Instant} (hu : t.shift? dir = some u) :
    dir.Reaches u q ↔ dir.Beyond (t.rounded dir) q := by
  unfold Instant.rounded
  cases hc : t.align? dir with
  | none =>
    have hout := not_reaches_of_align?_none hc hq
    constructor
    · intro h
      exact absurd ((Instant.shift?_beyond hu).reaches.trans h) hout
    · intro h
      exact absurd h.reaches hout
  | some c =>
    cases dir
    · exact Instant.le_nextMilli?_iff hu hc hq.isPlain
    · cases hc
      exact Instant.previousMilli?_le_iff hu hq.isPlain

theorem Match.reaches_rounded (hq : a.Match q) (h : dir.Reaches t q) :
    dir.Reaches (t.rounded dir) q := by
  unfold Instant.rounded
  cases hc : t.align? dir with
  | none => exact h
  | some c => exact (Instant.align?_some hc).2.2 q hq.isPlain h

/-- Where the start cannot be shifted, the calendar ends. -/
theorem not_beyond_of_shift?_none (hn : t.shift? dir = none) (hq : a.Match q) :
    ¬dir.Beyond (t.rounded dir) q := by
  intro hb
  have hr : dir.Reaches t q := (t.reaches_rounded dir).trans hb.reaches
  have hmem := hq.year_mem
  cases dir
  · have hyear : t.date.year ≤ q.date.year := Instant.slot_mono .year hr
    obtain ⟨u, hu⟩ := Instant.nextMilli?_exists (i := t) (by unfold lastYear; omega)
    cases hu.symm.trans hn
  · have hyear : q.date.year ≤ t.date.year := Instant.slot_mono .year hr
    obtain ⟨u, hu⟩ := Instant.previousMilli?_exists (i := t) (by unfold firstYear; omega)
    cases hu.symm.trans hn

end Allowance

namespace Schedule

/-- Whether a strict query from `t` answers with the first match beyond `c`, and fails only if
there is none. -/
def Follows (s : Schedule) (dir : Direction) (t c : Instant) : Prop :=
  s.Answers dir ((t.shift? dir).getD t) (dir.Beyond c) (s.following dir t)

variable {s : Schedule} {dir : Direction} {t : Instant}

theorem follows_rounded (s : Schedule) (dir : Direction) (t : Instant) :
    s.Follows dir t (t.rounded dir) := by
  unfold Follows following
  cases hu : t.shift? dir with
  | none =>
    have hnone : ∀ q, s.allowance.Match q → ¬dir.Beyond (t.rounded dir) q :=
      fun q hq => Allowance.not_beyond_of_shift?_none hu hq
    refine ⟨fun r => ⟨fun h => ?_, fun h => ?_⟩, fun e => ⟨fun h => ?_, fun h => ?_⟩⟩
    · cases h
    · exact absurd h.1.2 (hnone r h.1.1)
    · cases h
      exact ⟨rfl, hnone⟩
    · rw [h.1]
      rfl
  | some u => exact (s.nearest_answers dir u).congr fun q hq => hq.reaches_shift_iff hu

/-- A strict query passes over the rounded start and over nothing else. -/
theorem follows_iff : s.Follows dir t t ↔ t.IsWhole ∨ ¬s.allowance.Match (t.rounded dir) := by
  have hrounded := s.follows_rounded dir t
  have hreach := t.reaches_rounded dir
  constructor
  · intro h
    by_contra hn
    obtain ⟨hw, hm⟩ := not_or.mp hn
    have hm := not_not.mp hm
    have hne : t ≠ t.rounded dir := by
      intro he
      rw [he] at hw
      exact hw hm.1
    have hfound : s.following dir t = .ok (t.rounded dir) :=
      (h.1 _).mpr ⟨⟨hm, hreach.beyond_of_ne hne⟩, fun q hq hb => hq.reaches_rounded hb.reaches⟩
    have hself := ((hrounded.1 _).mp hfound).1.2
    exact Direction.not_beyond.mpr (Direction.Reaches.refl _) hself
  · rintro (hw | hm)
    · rwa [Instant.rounded_of_isWhole dir hw] at hrounded
    · refine hrounded.congr fun q hq => ⟨hreach.beyond, fun hb => ?_⟩
      · refine (hq.reaches_rounded hb.reaches).beyond_of_ne ?_
        intro he
        rw [he] at hm
        exact hm hq

end Schedule

/-- Strict queries are exact with respect to where they round their start. So they are exact
with respect to the start itself unless that is no whole millisecond and is rounded to a match,
which they then pass over. -/
theorem following_exact_iff (s : Schedule) (dir : Direction) (t : Instant) :
    s.Follows dir t (t.rounded dir) ∧
      (s.Follows dir t t ↔ t.IsWhole ∨ ¬s.allowance.Match (t.rounded dir)) :=
  ⟨s.follows_rounded dir t, Schedule.follows_iff⟩

/-- Half a millisecond past ten, the schedule of every millisecond has a match at the next whole
millisecond, which the strict query passes over. -/
theorem strict_query_skips_match : ¬∀ (text : String) (s : Schedule) (dir : Direction)
    (t : Instant), Schedule.ofText text = .ok s → s.Follows dir t t := by
  intro h
  have hs : Schedule.ofText "*:*:*.*" = .ok ⟨"*:*:*.*", .always, Pattern.always.merge⟩ :=
    Schedule.ofText_eq_ok_iff.mpr ⟨by decide +kernel, rfl, rfl⟩
  let day : Date := ⟨2001, 1, 1, by decide, by decide, by decide⟩
  let start : Instant := ⟨day, ⟨10, 0, 0, 500000, by decide, by decide, by decide, by decide⟩⟩
  rcases Schedule.follows_iff.mp (h _ _ .forward start hs) with hw | hm
  · exact absurd hw (by decide)
  · exact hm ⟨by decide +kernel, by decide +kernel⟩

end Timetable
