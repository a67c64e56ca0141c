import Timetable.Proofs.SettleSound

namespace Timetable

namespace Instant

/-- Another nanosecond of the same second. The number stays a variable here, since unfolding a
difference of large numbers is what a check by definition would do. -/
theorem parts_of_nano {i j : Instant} {n : Nat} {hn : n < 2000000000}
    (h : { i with time := { i.time with nano := n, nano_lt := hn } } = j) :
    j.slot .second = i.slot .second ∧ j.time.nano = n := by
  subst h
  exact ⟨rfl, rfl⟩

/-- One millisecond on lies in the same second or in the one after it. -/
theorem nextMilli?_parts {i j : Instant} (h : i.nextMilli? = some j) :
    j.slot .second = i.slot .second ∧ j.time.nano = i.time.nano + 1000000 ∧
        j.time.nano < i.time.secondEnd ∨
      (i.slot .second < j.slot .second ∧
          ∀ q : Instant, q.IsPlain → i.slot .second < q.slot .second →
            j.slot .second ≤ q.slot .second) ∧
        j.time.nano + i.time.secondEnd = i.time.nano + 1000000 := by
  unfold nextMilli? at h
  split at h
  next hlt =>
    obtain ⟨hs, hn⟩ := parts_of_nano (Option.some.inj h)
    exact Or.inl ⟨hs, hn, by omega⟩
  next hge =>
    obtain ⟨k, hk, rfl⟩ := Option.map_eq_some_iff.mp h
    have hleaves := leaves_secondAfter hk
    have hplain : k.IsPlain :=
      isPlain_of_nano_eq (show 0 < 1000 by decide) (secondAfter?_parts hk).1
    refine Or.inr ⟨⟨(hleaves k hplain).mp (le_refl k), fun q hq hlt => ?_⟩, ?_⟩
    · have hle : k ≤ q := (hleaves q hq).mpr hlt
      have hslot : k.slot .second ≤ q.slot .second := slot_mono .second hle
      exact hslot
    · show i.time.nano + 1000000 - i.time.secondEnd + i.time.secondEnd = i.time.nano + 1000000
      omega

/-- One millisecond back lies in the same second or in the one before it. -/
theorem previousMilli?_parts {i j : Instant} (h : i.previousMilli? = some j) :
    j.slot .second = i.slot .second ∧ j.time.nano + 1000000 = i.time.nano ∨
      (j.slot .second < i.slot .second ∧
          ∀ q : Instant, q.IsPlain → q.slot .second < i.slot .second →
            q.slot .second ≤ j.slot .second) ∧
        j.time.nano = 999000000 + i.time.nano ∧ i.time.nano < 1000000 := by
  unfold previousMilli? at h
  split at h
  next hle =>
    obtain ⟨hs, hn⟩ := parts_of_nano (Option.some.inj h)
    exact Or.inl ⟨hs, by omega⟩
  next hlt =>
    obtain ⟨k, hk, rfl⟩ := Option.map_eq_some_iff.mp h
    have hleaves := leaves_secondBefore hk
    have hplain : k.IsPlain :=
      isPlain_of_nano_eq (show 999 < 1000 by decide) (secondBefore?_parts hk).1
    refine Or.inr ⟨⟨(hleaves k hplain).mp (le_refl k), fun q hq hlt => ?_⟩, rfl, by omega⟩
    have hle : q ≤ k := (hleaves q hq).mpr hlt
    have hslot : q.slot .second ≤ k.slot .second := slot_mono .second hle
    exact hslot

theorem nextMilli?_exists {i : Instant} (h : i.date.year < lastYear) :
    ∃ j, i.nextMilli? = some j := by
  unfold nextMilli?
  split
  · exact ⟨_, rfl⟩
  · exact map_exists _ (unitAfter?_exists (g := .second) (by decide) h)

theorem previousMilli?_exists {i : Instant} (h : firstYear < i.date.year) :
    ∃ j, i.previousMilli? = some j := by
  unfold previousMilli?
  split
  · exact ⟨_, rfl⟩
  · exact map_exists _ (unitBefore?_exists (g := .second) (by decide) h)

theorem secondEnd_cases (t : TimeOfDay) :
    t.nano < 1000000000 ∧ t.secondEnd = 1000000000 ∨
      1000000000 ≤ t.nano ∧ t.secondEnd = 2000000000 := by
  unfold TimeOfDay.secondEnd
  split <;> omega

theorem isWhole_truncate (i : Instant) : i.truncate.IsWhole := by
  show (i.time.nano - i.time.nano % 1000000) % 1000000 = 0
  omega

/-- Rounding loses no plain instant on the side that the search goes to. -/
theorem align?_some {i c : Instant} {dir : Direction} (h : i.align? dir = some c) :
    c.IsWhole ∧ dir.Reaches i c ∧ ∀ q : Instant, q.IsPlain → dir.Reaches i q → dir.Reaches c q := by
  have hwhole := i.isWhole_truncate
  have hslot : i.truncate.slot .second = i.slot .second := rfl
  have hnano : i.truncate.time.nano = i.time.nano - i.time.nano % 1000000 := rfl
  cases dir
  · show c.IsWhole ∧ i ≤ c ∧ ∀ q : Instant, q.IsPlain → i ≤ q → c ≤ q
    unfold align? at h
    simp only at h
    split at h
    next hw =>
      cases h
      rw [truncate_of_isWhole hw]
      exact ⟨hw, le_refl i, fun q _ hq => hq⟩
    next hw =>
      have hend := secondEnd_cases i.truncate.time
      have hlt := i.truncate.time.nano_lt_secondEnd
      unfold IsWhole at hwhole ⊢
      rcases nextMilli?_parts h with ⟨hs, hn, hlt⟩ | ⟨⟨hs, hfirst⟩, hn⟩
      · refine ⟨by omega, le_iff_slot_second.mpr (by omega), fun q hq hle => ?_⟩
        have hqw : q.time.nano % 1000000 = 0 := hq.1
        have hcases := le_iff_slot_second.mp hle
        exact le_iff_slot_second.mpr (by omega)
      · refine ⟨by omega, le_iff_slot_second.mpr (by omega), fun q hq hle => ?_⟩
        have hqn := hq.nano_le
        have hqw : q.time.nano % 1000000 = 0 := hq.1
        have hcases := le_iff_slot_second.mp hle
        have hlater : i.slot .second < q.slot .second := by omega
        have hreach := hfirst q hq (by omega)
        exact le_iff_slot_second.mpr (by omega)
  · cases h
    show i.truncate.IsWhole ∧ i.truncate ≤ i ∧
      ∀ q : Instant, q.IsPlain → q ≤ i → q ≤ i.truncate
    refine ⟨hwhole, le_iff_slot_second.mpr (by omega), fun q hq hle => ?_⟩
    have hqw : q.time.nano % 1000000 = 0 := hq.1
    have hcases := le_iff_slot_second.mp hle
    exact le_iff_slot_second.mpr (by omega)

theorem align?_exists {i : Instant} (dir : Direction) (h : i.date.year < lastYear) :
    ∃ c, i.align? dir = some c := by
  cases dir
  · unfold align?
    simp only
    split
    · exact ⟨_, rfl⟩
    · exact nextMilli?_exists h
  · exact ⟨_, rfl⟩

end Instant

namespace Allowance

variable {a : Allowance} {dir : Direction}

theorem Match.year_mem {q : Instant} (h : a.Match q) :
    2000 ≤ q.date.year ∧ q.date.year ≤ 2100 :=
  year_mem_of_allows (h.allows (by decide))

theorem not_reaches_of_align?_none {i : Instant} (h : i.align? dir = none) {q : Instant}
    (hq : a.Match q) : ¬dir.Reaches i q := by
  intro hr
  have hyear : ¬i.date.year < lastYear := fun hlt => by
    obtain ⟨c, hc⟩ := Instant.align?_exists dir hlt
    rw [h] at hc
    cases hc
  cases dir
  · have hslot : i.date.year ≤ q.date.year := Instant.slot_mono .year hr
    have hmem := hq.year_mem
    unfold lastYear at hyear
    omega
  · cases h

end Allowance

end Timetable
