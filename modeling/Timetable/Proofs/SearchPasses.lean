import Mathlib.Data.List.Pairwise
import Timetable.Proofs.SearchSound

namespace Timetable

/-- No carry leads to an instant before this one. -/
def searchFloor : Instant := .dayEnd ⟨1999, 12, 31, by decide, by decide, by decide⟩

/-- No carry leads to an instant after this one. -/
def searchCeiling : Instant := .dayStart ⟨2101, 1, 1, by decide, by decide, by decide⟩

namespace Instant

/-- A unit of a later year is a later unit. -/
theorem year_le_of_slot_le {f : Field} {i j : Instant} (h : i.slot f ≤ j.slot f) :
    i.date.year ≤ j.date.year := by
  cases hp : f.parent? with
  | none =>
    have hyear : f = .year := by cases f <;> first | rfl | cases hp
    subst hyear
    exact h
  | some g => exact year_le_of_slot_le (slot_parent_le hp h)
termination_by f.coarser.length
decreasing_by exact Field.length_coarser_parent hp

theorem lt_of_year_lt {i j : Instant} (h : i.date.year < j.date.year) : i < j := by
  by_contra hn
  have hle : j.date.year ≤ i.date.year := slot_mono .year (not_lt.mp hn)
  omega

variable {dir : Direction} {f : Field} {i j : Instant}

/-- Leaving a unit of a year of the domain leads no farther than to the edge of the next year. -/
theorem leave?_within (hy : 2000 ≤ i.date.year ∧ i.date.year ≤ 2100)
    (h : i.leave? dir f = some j) : searchFloor ≤ j ∧ j ≤ searchCeiling := by
  have hbeyond := beyond_of_leave? h
  obtain ⟨g, hg, -⟩ := Option.bind_eq_some_iff.mp h
  obtain ⟨-, hleaves, -⟩ := leave?_leaves hg h
  have hfloor : searchFloor < i := lt_of_year_lt (show 1999 < i.date.year by omega)
  have hceiling : i < searchCeiling := lt_of_year_lt (show i.date.year < 2101 by omega)
  cases dir
  · have hlater : i.slot g < searchCeiling.slot g := by
      by_contra hn
      have hle : 2101 ≤ i.date.year := year_le_of_slot_le (not_lt.mp hn)
      omega
    exact ⟨(hfloor.trans hbeyond).le, (hleaves searchCeiling (isPlain_dayStart _)).mpr hlater⟩
  · have hearlier : searchFloor.slot g < i.slot g := by
      by_contra hn
      have hle : i.date.year ≤ 1999 := year_le_of_slot_le (not_lt.mp hn)
      omega
    exact ⟨(hleaves searchFloor (isPlain_dayEnd _)).mpr hearlier, (lt_trans hbeyond hceiling).le⟩

end Instant

section Carry

variable {a : Allowance} {dir : Direction} {f : Field} {i j : Instant}

theorem move_eq_target? {move : Option Instant} {s : Step} (h : Step.ofMove f i move = s) :
    move = s.target? := by
  rw [← h, Step.target?_ofMove]

/-- Entering a unit keeps the parent unit, so it never carries. -/
theorem ofMove_enter?_ne_carried {v : Nat} (hf : f ≠ .weekday) (hv : v ≤ f.domain.max) :
    Step.ofMove f i (i.enter? dir f v) ≠ .carried j := by
  intro h
  have hj : i.enter? dir f v = some j := move_eq_target? h
  have hsame := (Instant.enter?_isEntry hf hv hj).sameParent
  rw [hj, ofMove_of_sameParent hsame] at h
  cases h

theorem settleDayFrom_eq_carried {day : Nat} (h : settleDayFrom a dir i day = .carried j) :
    i.leave? dir .day = some j := by
  fun_induction settleDayFrom a dir i day with
  | case1 day hn => exact move_eq_target? h
  | case2 => cases h
  | case3 day v hv d hd ha =>
    have hday : d.day = v := (Date.ofParts?_eq_some hd).2.2
    have hle := d.day_le_31
    have hmax : v ≤ Field.day.domain.max := by
      show v ≤ 32
      omega
    exact absurd h (ofMove_enter?_ne_carried (by decide) hmax)
  | case4 day v hv d hd ha ih => exact ih h

theorem settleValue_eq_carried (hf : f ≠ .weekday) (h : settleValue a dir f i = .carried j) :
    i.leave? dir f = some j := by
  unfold settleValue at h
  cases ht : (a.get f).toward? dir (i.value f) with
  | none =>
    rw [ht] at h
    exact move_eq_target? h
  | some v =>
    rw [ht] at h
    have hmem := PointSet.has_mem (PointSet.toward?_some ht).1
    exact absurd h (ofMove_enter?_ne_carried hf (Int.ofNat_le.mp hmem.2))

/-- A step carries only by leaving the parent unit. -/
theorem settle_eq_carried (hf : f ≠ .weekday) (h : settle a dir f i = .carried j) :
    i.leave? dir f = some j := by
  unfold settle at h
  split at h
  next => cases h
  next =>
    split at h
    next => exact settleDayFrom_eq_carried h
    next => exact settleValue_eq_carried hf h

/-- A pass carries only by leaving a unit of a year that is allowed. -/
theorem settleAll_eq_carried {before fs : List Field} (hfs : before ++ fs = cascade)
    (hw : i.IsWhole) (ha : ∀ g ∈ before, a.allows g i = true)
    (h : settleAll a dir fs i = .carried j) :
    ∃ (k : Instant) (f : Field), (2000 ≤ k.date.year ∧ k.date.year ≤ 2100) ∧
      k.leave? dir f = some j := by
  induction fs generalizing before i with
  | nil => cases h
  | cons f fs ih =>
    have hstep := settle_sound_of_before dir hfs hw ha
    rw [settleAll] at h
    cases hs : settle a dir f i with
    | settled k =>
      rw [hs] at hstep h
      obtain ⟨⟨hk, -, hsame⟩, hallows, -⟩ := hstep
      have hsplit : (before ++ [f]) ++ fs = cascade := by
        rw [List.append_assoc]
        exact hfs
      exact ih hsplit hk (allows_of_settled hfs ha hsame hallows) h
    | carried k =>
      rw [hs] at h
      cases h
      have hweekday : f ≠ .weekday := fun he => weekday_notMem_cascade (he ▸ mem_cascade hfs)
      have hleave := settle_eq_carried hweekday hs
      refine ⟨i, f, year_mem_of_before hfs ha ?_, hleave⟩
      rintro rfl
      cases hleave
    | exhausted =>
      rw [hs] at h
      cases h

/-- Beyond the last year on its way a search has no year to go to. -/
theorem settle_year_eq_exhausted
    (h : ∀ y : Int, 2000 ≤ y ∧ y ≤ 2100 → ¬dir.AtOrPast i.date.year y) :
    settle a dir .year i = .exhausted := by
  have hallows : a.allows .year i ≠ true := fun hyear =>
    h i.date.year (Allowance.year_mem_of_allows hyear) (Direction.atOrPast_iff.mpr (Or.inr rfl))
  have hvalue : settle a dir .year i = settleValue a dir .year i := if_neg hallows
  rw [hvalue, settleValue]
  cases hv : (a.get .year).toward? dir (i.value .year) with
  | none => rfl
  | some v =>
    have hmem := PointSet.has_mem (PointSet.toward?_some hv).1
    exact absurd (PointSet.past_of_toward? hv).atOrPast (h v hmem)

/-- What a pass carries to lies between the edges of the domain of years. If it lies outside of
that domain, the year ends the search. -/
theorem carried_within (hw : i.IsWhole) (h : settleAll a dir cascade i = .carried j) :
    (searchFloor ≤ j ∧ j ≤ searchCeiling) ∧
      ((2000 ≤ j.date.year ∧ j.date.year ≤ 2100) ∨ settle a dir .year j = .exhausted) := by
  obtain ⟨k, f, hyear, hleave⟩ :=
    settleAll_eq_carried (List.nil_append cascade) hw (fun g hg => by cases hg) h
  refine ⟨Instant.leave?_within hyear hleave, ?_⟩
  have hslot : dir.AtOrPast k.date.year j.date.year :=
    (Instant.beyond_of_leave? hleave).reaches.slot .year
  by_cases hj : 2000 ≤ j.date.year ∧ j.date.year ≤ 2100
  · exact Or.inl hj
  · refine Or.inr (settle_year_eq_exhausted fun y hy hback => hj ?_)
    cases dir
    · have hforth : k.date.year ≤ j.date.year := hslot
      have hback : j.date.year ≤ y := hback
      omega
    · have hforth : j.date.year ≤ k.date.year := hslot
      have hback : y ≤ j.date.year := hback
      omega

end Carry

/-- How a search goes whose first pass starts at an instant: what its passes carry to, one after
another, and what it answers. -/
inductive Allowance.Searches (a : Allowance) (dir : Direction) :
    Instant → List Instant → Option Instant → Prop
  | found {i r} (h : settleAll a dir cascade i = .found r) : Searches a dir i [] (some r)
  | exhausted {i} (h : settleAll a dir cascade i = .exhausted) : Searches a dir i [] none
  | carried {i j js r} (h : settleAll a dir cascade i = .carried j)
    (hs : Searches a dir j js r) : Searches a dir i (j :: js) r

/-- How the days of the month of `i` are tried after a day: which are tried, one after another,
and what comes of it. -/
inductive Allowance.TriesDays (a : Allowance) (dir : Direction) (i : Instant) :
    Nat → List Nat → Step → Prop
  | none {day} (h : dir.dayPast? a.day day i.date.daysInMonth = none) :
    TriesDays a dir i day [] (.ofMove .day i (i.leave? dir .day))
  | allowed {day v d} (hv : dir.dayPast? a.day day i.date.daysInMonth = some v)
    (hd : i.date.withDay? v = some d) (ha : a.allowsDate d = true) :
    TriesDays a dir i day [v] (.ofMove .day i (i.enter? dir .day v))
  | refused {day v d vs s} (hv : dir.dayPast? a.day day i.date.daysInMonth = some v)
    (hd : i.date.withDay? v = some d) (ha : a.allowsDate d = false)
    (hs : TriesDays a dir i v vs s) : TriesDays a dir i day (v :: vs) s

namespace Allowance

variable {a : Allowance} {dir : Direction} {i : Instant}

theorem exists_searches (a : Allowance) (dir : Direction) (i : Instant) :
    ∃ js, a.Searches dir i js (searchFrom? a dir i) := by
  fun_induction searchFrom? a dir i with
  | case1 i r h => exact ⟨[], .found h⟩
  | case2 i j h ih =>
    obtain ⟨js, hs⟩ := ih
    exact ⟨j :: js, .carried h hs⟩
  | case3 i h => exact ⟨[], .exhausted h⟩

/-- Each carry leads farther on. -/
theorem Searches.pairwise {js : List Instant} {r : Option Instant} (h : a.Searches dir i js r) :
    (i :: js).Pairwise dir.Beyond := by
  induction h with
  | found => exact List.pairwise_singleton _ _
  | exhausted => exact List.pairwise_singleton _ _
  | carried h _ ih =>
    have : IsTrans Instant dir.Beyond := ⟨fun _ _ _ => Direction.Beyond.trans⟩
    have hbeyond := settleAll_carried weekday_notMem_cascade h
    exact List.pairwise_cons_cons_iff_of_trans.mpr ⟨hbeyond, ih⟩

theorem Searches.within {js : List Instant} {r : Option Instant} (h : a.Searches dir i js r)
    (hw : i.IsWhole) : ∀ j ∈ js, (searchFloor ≤ j ∧ j ≤ searchCeiling) ∧
      ((2000 ≤ j.date.year ∧ j.date.year ≤ 2100) ∨ settle a dir .year j = .exhausted) := by
  induction h with
  | found => exact List.forall_mem_nil _
  | exhausted => exact List.forall_mem_nil _
  | @carried i j js r h _ ih =>
    have hsound := settleAll_sound a dir (List.nil_append cascade) hw fun g hg => by cases hg
    rw [h] at hsound
    obtain ⟨hplain, -, -⟩ := hsound
    exact List.forall_mem_cons.mpr ⟨carried_within hw h, ih hplain.1⟩

/-- Within the month the trying never meets a day that the month does not have, and it ends. -/
theorem exists_triesDays (a : Allowance) (dir : Direction) (i : Instant) {day : Nat}
    (hday : day ≤ i.date.daysInMonth) :
    ∃ vs, a.TriesDays dir i day vs (settleDayFrom a dir i day) := by
  fun_induction settleDayFrom a dir i day with
  | case1 day hn => exact ⟨[], .none hn⟩
  | case2 day v hv hnone =>
    obtain ⟨hrange, -⟩ := Direction.dayPast?_some hday hv
    obtain ⟨d, hd⟩ := Instant.withDay?_exists hrange
    cases hd.symm.trans hnone
  | case3 day v hv d hd ha => exact ⟨[v], .allowed hv hd ha⟩
  | case4 day v hv d hd ha ih =>
    obtain ⟨hrange, -⟩ := Direction.dayPast?_some hday hv
    obtain ⟨vs, hvs⟩ := ih hrange.2
    exact ⟨v :: vs, .refused hv hd (Bool.not_eq_true _ ▸ ha) hvs⟩

/-- The days that are tried follow each other in the direction of the search. -/
theorem TriesDays.pairwise {day : Nat} {vs : List Nat} {s : Step}
    (h : a.TriesDays dir i day vs s) : (day :: vs).Pairwise fun v w : Nat => dir.Past v w := by
  induction h with
  | none => exact List.pairwise_singleton _ _
  | allowed hv =>
    exact List.pairwise_pair.mpr (Direction.past_of_dayPast? hv)
  | refused hv _ _ _ ih =>
    have : IsTrans Nat fun v w => dir.Past v w := ⟨fun _ _ _ => Direction.Past.trans⟩
    exact List.pairwise_cons_cons_iff_of_trans.mpr ⟨Direction.past_of_dayPast? hv, ih⟩

theorem TriesDays.mem_month {day : Nat} {vs : List Nat} {s : Step}
    (h : a.TriesDays dir i day vs s) : ∀ v ∈ vs, 1 ≤ v ∧ v ≤ i.date.daysInMonth := by
  have hrange {v : Nat} {d : Date} (hd : i.date.withDay? v = some d) :
      1 ≤ v ∧ v ≤ i.date.daysInMonth := by
    obtain ⟨hy, hm, hday⟩ := Date.ofParts?_eq_some hd
    have hmem := d.day_mem
    rwa [hy, hm, hday] at hmem
  induction h with
  | none => exact List.forall_mem_nil _
  | allowed _ hd => exact List.forall_mem_singleton.mpr (hrange hd)
  | refused _ hd _ _ ih => exact List.forall_mem_cons.mpr ⟨hrange hd, ih⟩

end Allowance

/-- Every search ends. It makes finitely many passes, each carry leads farther on and none leaves
the years 2000 to 2100 but for their edges, where the year ends the search. Within a month it tries
finitely many days, one farther on than the other. -/
theorem search_terminates (a : Allowance) (dir : Direction) :
    (∀ t : Instant, t.align? dir = none ∧ a.nearest? dir t = none ∨
      ∃ c carried, t.align? dir = some c ∧ a.Searches dir c carried (a.nearest? dir t) ∧
        (c :: carried).Pairwise dir.Beyond ∧
        ∀ j ∈ carried, (searchFloor ≤ j ∧ j ≤ searchCeiling) ∧
          ((2000 ≤ j.date.year ∧ j.date.year ≤ 2100) ∨ settle a dir .year j = .exhausted)) ∧
    ∀ i : Instant, ∃ tried, a.TriesDays dir i i.date.day tried (settleDayFrom a dir i i.date.day) ∧
      (i.date.day :: tried).Pairwise (fun v w : Nat => dir.Past v w) ∧
      ∀ v ∈ tried, 1 ≤ v ∧ v ≤ i.date.daysInMonth := by
  constructor
  · intro t
    unfold Allowance.nearest?
    cases hc : t.align? dir with
    | none => exact Or.inl ⟨rfl, rfl⟩
    | some c =>
      obtain ⟨hw, -, -⟩ := Instant.align?_some hc
      obtain ⟨carried, hs⟩ := a.exists_searches dir c
      exact Or.inr ⟨c, carried, rfl, hs, hs.pairwise, hs.within hw⟩
  · intro i
    obtain ⟨tried, ht⟩ := a.exists_triesDays dir i i.date.day_mem.2
    exact ⟨tried, ht, ht.pairwise, ht.mem_month⟩

end Timetable
