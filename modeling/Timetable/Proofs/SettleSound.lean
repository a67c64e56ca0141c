import Timetable.Proofs.Entering
import Timetable.Proofs.PointNeighbours
import Timetable.Search

namespace Timetable

namespace Allowance

/-- The whole milliseconds that the schedule admits. -/
def Match (a : Allowance) (q : Instant) : Prop := q.IsWhole ∧ a.admits q = true

/-- Whether a search that has moved from `i` to `j` has passed over no match. -/
def Clear (a : Allowance) (dir : Direction) (i j : Instant) : Prop :=
  ∀ q, a.Match q → dir.Reaches i q → dir.Reaches j q

variable {a : Allowance} {dir : Direction}

theorem Clear.refl (i : Instant) : a.Clear dir i i := fun _ _ h => h

theorem Clear.trans {i j k : Instant} (h : a.Clear dir i j) (h' : a.Clear dir j k) :
    a.Clear dir i k := fun q hq hr => h' q hq (h q hq hr)

theorem allows_of_ne_day {f : Field} (hf : f ≠ .day) (i : Instant) :
    a.allows f i = (a.get f).has (i.value f) := by
  cases f
  case day => exact absurd rfl hf
  all_goals rfl

end Allowance

namespace Instant

theorem truncate_of_isWhole {i : Instant} (h : i.IsWhole) : i.truncate = i := by
  apply rank_injective
  have hs : i.truncate.time.secondOfDay = i.time.secondOfDay := rfl
  have hn : i.truncate.time.nano = i.time.nano := by
    show i.time.nano - i.time.nano % 1000000 = i.time.nano
    rw [h, Nat.sub_zero]
  rw [rank_eq, rank_eq, hs, hn]
  rfl

theorem value_eq_of_slot_eq {f : Field} {i j : Instant} (hf : f ≠ .weekday)
    (h : i.slot f = j.slot f) : i.value f = j.value f := by
  have hsub := slot_sub_slot hf fun g hg => slot_parent_eq hg h
  omega

theorem parts_eq_of_slot_month {i j : Instant} (h : i.slot .month = j.slot .month) :
    i.date.year = j.date.year ∧ i.date.month = j.date.month := by
  have hi := i.date.month_mem
  have hj := j.date.month_mem
  simp only [slot] at h
  omega

end Instant

namespace Allowance

variable {a : Allowance} {dir : Direction}

theorem allows_congr {f : Field} {i j : Instant} (hf : f ∈ cascade)
    (h : i.slot f = j.slot f) : a.allows f i = a.allows f j := by
  have hw : f ≠ .weekday := fun he => weekday_notMem_cascade (he ▸ hf)
  by_cases hd : f = .day
  · subst hd
    exact congrArg a.allowsDate (Instant.date_eq_of_slot_day h)
  · rw [allows_of_ne_day hd, allows_of_ne_day hd, Instant.value_eq_of_slot_eq hw h]

theorem Match.allows {q : Instant} (h : a.Match q) {f : Field} (hf : f ∈ cascade) :
    a.allows f q = true := by
  obtain ⟨hw, ha⟩ := h
  rw [admits, Instant.truncate_of_isWhole hw] at ha
  exact List.all_eq_true.mp ha f hf

theorem match_of_allows {q : Instant} (hw : q.IsWhole)
    (h : ∀ f ∈ cascade, a.allows f q = true) : a.Match q := by
  refine ⟨hw, ?_⟩
  rw [admits, Instant.truncate_of_isWhole hw]
  exact List.all_eq_true.mpr h

/-- A leap second shows milliseconds that no schedule allows. -/
theorem Match.isPlain {q : Instant} (h : a.Match q) : q.IsPlain := by
  refine ⟨h.1, ?_⟩
  have hm : (a.get .millisecond).has (q.value .millisecond) = true :=
    h.allows (f := .millisecond) (by decide)
  have hle : ((q.time.nano / 1000000 : Nat) : Int) ≤ (999 : Nat) := (PointSet.has_mem hm).2
  unfold Instant.IsLeap
  omega

theorem year_mem_of_allows {i : Instant} (h : a.allows .year i = true) :
    2000 ≤ i.date.year ∧ i.date.year ≤ 2100 :=
  PointSet.has_mem (s := a.year) h

end Allowance

namespace PointSet

variable {d : Domain} {s : PointSet d} {dir : Direction} {p : Int}

theorem toward?_some {v : Nat} (h : s.toward? dir p = some v) :
    s.has v = true ∧ dir.Past p v ∧ ∀ w, s.has w = true → dir.Past p w → dir.AtOrPast v w := by
  have hnat : ∀ w, s.has w = true → ((w.toNat : Nat) : Int) = w := fun w hw => by
    have := has_mem hw
    omega
  cases dir
  · have hl := next?_leastOf s p
    rw [show s.next? p = some v from h] at hl
    refine ⟨hl.1.1, hl.1.2, fun w hw hp => ?_⟩
    have hw' := hnat w hw
    rw [← hw'] at hw hp
    have hle : v ≤ w.toNat := hl.2 ⟨hw, hp⟩
    show (v : Int) ≤ w
    omega
  · have hg := previous?_greatestOf s p
    rw [show s.previous? p = some v from h] at hg
    refine ⟨hg.1.1, hg.1.2, fun w hw hp => ?_⟩
    have hw' := hnat w hw
    rw [← hw'] at hw hp
    have hle : w.toNat ≤ v := hg.2 ⟨hw, hp⟩
    show w ≤ (v : Int)
    omega

theorem toward?_none (h : s.toward? dir p = none) (w : Int) (hw : s.has w = true) :
    ¬dir.Past p w := by
  intro hp
  have hm := has_mem hw
  have hw' : ((w.toNat : Nat) : Int) = w := by omega
  rw [← hw'] at hw hp
  cases dir
  · have hl := next?_leastOf s p
    rw [show s.next? p = none from h] at hl
    exact hl w.toNat ⟨hw, hp⟩
  · have hg := previous?_greatestOf s p
    rw [show s.previous? p = none from h] at hg
    exact hg w.toNat ⟨hw, hp⟩

end PointSet

/-- What a step that settles `f` in `i` has to guarantee. -/
def Step.Sound (a : Allowance) (dir : Direction) (f : Field) (i : Instant) : Step → Prop
  | .settled j => (j.IsWhole ∧ dir.Reaches i j ∧ j.SameParent f i) ∧ a.allows f j = true ∧
      a.Clear dir i j
  | .carried j => j.IsPlain ∧ dir.Beyond i j ∧ a.Clear dir i j
  | .exhausted => f = .year ∧ ∀ q, a.Match q → ¬dir.Reaches i q

section Moves

variable {a : Allowance} {dir : Direction} {f : Field} {i j : Instant}

theorem past_value_of_match {q : Instant} (hf : f ∈ cascade) (hi : a.allows f i = false)
    (hq : a.Match q) (hr : dir.Reaches i q) (hs : q.SameParent f i) :
    dir.Past (i.value f) (q.value f) := by
  have hw : f ≠ .weekday := fun he => weekday_notMem_cascade (he ▸ hf)
  have hsub := Instant.slot_sub_slot hw fun g hg => (hs g hg).symm
  have hle := Direction.atOrPast_of_sub_eq hsub (hr.slot f)
  rcases Direction.atOrPast_iff.mp hle with hlt | heq
  · exact hlt
  · have hslot : i.slot f = q.slot f := by omega
    have hallows := hq.allows hf
    rw [← Allowance.allows_congr hf hslot, hi] at hallows
    exact absurd hallows Bool.false_ne_true

theorem parent_ne_weekday {g : Field} (hg : f.parent? = some g) : g ≠ .weekday := by
  cases f <;> cases hg <;> decide

theorem ofMove_of_sameParent (hs : j.SameParent f i) :
    Step.ofMove f i (some j) = .settled j := by
  cases hp : f.parent? with
  | none => simp only [Step.ofMove, hp]
  | some g =>
    have hv := Instant.value_eq_of_slot_eq (parent_ne_weekday hp) (hs g hp)
    simp only [Step.ofMove, hp, hv, if_true]

/-- Entering the unit that comes first among those of the matches settles the field. -/
theorem sound_of_entry {v : Nat} (hf : f ∈ cascade) (hi : a.allows f i = false)
    (he : i.IsEntry dir f v j) (hb : dir.Beyond i j) (hj : a.allows f j = true)
    (first : ∀ q, a.Match q → q.SameParent f i → dir.Past (i.value f) (q.value f) →
      dir.AtOrPast v (q.value f)) :
    (Step.ofMove f i (some j)).Sound a dir f i := by
  have hw : f ≠ .weekday := fun h => weekday_notMem_cascade (h ▸ hf)
  rw [ofMove_of_sameParent he.sameParent]
  refine ⟨⟨he.plain.1, hb.reaches, he.sameParent⟩, hj, fun q hq hr => ?_⟩
  by_contra hn
  have hback : dir.Reaches q j := by
    by_contra h
    exact h (Direction.not_beyond.mp fun hb' => hn hb'.reaches)
  have hsame : q.SameParent f i := by
    intro g hg
    have hforth := hr.slot g
    have hback' := hback.slot g
    rw [he.sameParent g hg] at hback'
    exact (hforth.antisymm hback').symm
  have hsub := Instant.slot_sub_slot hw fun g hg => (hsame g hg).trans (he.sameParent g hg).symm
  have hv := first q hq hsame (past_value_of_match hf hi hq hr hsame)
  rw [← he.value_eq] at hv
  have hslots : j.value f - q.value f = j.slot f - q.slot f := by omega
  exact hn (he.edge q hq.isPlain (Direction.atOrPast_of_sub_eq hslots hv))

theorem ofMove_of_leave? {g : Field} (hg : f.parent? = some g) (hj : i.leave? dir f = some j) :
    Step.ofMove f i (some j) = .carried j := by
  obtain ⟨-, -, hne⟩ := Instant.leave?_leaves hg hj
  simp only [Step.ofMove, hg, if_neg hne]

/-- Leaving a parent unit that holds no further match carries. -/
theorem sound_of_leaving {g : Field} (hf : f ∈ cascade) (hi : a.allows f i = false)
    (hg : f.parent? = some g) (hj : i.leave? dir f = some j)
    (last : ∀ q, a.Match q → q.SameParent f i → ¬dir.Past (i.value f) (q.value f)) :
    (Step.ofMove f i (some j)).Sound a dir f i := by
  obtain ⟨hplain, hleaves, -⟩ := Instant.leave?_leaves hg hj
  rw [ofMove_of_leave? hg hj]
  refine ⟨hplain, Instant.beyond_of_leave? hj, fun q hq hr => ?_⟩
  rw [hleaves q hq.isPlain]
  rcases Direction.atOrPast_iff.mp (hr.slot g) with hlt | heq
  · exact hlt
  · have hsame : q.SameParent f i := Instant.sameParent_of_slot hg heq.symm
    exact absurd (past_value_of_match hf hi hq hr hsame) (last q hq hsame)

/-- A field other than the day moves to its nearest allowed value soundly. -/
theorem settleValue_sound (dir : Direction) (hf : f ∈ cascade) (hd : f ≠ .day)
    (hi : a.allows f i = false)
    (hy : f ≠ .year → firstYear < i.date.year ∧ i.date.year < lastYear) :
    (settleValue a dir f i).Sound a dir f i := by
  have hw : f ≠ .weekday := fun h => weekday_notMem_cascade (h ▸ hf)
  have hvalue : ∀ q, a.Match q → (a.get f).has (q.value f) = true := fun q hq => by
    rw [← Allowance.allows_of_ne_day hd]
    exact hq.allows hf
  unfold settleValue
  cases ht : (a.get f).toward? dir (i.value f) with
  | some v =>
    obtain ⟨hhas, hpast, hfirst⟩ := PointSet.toward?_some ht
    have hmem := PointSet.has_mem hhas
    obtain ⟨j, hj⟩ := Instant.enter?_exists (i := i) dir hd hw
      ⟨Int.ofNat_le.mp hmem.1, Int.ofNat_le.mp hmem.2⟩
    have he := Instant.enter?_isEntry hw (Int.ofNat_le.mp hmem.2) hj
    have hallows : a.allows f j = true := by
      rw [Allowance.allows_of_ne_day hd, he.value_eq]
      exact hhas
    show (Step.ofMove f i (i.enter? dir f v)).Sound a dir f i
    rw [hj]
    exact sound_of_entry hf hi he (Instant.beyond_of_enter? hw hpast hj) hallows
      fun q hq _ hp => hfirst _ (hvalue q hq) hp
  | none =>
    have hnone := PointSet.toward?_none ht
    show (Step.ofMove f i (i.leave? dir f)).Sound a dir f i
    cases hg : f.parent? with
    | none =>
      have hyear : f = .year := by cases f <;> first | rfl | cases hg
      have hleave : i.leave? dir f = none := by rw [Instant.leave?, hg, Option.bind_none]
      rw [hleave]
      refine ⟨hyear, fun q hq hr => ?_⟩
      have hsame : q.SameParent f i := by
        subst hyear
        exact Instant.sameParent_year i q
      exact hnone _ (hvalue q hq) (past_value_of_match hf hi hq hr hsame)
    | some g =>
      have hne : f ≠ .year := by
        rintro rfl
        cases hg
      obtain ⟨j, hj⟩ := Instant.leave?_exists dir hg (hy hne)
      rw [hj]
      exact sound_of_leaving hf hi hg hj fun q hq _ hp => hnone _ (hvalue q hq) hp

end Moves

end Timetable
