import Timetable.Proofs.Slot

namespace Timetable

namespace Direction

/-- Whether `q` is `p` or lies farther on. -/
def AtOrPast (dir : Direction) (p q : Int) : Prop :=
  match dir with
  | .forward => p ≤ q
  | .backward => q ≤ p

/-- Whether `j` is `i` or lies farther on. -/
def Reaches (dir : Direction) (i j : Instant) : Prop :=
  match dir with
  | .forward => i ≤ j
  | .backward => j ≤ i

variable {dir : Direction}

theorem not_past {p q : Int} : ¬dir.Past p q ↔ dir.AtOrPast q p := by
  cases dir
  · exact Int.not_lt
  · exact Int.not_lt

theorem atOrPast_iff {p q : Int} : dir.AtOrPast p q ↔ dir.Past p q ∨ p = q := by
  cases dir
  · exact Int.le_iff_lt_or_eq
  · show q ≤ p ↔ q < p ∨ p = q
    omega

theorem AtOrPast.antisymm {p q : Int} (h : dir.AtOrPast p q) (h' : dir.AtOrPast q p) : p = q := by
  cases dir
  · exact Int.le_antisymm h h'
  · exact Int.le_antisymm h' h

theorem Past.atOrPast {p q : Int} (h : dir.Past p q) : dir.AtOrPast p q :=
  atOrPast_iff.mpr (Or.inl h)

theorem atOrPast_of_sub_eq {p q r s : Int} (he : p - q = r - s) (h : dir.AtOrPast p q) :
    dir.AtOrPast r s := by
  cases dir
  · have h : p ≤ q := h
    show r ≤ s
    omega
  · have h : q ≤ p := h
    show s ≤ r
    omega

theorem not_beyond {i j : Instant} : ¬dir.Beyond i j ↔ dir.Reaches j i := by
  cases dir
  · exact not_lt
  · exact not_lt

theorem Reaches.refl (i : Instant) : dir.Reaches i i := by
  cases dir
  · exact le_refl i
  · exact le_refl i

theorem Reaches.trans {i j k : Instant} (h : dir.Reaches i j) (h' : dir.Reaches j k) :
    dir.Reaches i k := by
  cases dir
  · exact le_trans h h'
  · exact le_trans h' h

theorem Reaches.antisymm {i j : Instant} (h : dir.Reaches i j) (h' : dir.Reaches j i) : i = j := by
  cases dir
  · exact le_antisymm h h'
  · exact le_antisymm h' h

theorem Reaches.beyond_of_ne {i j : Instant} (h : dir.Reaches i j) (hne : i ≠ j) :
    dir.Beyond i j := by
  cases dir
  · exact lt_of_le_of_ne h hne
  · exact lt_of_le_of_ne h hne.symm

theorem Beyond.reaches {i j : Instant} (h : dir.Beyond i j) : dir.Reaches i j := by
  cases dir
  · exact le_of_lt h
  · exact le_of_lt h

theorem Reaches.slot {i j : Instant} (h : dir.Reaches i j) (f : Field) :
    dir.AtOrPast (i.slot f) (j.slot f) := by
  cases dir
  · exact Instant.slot_mono f h
  · exact Instant.slot_mono f h

theorem atOrPast_slot_parent {i j : Instant} {f g : Field} (hg : f.parent? = some g)
    (h : dir.AtOrPast (i.slot f) (j.slot f)) : dir.AtOrPast (i.slot g) (j.slot g) := by
  cases dir
  · exact Instant.slot_parent_le hg h
  · exact Instant.slot_parent_le hg h

end Direction

/-- Whether the instant is a whole number of milliseconds outside leap seconds. -/
def Instant.IsPlain (i : Instant) : Prop := i.IsWhole ∧ ¬i.IsLeap

/-- Whether two instants lie in one unit of the field's parent. -/
def Instant.SameParent (f : Field) (i j : Instant) : Prop :=
  ∀ g, f.parent? = some g → i.slot g = j.slot g

theorem Instant.sameParent_of_slot {f g : Field} {i j : Instant} (hg : f.parent? = some g)
    (h : j.slot g = i.slot g) : SameParent f j i := by
  intro g' hg'
  cases hg.symm.trans hg'
  exact h

namespace Direction

variable {dir : Direction}

/-- Whether the search meets no instant of the unit of `f` that holds `j` before `j`. -/
def IsEdge (dir : Direction) (f : Field) (j : Instant) : Prop :=
  ∀ q : Instant, q.IsPlain → dir.AtOrPast (j.slot f) (q.slot f) → dir.Reaches j q

/-- Whether the search, within a unit of the parent field, meets first what `j` shows. -/
def MeetsFirst (dir : Direction) (f : Field) (j : Instant) : Prop :=
  ∀ q : Instant, q.IsPlain → Instant.SameParent f q j → dir.AtOrPast (j.value f) (q.value f)

/-- Whether the search, within a unit of the parent field, meets last what `i` shows. -/
def MeetsLast (dir : Direction) (f : Field) (i : Instant) : Prop :=
  ∀ q : Instant, q.IsPlain → Instant.SameParent f q i → dir.AtOrPast (q.value f) (i.value f)

/-- Whether `j` is where the search leaves the unit of `f` that holds `i`. -/
def Leaves (dir : Direction) (f : Field) (i j : Instant) : Prop :=
  ∀ q : Instant, q.IsPlain → (dir.Reaches j q ↔ dir.Past (i.slot f) (q.slot f))

theorem isEdge_millisecond {j : Instant} (hj : j.IsWhole) : dir.IsEdge .millisecond j := by
  intro q hq h
  cases dir
  · exact Instant.le_of_slot_millisecond hj h
  · exact Instant.le_of_slot_millisecond hq.1 h

/-- The edge of a unit is the edge of the parent unit if the search meets the unit first. -/
theorem IsEdge.parent {f g : Field} {j : Instant} (hf : f ≠ .weekday) (hg : f.parent? = some g)
    (he : dir.IsEdge f j) (hm : dir.MeetsFirst f j) : dir.IsEdge g j := by
  intro q hq h
  apply he q hq
  rcases atOrPast_iff.mp h with hlt | heq
  · by_contra hn
    have hback : dir.Past (q.slot f) (j.slot f) := by
      by_contra hp
      exact hn (not_past.mp hp)
    have hparent := atOrPast_slot_parent hg hback.atOrPast
    exact not_past.mpr hparent hlt
  · have hsame : Instant.SameParent f q j := Instant.sameParent_of_slot hg heq.symm
    have hsub := Instant.slot_sub_slot hf fun g' hg' => (hsame g' hg').symm
    exact atOrPast_of_sub_eq hsub.symm (hm q hq hsame)

/-- The search leaves a unit by entering the next one. -/
theorem leaves_of_isEdge {f : Field} {i j : Instant} (he : dir.IsEdge f j)
    (hs : ∀ p, dir.Past (i.slot f) p ↔ dir.AtOrPast (j.slot f) p) : dir.Leaves f i j := by
  intro q hq
  rw [hs]
  exact ⟨fun h => h.slot f, he q hq⟩

/-- The search leaves the last unit of a parent unit by leaving the parent unit. -/
theorem Leaves.of_parent {f g : Field} {i j : Instant} (hf : f ≠ .weekday)
    (hg : f.parent? = some g) (hl : dir.Leaves g i j) (hm : dir.MeetsLast f i) :
    dir.Leaves f i j := by
  intro q hq
  rw [hl q hq]
  constructor
  · intro h
    by_contra hn
    exact not_past.mpr (atOrPast_slot_parent hg (not_past.mp hn)) h
  · intro h
    by_contra hn
    have hforth := atOrPast_slot_parent hg (Past.atOrPast h)
    have heq := AtOrPast.antisymm (not_past.mp hn) hforth
    have hsame : Instant.SameParent f q i := Instant.sameParent_of_slot hg heq
    have hsub := Instant.slot_sub_slot hf hsame
    exact not_past.mpr (atOrPast_of_sub_eq hsub.symm (hm q hq hsame)) h

end Direction

namespace Instant

theorem IsPlain.nano_le {i : Instant} (h : i.IsPlain) : i.time.nano ≤ 999000000 := by
  obtain ⟨hw, hl⟩ := h
  unfold IsWhole IsLeap at *
  omega

theorem min_le_value (i : Instant) {f : Field} (hf : f ≠ .year) : f.domain.min ≤ i.value f := by
  have hm := i.date.month_mem.1
  have hd := i.date.day_mem.1
  cases f <;> simp only [Field.domain, value] <;> first | exact absurd rfl hf | omega

theorem IsPlain.value_le_max {i : Instant} (h : i.IsPlain) {f : Field} (hf : f ≠ .year)
    (hw : f ≠ .weekday) : i.value f ≤ f.domain.max := by
  have hm := i.date.month_mem.2
  have hd := i.date.day_le_31
  have hh := i.time.hour_lt
  have hi := i.time.minute_lt
  have hs := i.time.second_lt
  have hn := h.nano_le
  cases f <;> simp only [Field.domain, value, lastDayMark]
  case year => exact absurd rfl hf
  case weekday => exact absurd rfl hw
  all_goals omega

theorem meetsFirst_forward {j : Instant} {f : Field} (hf : f ≠ .year)
    (h : j.value f = f.domain.min) : Direction.forward.MeetsFirst f j := by
  intro q _ _
  rw [h]
  exact q.min_le_value hf

theorem meetsFirst_backward {j : Instant} {f : Field} (hf : f ≠ .year) (hw : f ≠ .weekday)
    (h : j.value f = f.domain.max) : Direction.backward.MeetsFirst f j := by
  intro q hq _
  rw [h]
  exact hq.value_le_max hf hw

theorem meetsFirst_backward_day {j : Instant} (h : j.date.day = j.date.daysInMonth) :
    Direction.backward.MeetsFirst .day j := by
  intro q hq hs
  have hslot : q.slot .month = j.slot .month := hs .month rfl
  have hmq := q.date.month_mem
  have hmj := j.date.month_mem
  simp only [slot] at hslot
  have hyear : q.date.year = j.date.year := by omega
  have hmonth : q.date.month = j.date.month := by omega
  have hday := q.date.day_mem.2
  rw [hyear, hmonth] at hday
  have hle : q.date.day ≤ j.date.day := by rwa [h]
  exact Int.ofNat_le.mpr hle

end Instant

end Timetable
