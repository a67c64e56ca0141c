import Mathlib.Order.Bounds.Basic
import Timetable.Settle

namespace Timetable

theorem Date.eq_of_rank_eq {d e : Date} (h : d.rank = e.rank) : d = e := by
  obtain ⟨year, month, day, hy, hm, hd⟩ := d
  obtain ⟨year', month', day', hy', hm', hd'⟩ := e
  have hday := Nat.le_trans hd.2 (monthLength_le year month)
  have hday' := Nat.le_trans hd'.2 (monthLength_le year' month')
  simp only [rank] at h
  have hyear : year = year' := by omega
  have hmonth : month = month' := by omega
  have hdays : day = day' := by omega
  subst hyear hmonth hdays
  rfl

theorem TimeOfDay.eq_of_secondOfDay_eq {t u : TimeOfDay} (hs : t.secondOfDay = u.secondOfDay)
    (hn : t.nano = u.nano) : t = u := by
  obtain ⟨hour, minute, second, nano, hh, hm, hs', hn'⟩ := t
  obtain ⟨hour', minute', second', nano', hh', hm', hs'', hn''⟩ := u
  simp only [secondOfDay] at hs hn
  have hhour : hour = hour' := by omega
  have hminute : minute = minute' := by omega
  have hsecond : second = second' := by omega
  subst hhour hminute hsecond hn
  rfl

namespace Instant

theorem rank_injective {i j : Instant} (h : i.rank = j.rank) : i = j := by
  have hsi := i.time.secondOfDay_lt
  have hsj := j.time.secondOfDay_lt
  have hni := i.time.nano_lt
  have hnj := j.time.nano_lt
  rw [rank_eq, rank_eq] at h
  have hdate : i.date = j.date := Date.eq_of_rank_eq (by omega)
  have htime : i.time = j.time := by
    rw [hdate] at h
    exact TimeOfDay.eq_of_secondOfDay_eq (by omega) (by omega)
  obtain ⟨date, time⟩ := i
  subst hdate htime
  rfl

instance : LinearOrder Instant where
  toLE := inferInstance
  toLT := inferInstance
  le_refl i := Int.le_refl i.rank
  le_trans _ _ _ h h' := Int.le_trans h h'
  le_antisymm _ _ h h' := rank_injective (Int.le_antisymm h h')
  le_total i j := Int.le_total i.rank j.rank
  lt_iff_le_not_ge _ _ := Int.lt_iff_le_and_not_ge
  toDecidableLE := inferInstance
  toDecidableLT := inferInstance

/-- The place of the instant's unit of a field on a calendar in which every month has 31 days
and every second 2000 milliseconds. -/
def slot (i : Instant) : Field → Int
  | .year => i.date.year
  | .month => i.date.year * 12 + i.date.month
  | .day | .weekday => i.date.rank
  | .hour => i.date.rank * 24 + i.time.hour
  | .minute => (i.date.rank * 24 + i.time.hour) * 60 + i.time.minute
  | .second => i.date.rank * 86400 + i.time.secondOfDay
  | .millisecond =>
    (i.date.rank * 86400 + i.time.secondOfDay) * 2000 + (i.time.nano / 1000000 : Nat)

theorem le_iff_slot_second {i j : Instant} :
    i ≤ j ↔ i.slot .second < j.slot .second ∨
      i.slot .second = j.slot .second ∧ i.time.nano ≤ j.time.nano := by
  have hni := i.time.nano_lt
  have hnj := j.time.nano_lt
  show i.rank ≤ j.rank ↔ _
  rw [rank_eq, rank_eq]
  simp only [slot]
  omega

/-- A unit is no earlier than another if it holds no earlier a unit of the field below. -/
theorem slot_parent_le {i j : Instant} {f g : Field} (hg : f.parent? = some g)
    (h : i.slot f ≤ j.slot f) : i.slot g ≤ j.slot g := by
  have hdi := i.date.day_le_31
  have hdi' := i.date.day_mem.1
  have hdj := j.date.day_le_31
  have hdj' := j.date.day_mem.1
  have hmi := i.date.month_mem
  have hmj := j.date.month_mem
  have hhi := i.time.hour_lt
  have hhj := j.time.hour_lt
  have hni := i.time.minute_lt
  have hnj := j.time.minute_lt
  have hsi := i.time.second_lt
  have hsj := j.time.second_lt
  have hli := i.time.nano_lt
  have hlj := j.time.nano_lt
  cases f <;> cases hg <;> simp only [slot, Date.rank, TimeOfDay.secondOfDay] at h ⊢ <;> omega

theorem slot_parent_eq {i j : Instant} {f g : Field} (hg : f.parent? = some g)
    (h : i.slot f = j.slot f) : i.slot g = j.slot g :=
  Int.le_antisymm (slot_parent_le hg h.le) (slot_parent_le hg h.ge)

/-- Within one parent unit the places of a field differ as what it shows does. -/
theorem slot_sub_slot {i j : Instant} {f : Field} (hf : f ≠ .weekday)
    (h : ∀ g, f.parent? = some g → i.slot g = j.slot g) :
    i.slot f - j.slot f = i.value f - j.value f := by
  cases f
  case weekday => exact absurd rfl hf
  case year => rfl
  case month =>
    have := h .year rfl
    simp only [slot, value] at this ⊢
    omega
  case day =>
    have := h .month rfl
    simp only [slot, value, Date.rank] at this ⊢
    omega
  case hour =>
    have := h .day rfl
    simp only [slot, value] at this ⊢
    omega
  case minute =>
    have := h .hour rfl
    simp only [slot, value] at this ⊢
    omega
  case second =>
    have := h .minute rfl
    simp only [slot, value, TimeOfDay.secondOfDay] at this ⊢
    omega
  case millisecond =>
    have := h .second rfl
    simp only [slot, value] at this ⊢
    omega

theorem slot_second_mono {i j : Instant} (h : i ≤ j) : i.slot .second ≤ j.slot .second := by
  rcases le_iff_slot_second.mp h with h | h
  · exact Int.le_of_lt h
  · exact Int.le_of_eq h.1

theorem slot_mono {i j : Instant} (f : Field) (h : i ≤ j) : i.slot f ≤ j.slot f := by
  have second := slot_second_mono h
  have minute := slot_parent_le (f := .second) rfl second
  have hour := slot_parent_le (f := .minute) rfl minute
  have day := slot_parent_le (f := .hour) rfl hour
  have month := slot_parent_le (f := .day) rfl day
  have year := slot_parent_le (f := .month) rfl month
  cases f
  case year => exact year
  case month => exact month
  case day => exact day
  case weekday => exact day
  case hour => exact hour
  case minute => exact minute
  case second => exact second
  case millisecond =>
    have := le_iff_slot_second.mp h
    have hni := i.time.nano_lt
    simp only [slot] at this ⊢
    omega

def IsWhole (i : Instant) : Prop := i.time.nano % 1000000 = 0

def IsLeap (i : Instant) : Prop := 1000000000 ≤ i.time.nano

instance (i : Instant) : Decidable i.IsWhole := inferInstanceAs (Decidable (_ = _))

instance (i : Instant) : Decidable i.IsLeap := inferInstanceAs (Decidable (_ ≤ _))

theorem le_of_slot_millisecond {i j : Instant} (hi : i.IsWhole)
    (h : i.slot .millisecond ≤ j.slot .millisecond) : i ≤ j := by
  have hni := i.time.nano_lt
  have hnj := j.time.nano_lt
  unfold IsWhole at hi
  apply le_iff_slot_second.mpr
  simp only [slot] at h ⊢
  omega

theorem date_eq_of_slot_day {i j : Instant} (h : i.slot .day = j.slot .day) : i.date = j.date :=
  Date.eq_of_rank_eq h

end Instant

end Timetable
