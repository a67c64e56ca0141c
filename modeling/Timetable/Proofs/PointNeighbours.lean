import Mathlib.Order.Bounds.Basic
import Timetable.PointSet

namespace Timetable

/-- Whether an optional element is the least of a set; `none` says that the set is empty. -/
def LeastOf {α : Type} [LE α] (s : Set α) : Option α → Prop
  | some x => IsLeast s x
  | none => ∀ x, x ∉ s

def GreatestOf {α : Type} [LE α] (s : Set α) : Option α → Prop
  | some x => IsGreatest s x
  | none => ∀ x, x ∉ s

theorem LeastOf.congr {α : Type} [LE α] {s t : Set α} {o : Option α}
    (h : ∀ x, x ∈ s ↔ x ∈ t) (hs : LeastOf s o) : LeastOf t o := by
  have he : s = t := Set.ext h
  rwa [he] at hs

theorem GreatestOf.congr {α : Type} [LE α] {s t : Set α} {o : Option α}
    (h : ∀ x, x ∈ s ↔ x ∈ t) (hs : GreatestOf s o) : GreatestOf t o := by
  have he : s = t := Set.ext h
  rwa [he] at hs

/-- Whether flags that stand for the points from `p` on allow `q`. -/
def Flagged (p : Nat) (flags : List Bool) (q : Nat) : Prop :=
  ∃ k, flags[k]? = some true ∧ q = p + k

theorem not_flagged_nil {p q : Nat} : ¬Flagged p [] q := by
  rintro ⟨k, hk, -⟩
  cases hk

theorem Flagged.le {p q : Nat} {flags : List Bool} (h : Flagged p flags q) : p ≤ q := by
  obtain ⟨k, -, rfl⟩ := h
  omega

theorem flagged_cons {p q : Nat} {allowed : Bool} {rest : List Bool} :
    Flagged p (allowed :: rest) q ↔ allowed = true ∧ q = p ∨ Flagged (p + 1) rest q := by
  constructor
  · rintro ⟨k, hk, rfl⟩
    cases k with
    | zero => exact Or.inl ⟨Option.some.inj hk, rfl⟩
    | succ k => exact Or.inr ⟨k, hk, by omega⟩
  · rintro (⟨rfl, rfl⟩ | ⟨k, hk, rfl⟩)
    · exact ⟨0, rfl, rfl⟩
    · exact ⟨k + 1, hk, by omega⟩

theorem pointsAfter_least (p : Nat) (flags : List Bool) :
    LeastOf {q | Flagged p flags q} (pointsAfter p flags).2 := by
  induction flags generalizing p with
  | nil =>
    intro q hq
    exact not_flagged_nil hq
  | cons allowed rest ih =>
    have hrest := ih (p + 1)
    cases allowed with
    | true =>
      refine ⟨flagged_cons.mpr (Or.inl ⟨rfl, rfl⟩), ?_⟩
      intro q hq
      exact Flagged.le hq
    | false =>
      refine hrest.congr fun q => ?_
      exact ⟨fun hq => flagged_cons.mpr (Or.inr hq),
        fun hq => (flagged_cons.mp hq).resolve_left fun h => Bool.false_ne_true h.1⟩

theorem pointsAfter_entry {p i : Nat} {flags : List Bool} {o : Option Nat}
    (h : (pointsAfter p flags).1[i]? = some o) :
    LeastOf {q | Flagged p flags q ∧ p + i < q} o := by
  induction flags generalizing p i with
  | nil => cases h
  | cons allowed rest ih =>
    cases i with
    | zero =>
      have ho : (pointsAfter (p + 1) rest).2 = o := Option.some.inj h
      rw [← ho]
      refine (pointsAfter_least (p + 1) rest).congr fun q => ⟨fun hq => ?_, fun hq => ?_⟩
      · exact ⟨flagged_cons.mpr (Or.inr hq), Flagged.le hq⟩
      · have hlt : p < q := hq.2
        exact (flagged_cons.mp hq.1).resolve_left (by omega)
    | succ i =>
      refine (ih (p := p + 1) h).congr fun q => ⟨fun hq => ?_, fun hq => ?_⟩
      · have hlt : p + 1 + i < q := hq.2
        exact ⟨flagged_cons.mpr (Or.inr hq.1), by omega⟩
      · have hlt : p + (i + 1) < q := hq.2
        exact ⟨(flagged_cons.mp hq.1).resolve_left (by omega), by omega⟩

/-- Each entry of the table is the greatest allowed point before its own point, counting the
points of `s`, which lie before all flags. -/
theorem pointsBefore_entry {p i : Nat} {flags : List Bool} {passed o : Option Nat} {s : Set Nat}
    (below : ∀ q ∈ s, q < p) (hs : GreatestOf s passed)
    (h : (pointsBefore passed p flags)[i]? = some o) :
    GreatestOf {q | (q ∈ s ∨ Flagged p flags q) ∧ q < p + i} o := by
  induction flags generalizing p i passed s with
  | nil => cases h
  | cons allowed rest ih =>
    cases i with
    | zero =>
      have ho : passed = o := Option.some.inj h
      rw [← ho]
      refine hs.congr fun q => ⟨fun hq => ⟨Or.inl hq, below q hq⟩, fun hq => ?_⟩
      refine hq.1.resolve_right fun hf => ?_
      have hle := hf.le
      have hlt : q < p + 0 := hq.2
      omega
    | succ i =>
      have hnext : GreatestOf {q | q ∈ s ∨ allowed = true ∧ q = p}
          (if allowed then some p else passed) := by
        cases allowed with
        | true =>
          refine ⟨Or.inr ⟨rfl, rfl⟩, ?_⟩
          rintro q (hq | ⟨-, rfl⟩)
          · exact (below q hq).le
          · exact le_rfl
        | false =>
          refine hs.congr fun q => ⟨Or.inl, fun hq => ?_⟩
          exact hq.resolve_right fun hf => Bool.false_ne_true hf.1
      have hbelow : ∀ q ∈ {q | q ∈ s ∨ allowed = true ∧ q = p}, q < p + 1 := by
        rintro q (hq | ⟨-, rfl⟩)
        · have := below q hq
          omega
        · omega
      refine (ih hbelow hnext h).congr fun q => ?_
      have hpos : q < p + 1 + i ↔ q < p + (i + 1) := by omega
      simp only [Set.mem_ofPred_eq, flagged_cons, or_assoc, hpos]

theorem Domain.index?_of_mem {d : Domain} {p : Int} (h : d.min ≤ p ∧ p ≤ d.max) :
    d.index? p = some (p - d.min).toNat := if_pos h

theorem length_pointsAfter (p : Nat) (flags : List Bool) :
    (pointsAfter p flags).1.length = flags.length := by
  induction flags generalizing p with
  | nil => rfl
  | cons allowed rest ih => exact congrArg (· + 1) (ih (p + 1))

theorem length_pointsBefore (passed : Option Nat) (p : Nat) (flags : List Bool) :
    (pointsBefore passed p flags).length = flags.length := by
  induction flags generalizing passed p with
  | nil => rfl
  | cons allowed rest ih => exact congrArg (· + 1) (ih _ (p + 1))

namespace PointSet

variable {d : Domain}

theorem has_mem {s : PointSet d} {p : Int} (h : s.has p = true) : d.min ≤ p ∧ p ≤ d.max := by
  unfold has Domain.index? at h
  split at h
  next i hi =>
    split at hi
    next hp => exact hp
    next => cases hi
  next => cases h

theorem has_iff_flagged {s : PointSet d} {q : Nat} :
    s.has q = true ↔ Flagged d.min s.flags.toList q := by
  have hmin := d.min_le_max
  constructor
  · intro h
    have hm := has_mem h
    simp only [has, Domain.index?_of_mem hm] at h
    refine ⟨((q : Int) - d.min).toNat, ?_, by omega⟩
    rw [Array.getElem?_toList]
    generalize s.flags[((q : Int) - d.min).toNat]? = flag at h
    cases flag with
    | none => cases h
    | some b => exact congrArg some h
  · rintro ⟨k, hk, rfl⟩
    obtain ⟨hlt, -⟩ := List.getElem?_eq_some_iff.mp hk
    have hsize : k < d.size := by rw [← s.size_flags]; exact hlt
    have hm : (d.min : Int) ≤ (d.min + k : Nat) ∧ ((d.min + k : Nat) : Int) ≤ d.max := by
      unfold Domain.size at hsize
      omega
    have hi : (((d.min + k : Nat) : Int) - d.min).toNat = k := by omega
    have hf : s.flags[k]? = some true := by rwa [Array.getElem?_toList] at hk
    simp only [has, Domain.index?_of_mem hm, hi, hf]
    rfl

theorem after_least {s : PointSet d} {i : Nat} (hi : i < d.size) :
    LeastOf {q : Nat | s.has q = true ∧ d.min + i < q} s.after[i]?.join := by
  have hlen : i < (pointsAfter d.min s.flags.toList).1.length := by
    rw [length_pointsAfter, Array.length_toList, s.size_flags]
    exact hi
  have he : s.after[i]? = some (pointsAfter d.min s.flags.toList).1[i] := by
    rw [s.after_eq, List.getElem?_toArray, List.getElem?_eq_getElem hlen]
  rw [he, Option.join_some]
  refine (pointsAfter_entry (List.getElem?_eq_getElem hlen)).congr fun q => ?_
  simp only [Set.mem_ofPred_eq, has_iff_flagged]

theorem before_greatest {s : PointSet d} {i : Nat} (hi : i < d.size) :
    GreatestOf {q : Nat | s.has q = true ∧ q < d.min + i} s.before[i]?.join := by
  have hlen : i < (pointsBefore none d.min s.flags.toList).length := by
    rw [length_pointsBefore, Array.length_toList, s.size_flags]
    exact hi
  have he : s.before[i]? = some (pointsBefore none d.min s.flags.toList)[i] := by
    rw [s.before_eq, List.getElem?_toArray, List.getElem?_eq_getElem hlen]
  rw [he, Option.join_some]
  have hnone : GreatestOf (∅ : Set Nat) none := fun _ hx => hx
  refine (pointsBefore_entry (fun _ hx => hx.elim) hnone
    (List.getElem?_eq_getElem hlen)).congr fun q => ?_
  simp only [Set.mem_ofPred_eq, Set.mem_empty_iff_false, false_or, has_iff_flagged]

theorem has_iff_flag {s : PointSet d} {i : Nat} (hi : i < d.size) :
    s.has (d.min + i : Nat) = true ↔ s.flags[i]?.getD false = true := by
  have hm : (d.min : Int) ≤ (d.min + i : Nat) ∧ ((d.min + i : Nat) : Int) ≤ d.max := by
    have := d.min_le_max
    unfold Domain.size at hi
    omega
  have he : (((d.min + i : Nat) : Int) - d.min).toNat = i := by omega
  simp only [has, Domain.index?_of_mem hm, he]

theorem first?_least (s : PointSet d) : LeastOf {q : Nat | s.has q = true} s.first? := by
  have hz := has_iff_flag (s := s) d.size_pos
  unfold first?
  split
  next h =>
    refine ⟨hz.mpr h, ?_⟩
    intro q hq
    have := has_mem hq
    omega
  next h =>
    have hleast := after_least (s := s) d.size_pos
    refine hleast.congr fun q => ⟨And.left, fun hq => And.intro hq ?_⟩
    have hm := has_mem hq
    have hne : q ≠ d.min := by
      rintro rfl
      exact h (hz.mp hq)
    omega

theorem last?_greatest (s : PointSet d) : GreatestOf {q : Nat | s.has q = true} s.last? := by
  have hmin := d.min_le_max
  have hlast : d.min + (d.size - 1) = d.max := by
    unfold Domain.size
    omega
  have hlt : d.size - 1 < d.size := Nat.sub_lt d.size_pos Nat.one_pos
  have hz := has_iff_flag (s := s) hlt
  rw [hlast] at hz
  unfold last?
  split
  next h =>
    refine ⟨hz.mpr h, ?_⟩
    intro q hq
    have := has_mem hq
    omega
  next h =>
    have hgreatest := before_greatest (s := s) hlt
    refine hgreatest.congr fun q => ⟨And.left, fun hq => And.intro hq ?_⟩
    have hm := has_mem hq
    have hne : q ≠ d.max := by
      rintro rfl
      exact h (hz.mp hq)
    omega

theorem next?_leastOf (s : PointSet d) (p : Int) :
    LeastOf {q : Nat | s.has q = true ∧ p < q} (s.next? p) := by
  unfold next?
  split
  next hp =>
    refine (first?_least s).congr fun q => ⟨fun hq => ⟨hq, ?_⟩, fun hq => hq.1⟩
    have := has_mem hq
    omega
  next hp =>
    by_cases hmax : p ≤ d.max
    · have hm : (d.min : Int) ≤ p ∧ p ≤ d.max := ⟨by omega, hmax⟩
      have hi : (p - d.min).toNat < d.size := by
        unfold Domain.size
        omega
      rw [Domain.index?_of_mem hm, Option.bind_some]
      refine (after_least hi).congr fun q => ?_
      have he : d.min + (p - d.min).toNat < q ↔ p < q := by omega
      simp only [Set.mem_ofPred_eq, he]
    · have hn : d.index? p = none := if_neg fun h => hmax h.2
      rw [hn, Option.bind_none]
      rintro q ⟨hq, hlt⟩
      have := has_mem hq
      omega

theorem previous?_greatestOf (s : PointSet d) (p : Int) :
    GreatestOf {q : Nat | s.has q = true ∧ (q : Int) < p} (s.previous? p) := by
  unfold previous?
  split
  next hp =>
    refine (last?_greatest s).congr fun q => ⟨fun hq => ⟨hq, ?_⟩, fun hq => hq.1⟩
    have := has_mem hq
    omega
  next hp =>
    by_cases hmin : (d.min : Int) ≤ p
    · have hm : (d.min : Int) ≤ p ∧ p ≤ d.max := ⟨hmin, by omega⟩
      have hi : (p - d.min).toNat < d.size := by
        unfold Domain.size
        omega
      rw [Domain.index?_of_mem hm, Option.bind_some]
      refine (before_greatest hi).congr fun q => ?_
      have he : q < d.min + (p - d.min).toNat ↔ (q : Int) < p := by omega
      simp only [Set.mem_ofPred_eq, he]
    · have hn : d.index? p = none := if_neg fun h => hmin h.1
      rw [hn, Option.bind_none]
      rintro q ⟨hq, hlt⟩
      have := has_mem hq
      omega

end PointSet

end Timetable
