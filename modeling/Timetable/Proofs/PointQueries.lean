import Timetable.Proofs.PointNeighbours

namespace Timetable

/-- The points that are allowed by flags that stand for the points from `p` on. -/
def pointsFrom (p : Nat) (flags : List Bool) : List Nat :=
  ((List.range' p flags.length).zip flags).filterMap fun (q, allowed) =>
    if allowed then some q else none

theorem pointsFrom_cons (p : Nat) (allowed : Bool) (rest : List Bool) :
    pointsFrom p (allowed :: rest) =
      if allowed then p :: pointsFrom (p + 1) rest else pointsFrom (p + 1) rest := by
  cases allowed <;> rfl

theorem mem_pointsFrom {p q : Nat} {flags : List Bool} :
    q ∈ pointsFrom p flags ↔ Flagged p flags q := by
  induction flags generalizing p with
  | nil => exact iff_of_false List.not_mem_nil not_flagged_nil
  | cons allowed rest ih =>
    rw [pointsFrom_cons, flagged_cons, ← ih]
    cases allowed <;> simp

theorem pairwise_pointsFrom (p : Nat) (flags : List Bool) :
    (pointsFrom p flags).Pairwise (· < ·) := by
  induction flags generalizing p with
  | nil => exact List.Pairwise.nil
  | cons allowed rest ih =>
    rw [pointsFrom_cons]
    cases allowed with
    | false => exact ih (p + 1)
    | true =>
      refine List.pairwise_cons.mpr ⟨fun q hq => ?_, ih (p + 1)⟩
      have hle := (mem_pointsFrom.mp hq).le
      omega

namespace PointSet

variable {d : Domain}

theorem toList_eq (s : PointSet d) : s.toList = pointsFrom d.min s.flags.toList := by
  unfold toList pointsFrom
  rw [Array.length_toList, s.size_flags]

theorem mem_toList {s : PointSet d} {q : Nat} : q ∈ s.toList ↔ s.has q = true := by
  rw [toList_eq, mem_pointsFrom, has_iff_flagged]

theorem pairwise_toList (s : PointSet d) : s.toList.Pairwise (· < ·) := by
  rw [toList_eq]
  exact pairwise_pointsFrom _ _

theorem isEmpty_iff {s : PointSet d} : s.isEmpty = true ↔ ∀ v, s.has v = false := by
  have hsome : s.isEmpty = false ↔ ∃ v, s.has v = true := by
    rw [isEmpty, Bool.not_eq_false', Array.any_eq_true]
    constructor
    · rintro ⟨i, hi, hflag⟩
      refine ⟨(d.min + i : Nat), (has_iff_flag (s.size_flags ▸ hi)).mpr ?_⟩
      rw [Array.getElem?_eq_getElem hi]
      exact hflag
    · rintro ⟨v, hv⟩
      have hm := has_mem hv
      lift v to Nat using by omega
      obtain ⟨k, hk, -⟩ := has_iff_flagged.mp hv
      obtain ⟨hi, hflag⟩ := List.getElem?_eq_some_iff.mp hk
      exact ⟨k, hi, hflag⟩
  rw [← Bool.not_eq_false, hsome]
  simp

end PointSet

/-- Whatever is asked about a set of points is answered as its points say, wherever the point that
is asked about lies: for the neighbours of a point the nearest point beyond it, for the ends the
extreme points, and the list holds each point once, in ascending order. -/
theorem point_queries_exact {d : Domain} (s : PointSet d) :
    (∀ p : Int, LeastOf {q : Nat | s.has q = true ∧ p < q} (s.next? p)) ∧
    (∀ p : Int, GreatestOf {q : Nat | s.has q = true ∧ (q : Int) < p} (s.previous? p)) ∧
    (∀ p : Int, p < d.min ∨ d.max < p → s.has p = false) ∧
    LeastOf {q : Nat | s.has q = true} s.first? ∧
    GreatestOf {q : Nat | s.has q = true} s.last? ∧
    (s.isEmpty = true ↔ ∀ p : Int, s.has p = false) ∧
    s.toList.Pairwise (· < ·) ∧
    ∀ q : Nat, q ∈ s.toList ↔ s.has q = true := by
  refine ⟨s.next?_leastOf, s.previous?_greatestOf, fun p hp => ?_, s.first?_least,
    s.last?_greatest, PointSet.isEmpty_iff, s.pairwise_toList, fun q => PointSet.mem_toList⟩
  by_contra h
  have hm := PointSet.has_mem (Bool.not_eq_false _ ▸ h)
  omega

end Timetable
