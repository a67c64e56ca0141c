import Timetable.Merge
import Timetable.Proofs.PointNeighbours

namespace Timetable

/-- What a clause stands for over a domain: a wildcard for the whole domain, a single value for
itself, and a step for every so many numbers from where the clause starts. -/
def Clause.Denotes (d : Domain) (c : Clause) (v : Int) : Prop :=
  (d.min ≤ v ∧ v ≤ d.max) ∧
    match c.first, c.last, c.step with
    | none, _, none => True
    | none, _, some step => (step.toNat : Int) ∣ v - d.min
    | some first, none, none => v = first.toNat
    | some first, none, some step => first.toNat ≤ v ∧ (step.toNat : Int) ∣ v - first.toNat
    | some first, some last, none => first.toNat ≤ v ∧ v ≤ last.toNat
    | some first, some last, some step =>
      (first.toNat ≤ v ∧ v ≤ last.toNat) ∧ (step.toNat : Int) ∣ v - first.toNat

theorem Progression.mem_points {g : Progression} {q : Nat} :
    q ∈ g.points ↔ (g.first ≤ q ∧ q ≤ g.last) ∧ (g.step : Int) ∣ (q : Int) - g.first := by
  unfold points
  split
  next hle =>
    rw [List.mem_range']
    constructor
    · rintro ⟨i, hi, rfl⟩
      have hsteps : i ≤ (g.last - g.first) / g.step := Nat.le_of_lt_succ hi
      have hbound : g.step * i ≤ g.last - g.first := by
        rw [Nat.mul_comm]
        exact Nat.le_trans (Nat.mul_le_mul_right _ hsteps) (Nat.div_mul_le_self _ _)
      refine ⟨by omega, (i : Int), ?_⟩
      push_cast
      omega
    · rintro ⟨⟨hfirst, hlast⟩, hdvd⟩
      have hdvd : g.step ∣ q - g.first := by
        have hcast : ((q - g.first : Nat) : Int) = (q : Int) - g.first := by omega
        rw [← hcast] at hdvd
        exact Int.natCast_dvd_natCast.mp hdvd
      obtain ⟨i, hi⟩ := hdvd
      rcases Nat.eq_zero_or_pos g.step with hz | hpos
      · rw [hz, Nat.zero_mul] at hi
        exact ⟨0, Nat.succ_pos _, by omega⟩
      · refine ⟨i, Nat.lt_succ_of_le ?_, by omega⟩
        rw [Nat.le_div_iff_mul_le hpos, Nat.mul_comm, ← hi]
        omega
  next hlt =>
    constructor
    · intro h
      cases h
    · intro h
      omega

theorem Clause.denotes_iff_mem_points {d : Domain} {c : Clause} {q : Nat} :
    c.Denotes d q ↔ (d.min ≤ q ∧ q ≤ d.max) ∧ q ∈ (c.progression d).points := by
  have hone : ∀ x : Int, ((1 : Nat) : Int) ∣ x ↔ True := by
    intro x
    exact iff_true_intro (Int.one_dvd x)
  obtain ⟨first, last, step⟩ := c
  rw [Progression.mem_points]
  unfold Denotes progression
  cases first with
  | none =>
    cases step with
    | none =>
      simp only [hone, and_true]
      omega
    | some step =>
      simp only [Int.ofNat_le]
      tauto
  | some first =>
    cases last with
    | none =>
      cases step with
      | none =>
        simp only [hone, and_true]
        omega
      | some step =>
        simp only [Int.ofNat_le]
        tauto
    | some last =>
      cases step with
      | none =>
        simp only [hone, and_true]
        omega
      | some step =>
        simp only [Int.ofNat_le]

theorem flagged_set {p q i : Nat} {flags : List Bool} (hi : i < flags.length) :
    Flagged p (flags.set i true) q ↔ Flagged p flags q ∨ q = p + i := by
  constructor
  · rintro ⟨k, hk, rfl⟩
    by_cases hki : i = k
    · exact Or.inr (by omega)
    · rw [List.getElem?_set_ne hki] at hk
      exact Or.inl ⟨k, hk, rfl⟩
  · rintro (⟨k, hk, rfl⟩ | rfl)
    · by_cases hki : i = k
      · subst hki
        exact ⟨i, List.getElem?_set_self hi, rfl⟩
      · refine ⟨k, ?_, rfl⟩
        rw [List.getElem?_set_ne hki]
        exact hk
    · exact ⟨i, List.getElem?_set_self hi, rfl⟩

section Marking

variable {d : Domain} {flags : Array Bool} {q : Nat}

theorem flagged_allowPoint (hs : flags.size = d.size) (p : Nat) :
    Flagged d.min (allowPoint d flags p).toList q ↔
      Flagged d.min flags.toList q ∨ (d.min ≤ q ∧ q ≤ d.max) ∧ q = p := by
  have hmin := d.min_le_max
  unfold allowPoint
  split
  next i hi =>
    obtain ⟨hp, hmax⟩ := Domain.index?_eq_some hi
    have hlt : i < flags.toList.length := by
      rw [Array.length_toList, hs]
      unfold Domain.size
      omega
    rw [Array.toList_setIfInBounds, flagged_set hlt]
    have hq : q = d.min + i ↔ (d.min ≤ q ∧ q ≤ d.max) ∧ q = p := by omega
    rw [hq]
  next hn =>
    have hout : ¬((d.min ≤ q ∧ q ≤ d.max) ∧ q = p) := by
      rintro ⟨hm, rfl⟩
      rw [Domain.index?_of_mem (by omega)] at hn
      cases hn
    exact (or_iff_left hout).symm

theorem flagged_foldl_allowPoint (hs : flags.size = d.size) (ps : List Nat) :
    Flagged d.min (ps.foldl (allowPoint d) flags).toList q ↔
      Flagged d.min flags.toList q ∨ (d.min ≤ q ∧ q ≤ d.max) ∧ q ∈ ps := by
  induction ps generalizing flags with
  | nil => simp
  | cons p ps ih =>
    rw [List.foldl_cons, ih (by rw [size_allowPoint, hs]), flagged_allowPoint hs, List.mem_cons]
    tauto

theorem flagged_foldl_allowClause (hs : flags.size = d.size) (cs : List Clause) :
    Flagged d.min (cs.foldl (allowClause d) flags).toList q ↔
      Flagged d.min flags.toList q ∨ ∃ c ∈ cs, c.Denotes d q := by
  induction cs generalizing flags with
  | nil => simp
  | cons c cs ih =>
    have hone := flagged_foldl_allowPoint (q := q) hs (c.progression d).points
    rw [← Clause.denotes_iff_mem_points] at hone
    have hsize : (allowClause d flags c).size = d.size := by
      rw [allowClause, size_foldl_allowPoint, hs]
    rw [List.foldl_cons, ih hsize, allowClause, hone]
    simp only [List.mem_cons, exists_eq_or_imp, or_assoc]

theorem flagged_allowClauses (cs : List Clause) :
    Flagged d.min (allowClauses d cs).toList q ↔ ∃ c ∈ cs, c.Denotes d q := by
  have hnone : ¬Flagged d.min (Array.replicate d.size false).toList q := by
    rintro ⟨k, hk, -⟩
    rw [Array.toList_replicate, List.getElem?_replicate] at hk
    split at hk <;> cases hk
  unfold allowClauses
  rw [flagged_foldl_allowClause Array.size_replicate, or_iff_right hnone]

end Marking

namespace PointSet

variable {d : Domain}

theorem has_full (v : Int) : (full : PointSet d).has v = true ↔ d.min ≤ v ∧ v ≤ d.max := by
  constructor
  · exact has_mem
  · intro hm
    have hlt : (v - d.min).toNat < d.size := by
      unfold Domain.size
      omega
    simp only [has, Domain.index?_of_mem hm, full, ofFlags]
    rw [Array.getElem?_eq_getElem (by rwa [Array.size_replicate]), Array.getElem_replicate]
    rfl

/-- Marking allows exactly what some clause of the list stands for. -/
theorem has_ofFlags_allowClauses (cs : List Clause) (v : Int) :
    (ofFlags (allowClauses d cs) (size_allowClauses d cs)).has v = true ↔
      ∃ c ∈ cs, c.Denotes d v := by
  constructor
  · intro h
    have hm := has_mem h
    have hv : ((v.toNat : Nat) : Int) = v := by omega
    rw [← hv] at h ⊢
    exact (flagged_allowClauses cs).mp (has_iff_flagged.mp h)
  · rintro ⟨c, hc, hd⟩
    have hm := hd.1
    have hv : ((v.toNat : Nat) : Int) = v := by omega
    rw [← hv] at hd ⊢
    exact has_iff_flagged.mpr ((flagged_allowClauses cs).mpr ⟨c, hc, hd⟩)

/-- Merging allows exactly what some clause of the list stands for. -/
theorem has_ofClauses (cs : List Clause) (v : Int) :
    (ofClauses d cs).has v = true ↔ ∃ c ∈ cs, c.Denotes d v := by
  unfold ofClauses
  split
  next hany =>
    subst hany
    rw [has_full]
    simp [Clause.Denotes, Clause.any]
  next => exact has_ofFlags_allowClauses cs v

end PointSet

end Timetable
