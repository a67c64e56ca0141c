import Timetable.Proofs.ClauseRules
import Timetable.Proofs.MergePoints

namespace Timetable

/-- Whether a number is between the ends of a progression and a whole number of steps from its
first. -/
def Progression.Contains (g : Progression) (v : Int) : Prop :=
  (g.first ≤ v ∧ v ≤ g.last) ∧ (g.step : Int) ∣ v - g.first

namespace Clause

/-- What a clause stands for are the domain's numbers in its progression. -/
theorem denotes_iff_contains {d : Domain} {c : Clause} {v : Int} :
    c.Denotes d v ↔ (d.min ≤ v ∧ v ≤ d.max) ∧ (c.progression d).Contains v := by
  unfold Progression.Contains
  by_cases hv : 0 ≤ v
  · lift v to Nat using hv
    rw [denotes_iff_mem_points, Progression.mem_points]
    simp only [Int.ofNat_le]
  · constructor
    · intro h
      have := h.1.1
      omega
    · intro h
      have := h.1.1
      omega

/-- The progression of a lawful clause does not leave the domain. -/
theorem Lawful.progression_mem {field : Field} {c : Clause} (h : c.Lawful field) :
    field.domain.min ≤ (c.progression field.domain).first ∧
      (c.progression field.domain).last ≤ field.domain.max := by
  have hmem := h.ends_mem
  obtain ⟨_ | first, _ | last, _ | step⟩ := c <;>
    simp_all [progression]

theorem Lawful.denotes_iff {field : Field} {c : Clause} (h : c.Lawful field) {v : Int} :
    c.Denotes field.domain v ↔ (c.progression field.domain).Contains v := by
  obtain ⟨hfirst, hlast⟩ := h.progression_mem
  rw [denotes_iff_contains]
  refine ⟨And.right, fun hv => ⟨?_, hv⟩⟩
  have := hv.1
  omega

end Clause

namespace PointSet

variable {d : Domain}

/-- A set is known by its points: they determine the neighbours that it keeps of each. -/
theorem ext_has {s t : PointSet d} (h : ∀ v, s.has v = t.has v) : s = t := by
  apply ext_flags
  apply Array.ext
  · rw [s.size_flags, t.size_flags]
  · intro i hs ht
    have hi : i < d.size := s.size_flags ▸ hs
    have hflag := (has_iff_flag (s := s) hi).symm.trans
      ((Bool.eq_iff_iff.mp (h (d.min + i : Nat))).trans (has_iff_flag hi))
    rw [Array.getElem?_eq_getElem hs, Array.getElem?_eq_getElem ht] at hflag
    exact Bool.eq_iff_iff.mpr hflag

theorem has_ofClauses_mono {cs ds : List Clause} (h : cs ⊆ ds) {v : Int}
    (hv : (ofClauses d cs).has v = true) : (ofClauses d ds).has v = true := by
  obtain ⟨c, hc, hd⟩ := (has_ofClauses cs v).mp hv
  exact (has_ofClauses ds v).mpr ⟨c, h hc, hd⟩

/-- Neither the order nor the number of times in which clauses are listed matters. -/
theorem ofClauses_congr {cs ds : List Clause} (h : ∀ c, c ∈ ds ↔ c ∈ cs) :
    ofClauses d ds = ofClauses d cs :=
  ext_has fun _ => Bool.eq_iff_iff.mpr
    ⟨has_ofClauses_mono fun c hc => (h c).mp hc, has_ofClauses_mono fun c hc => (h c).mpr hc⟩

/-- A list is merged as marking its clauses one by one would, also where that is not done. -/
theorem ofClauses_eq_ofFlags (cs : List Clause) :
    ofClauses d cs = ofFlags (allowClauses d cs) (size_allowClauses d cs) :=
  ext_has fun v => Bool.eq_iff_iff.mpr
    ((has_ofClauses cs v).trans (has_ofFlags_allowClauses cs v).symm)

end PointSet

/-- Merging the clauses of a valid field allows the numbers of their progressions and no others.
Their order and repetitions do not matter, more clauses allow no less, and a lone wildcard, which
is not marked point by point, gives the very set with its neighbours that marking would. -/
theorem merge_is_union {field : Field} {cs : List Clause} (h : violation? field cs = none) :
    (∀ v : Int, (PointSet.ofClauses field.domain cs).has v = true ↔
      ∃ c ∈ cs, (c.progression field.domain).Contains v) ∧
    (∀ ds : List Clause, (∀ c, c ∈ ds ↔ c ∈ cs) →
      PointSet.ofClauses field.domain ds = PointSet.ofClauses field.domain cs) ∧
    (∀ ds : List Clause, cs ⊆ ds → ∀ v, (PointSet.ofClauses field.domain cs).has v = true →
      (PointSet.ofClauses field.domain ds).has v = true) ∧
    PointSet.ofClauses field.domain [.any] = .full ∧
    (.full : PointSet field.domain) =
      .ofFlags (allowClauses field.domain [.any]) (size_allowClauses field.domain [.any]) := by
  have hlawful := lawful_of_violation?_eq_none h
  refine ⟨fun v => ?_, fun ds => PointSet.ofClauses_congr,
    fun ds hds v => PointSet.has_ofClauses_mono hds, rfl, PointSet.ofClauses_eq_ofFlags [.any]⟩
  rw [PointSet.has_ofClauses]
  refine exists_congr fun c => and_congr_right fun hc => ?_
  exact (hlawful c hc).denotes_iff

/-- The clauses of `*/25,50,10-30/7,7/18446744073709551615`. -/
def spreadMinutes : List Clause :=
  [.every 25, .point 50, .steppedRange 10 30 7, ⟨some 7, none, some 18446744073709551615⟩]

theorem merge_is_union_spreadMinutes :
    violation? .minute spreadMinutes = none ∧
      (∀ v : Int, (PointSet.ofClauses Field.minute.domain spreadMinutes).has v = true ↔
        v ∈ [0, 7, 10, 17, 24, 25, 50]) ∧
      PointSet.ofClauses Field.minute.domain (spreadMinutes.reverse ++ spreadMinutes) =
        PointSet.ofClauses Field.minute.domain spreadMinutes := by
  have hvalid : violation? .minute spreadMinutes = none := by decide
  obtain ⟨hpoints, hcongr, -⟩ := merge_is_union hvalid
  refine ⟨hvalid, fun v => (hpoints v).trans ?_, hcongr _ fun c => ?_⟩
  · simp only [spreadMinutes, List.mem_cons, List.not_mem_nil, or_false, exists_eq_or_imp,
      exists_eq_left, Clause.progression, Clause.every, Clause.point, Clause.steppedRange,
      Progression.Contains, Field.domain, UInt64.reduceToNat, Int.cast_ofNat_Int]
    omega
  · rw [List.mem_append, List.mem_reverse, or_self]

end Timetable
