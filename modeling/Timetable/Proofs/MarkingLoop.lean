import Timetable.Proofs.InhabitedMerge
import Timetable.Proofs.MergeUnion

namespace Timetable

/-- How far the marking of a progression has come. -/
structure Marker where
  point : Nat
  flags : Array Bool

/-- What becomes of a turn of the marking loop, whose points are machine numbers. -/
inductive Turn
  /-- The points are used up. -/
  | passed
  | next (m : Marker)
  /-- The point was marked, but the one after it is no machine number. -/
  | overflowed (flags : Array Bool)
  /-- The point lies below the domain, so that it has no index. -/
  | underflow
  /-- The index lies behind the flags. -/
  | outOfRange

namespace Progression

def turn (g : Progression) (d : Domain) (m : Marker) : Turn :=
  if g.last < m.point then .passed
  else if m.point < d.min then .underflow
  else if h : m.point - d.min < m.flags.size then
    if m.point + g.step < UInt64.size then
      .next ⟨m.point + g.step, m.flags.set (m.point - d.min) true⟩
    else .overflowed (m.flags.set (m.point - d.min) true)
  else .outOfRange

/-- The loop comes to its end: it marks these points and leaves these flags. A loop that fails in
one of its turns, or that goes on forever, comes to no end. -/
inductive Marks (g : Progression) (d : Domain) : Marker → List Nat → Array Bool → Prop
  | passed {m} (h : g.turn d m = .passed) : Marks g d m [] m.flags
  | overflowed {m flags} (h : g.turn d m = .overflowed flags) : Marks g d m [m.point] flags
  | next {m m' ps flags} (h : g.turn d m = .next m') (rest : Marks g d m' ps flags) :
    Marks g d m (m.point :: ps) flags

variable {g : Progression} {d : Domain} {m : Marker}

theorem Marks.unique {ps qs : List Nat} {flags out : Array Bool} (h : g.Marks d m ps flags)
    (h' : g.Marks d m qs out) : ps = qs ∧ flags = out := by
  induction h generalizing qs with
  | passed ht => cases h' <;> simp_all
  | overflowed ht => cases h' <;> simp_all
  | next ht _ ih =>
    cases h' with
    | passed ht' => simp_all
    | overflowed ht' => simp_all
    | next ht' rest' =>
      cases Turn.next.inj (ht.symm.trans ht')
      simpa using ih rest'

/-- A turn fails nowhere between the ends of the domain, given a flag for each of its points. -/
theorem turn_eq (hmin : d.min ≤ m.point) (hmax : g.last ≤ d.max) (hsize : m.flags.size = d.size)
    (hle : m.point ≤ g.last) :
    g.turn d m =
      if m.point + g.step < UInt64.size then
        .next ⟨m.point + g.step, allowPoint d m.flags m.point⟩
      else .overflowed (allowPoint d m.flags m.point) := by
  have hi : m.point - d.min < m.flags.size := by
    rw [hsize, Domain.size]
    omega
  have hindex : d.index? m.point = some (m.point - d.min) := by
    rw [Domain.index?_of_mem (by omega)]
    congr 1
    omega
  have hset : allowPoint d m.flags m.point = m.flags.set (m.point - d.min) true := by
    simp only [allowPoint, hindex, Array.setIfInBounds_def, dif_pos hi]
  rw [turn, if_neg (by omega), if_neg (by omega), dif_pos hi, hset]

/-- Without a step the loop marks the same point forever. -/
theorem not_marks_of_step_eq_zero (hstep : g.step = 0) (hmin : d.min ≤ m.point)
    (hmax : g.last ≤ d.max) (hsize : m.flags.size = d.size) (hle : m.point ≤ g.last)
    (hlt : m.point < UInt64.size) (ps : List Nat) (flags : Array Bool) :
    ¬g.Marks d m ps flags := by
  intro h
  induction h with
  | passed ht => simp [turn_eq hmin hmax hsize hle, hstep, hlt] at ht
  | overflowed ht => simp [turn_eq hmin hmax hsize hle, hstep, hlt] at ht
  | next ht _ ih =>
    rw [turn_eq hmin hmax hsize hle, hstep, Nat.add_zero, if_pos hlt] at ht
    cases Turn.next.inj ht
    exact ih hmin (by rw [size_allowPoint, hsize]) hle hlt

theorem points_eq_cons (hstep : 0 < g.step) (hle : g.first ≤ g.last) :
    g.points = g.first :: { g with first := g.first + g.step }.points := by
  simp only [points, if_pos hle]
  rw [List.range'_succ]
  congr 1
  split
  next hnext =>
    rw [Nat.div_eq_sub_div hstep (by omega), Nat.sub_sub]
  next hnext =>
    rw [Nat.div_eq_of_lt (by omega)]
    rfl

theorem points_eq_nil (hlt : g.last < g.first) : g.points = [] := by
  simp only [points, if_neg (Nat.not_le.mpr hlt)]

/-- The loop goes through the points of the progression from where the marker is, also when the
number after the last of them is too big for the machine. -/
theorem marks_points (hstep : 0 < g.step) (hmin : d.min ≤ m.point) (hmax : g.last ≤ d.max)
    (hfits : d.max < UInt64.size) (hsize : m.flags.size = d.size) :
    g.Marks d m { g with first := m.point }.points
      ({ g with first := m.point }.points.foldl (allowPoint d) m.flags) := by
  -- By induction on how many numbers are left up to the last: each turn leaves fewer of them.
  induction hn : g.last + 1 - m.point using Nat.strong_induction_on generalizing m with
  | _ n ih =>
    by_cases hle : m.point ≤ g.last
    · have hturn := turn_eq hmin hmax hsize hle
      rw [points_eq_cons (g := { g with first := m.point }) hstep hle, List.foldl_cons]
      by_cases hnext : m.point + g.step < UInt64.size
      · rw [if_pos hnext] at hturn
        have hsize' : (allowPoint d m.flags m.point).size = d.size := by
          rw [size_allowPoint, hsize]
        exact .next hturn (ih _ (by simp only; omega) (by simp only; omega) hsize' rfl)
      · rw [if_neg hnext] at hturn
        rw [points_eq_nil (g := { g with first := m.point + g.step }) (by simp only; omega)]
        exact .overflowed hturn
    · have hlt : g.last < m.point := Nat.lt_of_not_le hle
      rw [points_eq_nil (g := { g with first := m.point }) hlt]
      exact .passed (by rw [turn, if_pos hlt])

end Progression

theorem Field.domain_max_lt (f : Field) : f.domain.max < UInt64.size := by
  cases f <;> decide

theorem Clause.Lawful.step_pos {field : Field} {c : Clause} (h : c.Lawful field) :
    0 < (c.progression field.domain).step := by
  have hpos : ∀ step, c.step = some step → 0 < step.toNat := by
    intro step hstep
    refine Nat.pos_of_ne_zero fun hzero => h.step_ne_zero ?_
    rw [hstep, UInt64.toNat_inj.mp (hzero.trans UInt64.toNat_zero.symm)]
  obtain ⟨_ | first, _ | last, _ | step⟩ := c <;> simp [progression, hpos]

/-- The loop for a clause, from flags as earlier clauses left them, ends with these flags. -/
def Clause.Marks (d : Domain) (c : Clause) (flags : Array Bool) (ps : List Nat)
    (out : Array Bool) : Prop :=
  (c.progression d).Marks d ⟨(c.progression d).first, flags⟩ ps out

theorem Clause.Lawful.marks_iff {field : Field} {c : Clause} (h : c.Lawful field)
    {flags : Array Bool} (hsize : flags.size = field.domain.size) {ps : List Nat}
    {out : Array Bool} : c.Marks field.domain flags ps out ↔
      ps = (c.progression field.domain).points ∧ out = allowClause field.domain flags c := by
  obtain ⟨hfirst, hlast⟩ := h.progression_mem
  have hmarks : c.Marks field.domain flags (c.progression field.domain).points
      (allowClause field.domain flags c) :=
    Progression.marks_points h.step_pos hfirst hlast field.domain_max_lt hsize
  constructor
  · intro hm
    exact hm.unique hmarks
  · rintro ⟨rfl, rfl⟩
    exact hmarks

/-- The clauses of a list are marked one after the other, each to the end. -/
inductive MarksAll (d : Domain) : List Clause → Array Bool → Array Bool → Prop
  | nil {flags} : MarksAll d [] flags flags
  | cons {c cs flags ps mid out} (first : c.Marks d flags ps mid) (rest : MarksAll d cs mid out) :
    MarksAll d (c :: cs) flags out

theorem marksAll_iff {field : Field} {cs : List Clause} (h : ∀ c ∈ cs, c.Lawful field)
    {flags : Array Bool} (hsize : flags.size = field.domain.size) {out : Array Bool} :
    MarksAll field.domain cs flags out ↔ out = cs.foldl (allowClause field.domain) flags := by
  induction cs generalizing flags with
  | nil =>
    constructor
    · intro hm
      cases hm
      rfl
    · rintro rfl
      exact .nil
  | cons c cs ih =>
    obtain ⟨hc, hcs⟩ := List.forall_mem_cons.mp h
    have hsize' : (allowClause field.domain flags c).size = field.domain.size := by
      rw [allowClause, size_foldl_allowPoint, hsize]
    rw [List.foldl_cons, ← ih hcs hsize']
    constructor
    · intro hm
      cases hm with
      | cons hfirst hrest =>
        obtain ⟨-, rfl⟩ := (hc.marks_iff hsize).mp hfirst
        exact hrest
    · intro hrest
      exact .cons ((hc.marks_iff hsize).mpr ⟨rfl, rfl⟩) hrest

/-- The building of a field's set comes to its end. A lone wildcard needs no marking. -/
inductive BuildsField (d : Domain) (cs : List Clause) : PointSet d → Prop
  | wildcard (h : cs = [.any]) : BuildsField d cs .full
  | marked {flags} (h : cs ≠ [.any]) (hsize : flags.size = d.size)
    (marks : MarksAll d cs (Array.replicate d.size false) flags) :
    BuildsField d cs (.ofFlags flags hsize)

theorem buildsField_iff {field : Field} {cs : List Clause} (h : ∀ c ∈ cs, c.Lawful field)
    {s : PointSet field.domain} :
    BuildsField field.domain cs s ↔ s = .ofClauses field.domain cs := by
  have hmarks {flags : Array Bool} :
      MarksAll field.domain cs (Array.replicate field.domain.size false) flags ↔
        flags = allowClauses field.domain cs := marksAll_iff h Array.size_replicate
  unfold PointSet.ofClauses
  constructor
  · rintro (hany | ⟨hany, hsize, hflags⟩)
    · rw [if_pos hany]
    · cases hmarks.mp hflags
      rw [if_neg hany]
  · rintro rfl
    split
    next hany => exact .wildcard hany
    next hany => exact .marked hany _ (hmarks.mpr rfl)

/-- The building of all sets comes to its end with this outcome. -/
inductive Pattern.Builds (p : Pattern) : Except Diagnostic Allowance → Prop
  | refused {e} (h : p.validate = .error e) : Builds p (.error e)
  | built {a : Allowance} (h : p.validate = .ok ())
    (fields : ∀ f, BuildsField f.domain (p.get f) (a.get f)) : Builds p (.ok a)

theorem Pattern.builds_iff {p : Pattern} {r : Except Diagnostic Allowance} :
    p.Builds r ↔ r = p.allowance := by
  have hfield (hok : p.validate = .ok ()) (f : Field) {s : PointSet f.domain} :
      BuildsField f.domain (p.get f) s ↔ s = p.merge.get f := by
    rw [merge, ByField.get_ofFn]
    exact buildsField_iff (lawful_of_violation?_eq_none (validate_eq_ok_iff.mp hok f))
  constructor
  · rintro (hrefused | ⟨hok, hfields⟩)
    · rw [allowance, hrefused]
      rfl
    · refine (allowance_eq_ok_iff.mpr ⟨hok, ?_⟩).symm
      exact ByField.ext_get fun f => (hfield hok f).mp (hfields f)
  · rintro rfl
    cases hvalidate : p.validate with
    | error e =>
      rw [allowance, hvalidate]
      exact .refused hvalidate
    | ok u =>
      rw [allowance_eq_ok_iff.mpr ⟨hvalidate, rfl⟩]
      exact .built hvalidate fun f => (hfield hvalidate f).mpr rfl

/-- Building the sets of a pattern comes to its end with what merging says, whatever numbers the
pattern has. In a valid pattern the loop for each clause ends and has an index for each point. -/
theorem building_ends (p : Pattern) :
    (∀ r, p.Builds r ↔ r = p.allowance) ∧
    (p.validate = .ok () → ∀ f, ∀ c ∈ p.get f, ∀ flags : Array Bool, flags.size = f.domain.size →
      ∃ ps out, c.Marks f.domain flags ps out ∧ ps = (c.progression f.domain).points ∧
        ∀ q ∈ ps, f.domain.min ≤ q ∧ q - f.domain.min < flags.size) := by
  refine ⟨fun r => Pattern.builds_iff, fun hok f c hc flags hsize => ?_⟩
  have hlawful := lawful_of_violation?_eq_none (Pattern.validate_eq_ok_iff.mp hok f) c hc
  refine ⟨_, _, (hlawful.marks_iff hsize).mpr ⟨rfl, rfl⟩, rfl, fun q hq => ?_⟩
  obtain ⟨hfirst, hlast⟩ := hlawful.progression_mem
  obtain ⟨⟨hge, hle⟩, -⟩ := Progression.mem_points.mp hq
  rw [hsize, Domain.size]
  omega

/-- A pattern with a step that leads beyond the machine numbers at once. -/
def hugeStep : Pattern := { Pattern.always with minute := spreadMinutes }

theorem building_ends_hugeStep :
    hugeStep.validate = .ok () ∧ hugeStep.Builds (.ok hugeStep.merge) ∧
      ∃ out, (⟨some 7, none, some 18446744073709551615⟩ : Clause).Marks Field.minute.domain
        (Array.replicate Field.minute.domain.size false) [7] out := by
  have hok : hugeStep.validate = .ok () := rfl
  obtain ⟨hbuilds, hmarks⟩ := building_ends hugeStep
  refine ⟨hok, (hbuilds _).mpr (Pattern.allowance_eq_ok_iff.mpr ⟨hok, rfl⟩).symm, ?_⟩
  obtain ⟨ps, out, hout, rfl, -⟩ := hmarks hok .minute ⟨some 7, none, some 18446744073709551615⟩
    (by simp [hugeStep, spreadMinutes, ByField.get]) _ Array.size_replicate
  exact ⟨out, hout⟩

end Timetable
