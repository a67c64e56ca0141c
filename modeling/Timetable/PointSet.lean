import Timetable.Field

namespace Timetable

/-- For each flag the least allowed point behind it, and the least allowed point of all, where
the flags stand for the points from `p` on. -/
def pointsAfter (p : Nat) : List Bool → List (Option Nat) × Option Nat
  | [] => ([], none)
  | allowed :: rest =>
    let (table, least) := pointsAfter (p + 1) rest
    (least :: table, if allowed then some p else least)

/-- For each flag the greatest allowed point before it, where the flags stand for the points from
`p` on and `passed` is the greatest allowed point below `p`. -/
def pointsBefore (passed : Option Nat) (p : Nat) : List Bool → List (Option Nat)
  | [] => []
  | allowed :: rest => passed :: pointsBefore (if allowed then some p else passed) (p + 1) rest

theorem le_of_pointsAfter_least {p q : Nat} {flags : List Bool}
    (h : (pointsAfter p flags).2 = some q) : p ≤ q := by
  induction flags generalizing p with
  | nil => cases h
  | cons allowed rest ih =>
    simp only [pointsAfter] at h
    split at h
    next => cases h; exact Nat.le_refl _
    next => exact Nat.le_of_succ_le (ih h)

theorem lt_of_pointsAfter {p q i : Nat} {flags : List Bool}
    (h : (pointsAfter p flags).1[i]? = some (some q)) : p + i < q := by
  induction flags generalizing p i with
  | nil => cases h
  | cons allowed rest ih =>
    cases i with
    | zero => exact le_of_pointsAfter_least (Option.some.inj h)
    | succ i => have : p + 1 + i < q := ih h; omega

theorem lt_of_pointsBefore {p q i : Nat} {passed : Option Nat} {flags : List Bool}
    (hp : ∀ x, passed = some x → x < p)
    (h : (pointsBefore passed p flags)[i]? = some (some q)) : q < p + i := by
  induction flags generalizing p i passed with
  | nil => cases h
  | cons allowed rest ih =>
    cases i with
    | zero => exact hp q (Option.some.inj h)
    | succ i =>
      have : q < p + 1 + i := ih (fun x hx => ?_) h
      · omega
      · split at hx
        next => cases hx; exact Nat.lt_succ_self _
        next => exact Nat.lt_succ_of_lt (hp x hx)

/-- A set of points of a domain, which knows the nearest allowed point on either side of each
point of the domain. -/
structure PointSet (d : Domain) where
  flags : Array Bool
  after : Array (Option Nat)
  before : Array (Option Nat)
  size_flags : flags.size = d.size
  after_eq : after = (pointsAfter d.min flags.toList).1.toArray
  before_eq : before = (pointsBefore none d.min flags.toList).toArray
  deriving DecidableEq

/-- The position of a point within the domain. -/
def Domain.index? (d : Domain) (p : Int) : Option Nat :=
  if d.min ≤ p ∧ p ≤ d.max then some (p - d.min).toNat else none

theorem Domain.index?_eq_some {d : Domain} {p : Int} {i : Nat} (h : d.index? p = some i) :
    p = d.min + i ∧ p ≤ d.max := by
  unfold index? at h
  split at h
  next hp => cases h; omega
  next => cases h

namespace PointSet

variable {d : Domain}

def ofFlags (flags : Array Bool) (h : flags.size = d.size) : PointSet d where
  flags := flags
  after := (pointsAfter d.min flags.toList).1.toArray
  before := (pointsBefore none d.min flags.toList).toArray
  size_flags := h
  after_eq := rfl
  before_eq := rfl

theorem ext_flags {s t : PointSet d} (h : s.flags = t.flags) : s = t := by
  obtain ⟨flags, after, before, hs, ha, hb⟩ := s
  obtain ⟨_, _, _, _, ha', hb'⟩ := t
  cases h
  subst ha hb ha' hb'
  rfl

def full : PointSet d := ofFlags (Array.replicate d.size true) Array.size_replicate

def has (s : PointSet d) (p : Int) : Bool :=
  match d.index? p with
  | some i => s.flags[i]?.getD false
  | none => false

def first? (s : PointSet d) : Option Nat :=
  if s.flags[0]?.getD false then some d.min else s.after[0]?.join

def last? (s : PointSet d) : Option Nat :=
  if s.flags[d.size - 1]?.getD false then some d.max else s.before[d.size - 1]?.join

/-- The least allowed point above `p`, which need not be in the domain. -/
def next? (s : PointSet d) (p : Int) : Option Nat :=
  if p < d.min then s.first? else (d.index? p).bind (s.after[·]?.join)

/-- The greatest allowed point below `p`, which need not be in the domain. -/
def previous? (s : PointSet d) (p : Int) : Option Nat :=
  if d.max < p then s.last? else (d.index? p).bind (s.before[·]?.join)

theorem lt_of_after {s : PointSet d} {i q : Nat} (h : s.after[i]?.join = some q) :
    d.min + i < q := by
  rw [s.after_eq, List.getElem?_toArray, Option.join_eq_some_iff] at h
  exact lt_of_pointsAfter h

theorem lt_of_before {s : PointSet d} {i q : Nat} (h : s.before[i]?.join = some q) :
    q < d.min + i := by
  rw [s.before_eq, List.getElem?_toArray, Option.join_eq_some_iff] at h
  exact lt_of_pointsBefore (fun _ hx => absurd hx (by simp)) h

theorem first?_ge {s : PointSet d} {q : Nat} (h : s.first? = some q) : d.min ≤ q := by
  unfold first? at h
  split at h
  next => cases h; exact Nat.le_refl _
  next => have := lt_of_after h; omega

theorem last?_le {s : PointSet d} {q : Nat} (h : s.last? = some q) : q ≤ d.max := by
  have := d.min_le_max
  unfold last? at h
  split at h
  next => cases h; exact Nat.le_refl _
  next => have := lt_of_before h; unfold Domain.size at this; omega

theorem lt_of_next? {s : PointSet d} {p : Int} {q : Nat} (h : s.next? p = some q) : p < q := by
  unfold next? at h
  split at h
  next => have := first?_ge h; omega
  next =>
    obtain ⟨i, hi, hq⟩ := Option.bind_eq_some_iff.mp h
    have := Domain.index?_eq_some hi
    have := lt_of_after hq
    omega

theorem lt_of_previous? {s : PointSet d} {p : Int} {q : Nat} (h : s.previous? p = some q) :
    q < p := by
  unfold previous? at h
  split at h
  next => have := last?_le h; omega
  next =>
    obtain ⟨i, hi, hq⟩ := Option.bind_eq_some_iff.mp h
    have := Domain.index?_eq_some hi
    have := lt_of_before hq
    omega

def isEmpty (s : PointSet d) : Bool := !s.flags.any id

/-- The allowed points in ascending order. -/
def toList (s : PointSet d) : List Nat :=
  ((List.range' d.min d.size).zip s.flags.toList).filterMap fun (p, allowed) =>
    if allowed then some p else none

end PointSet

/-- Ascending numbers as the ends of their longest runs without a gap. -/
def runs : List Nat → List (Nat × Nat)
  | [] => []
  | p :: ps =>
    match runs ps with
    | (first, last) :: rest =>
      if first = p + 1 then (p, last) :: rest else (p, p) :: (first, last) :: rest
    | [] => [(p, p)]

/-- The points that each field allows. -/
abbrev Allowance := ByField fun f => PointSet f.domain

/-- Every point of every field. -/
def Allowance.full : Allowance := .ofFn fun _ => PointSet.full

end Timetable
