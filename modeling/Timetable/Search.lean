import Timetable.Settle

namespace Timetable

/-- The outcome of settling every field once. -/
inductive Pass
  | found (i : Instant)
  | carried (i : Instant)
  | exhausted
  deriving Repr, DecidableEq

/-- Settles the fields one after another until a move carries. -/
def settleAll (a : Allowance) (dir : Direction) : List Field → Instant → Pass
  | [], i => .found i
  | f :: fs, i =>
    match settle a dir f i with
    | .settled j => settleAll a dir fs j
    | .carried j => .carried j
    | .exhausted => .exhausted

theorem Instant.beyond_of_enter? {i j : Instant} {dir : Direction} {f : Field} {v : Nat}
    (hf : f ≠ .weekday) (hv : dir.Past (i.value f) v) (h : i.enter? dir f v = some j) :
    dir.Beyond i j := by
  cases dir
  · exact lt_unitStart hf hv h
  · exact gt_unitEnd hf hv h

theorem Instant.beyond_of_leave? {i j : Instant} {dir : Direction} {f : Field}
    (h : i.leave? dir f = some j) : dir.Beyond i j := by
  obtain ⟨g, hg, h⟩ := Option.bind_eq_some_iff.mp h
  cases dir
  · cases f <;> cases hg
    · exact lt_of_map_dayStart (fun _ => Date.rank_lt_yearAfter) h
    · exact lt_of_map_dayStart (fun _ => Date.rank_lt_monthAfter) h
    · exact lt_of_map_dayStart (fun _ => Date.rank_lt_monthAfter) h
    · exact lt_of_map_dayStart (fun _ => Date.rank_lt_dayAfter) h
    · exact lt_hourAfter h
    · exact lt_minuteAfter h
    · exact lt_secondAfter h
  · cases f <;> cases hg
    · exact gt_of_map_dayEnd (fun _ => Date.rank_gt_yearBefore) h
    · exact gt_of_map_dayEnd (fun _ => Date.rank_gt_monthBefore) h
    · exact gt_of_map_dayEnd (fun _ => Date.rank_gt_monthBefore) h
    · exact gt_of_map_dayEnd (fun _ => Date.rank_gt_dayBefore) h
    · exact gt_hourBefore h
    · exact gt_minuteBefore h
    · exact gt_secondBefore h

/-- Where a step leads, if it leads anywhere. -/
def Step.target? : Step → Option Instant
  | settled i => some i
  | carried i => some i
  | exhausted => none

theorem Step.target?_ofMove (f : Field) (i : Instant) (move : Option Instant) :
    (Step.ofMove f i move).target? = move := by
  cases move with
  | none => rfl
  | some j =>
    simp only [ofMove]
    split
    · rfl
    · split <;> rfl

theorem PointSet.past_of_toward? {d : Domain} {s : PointSet d} {dir : Direction} {p : Int}
    {v : Nat} (h : s.toward? dir p = some v) : dir.Past p v := by
  cases dir
  · exact lt_of_next? h
  · exact lt_of_previous? h

theorem Direction.past_of_dayPast? {dir : Direction} {days : PointSet Field.day.domain}
    {day last v : Nat} (h : dir.dayPast? days day last = some v) : dir.Past day v := by
  cases dir
  · exact Int.ofNat_lt.mpr (nextDay?_mem h).1
  · exact PointSet.lt_of_previous? h

theorem Direction.Past.trans {dir : Direction} {p q r : Int} (h : dir.Past p q)
    (h' : dir.Past q r) : dir.Past p r := by
  cases dir
  · exact Int.lt_trans h h'
  · exact Int.lt_trans h' h

theorem settleValue_beyond {a : Allowance} {dir : Direction} {f : Field} {i j : Instant}
    (hf : f ≠ .weekday) (h : (settleValue a dir f i).target? = some j) : dir.Beyond i j := by
  rw [settleValue, Step.target?_ofMove] at h
  split at h
  next hv => exact Instant.beyond_of_enter? hf (PointSet.past_of_toward? hv) h
  next => exact Instant.beyond_of_leave? h

theorem settleDayFrom_beyond {a : Allowance} {dir : Direction} {i j : Instant} {day : Nat}
    (hd : (i.date.day : Int) = day ∨ dir.Past i.date.day day)
    (h : (settleDayFrom a dir i day).target? = some j) : dir.Beyond i j := by
  fun_induction settleDayFrom a dir i day with
  | case1 day hn =>
    rw [Step.target?_ofMove] at h
    exact Instant.beyond_of_leave? h
  | case2 => cases h
  | case3 day v hv d hd' ha =>
    rw [Step.target?_ofMove] at h
    have hp := Direction.past_of_dayPast? hv
    refine Instant.beyond_of_enter? (by decide) ?_ h
    rcases hd with hd | hd
    · rwa [Instant.value, hd]
    · exact hd.trans hp
  | case4 day v hv d hd' ha ih =>
    have hp := Direction.past_of_dayPast? hv
    refine ih ?_ h
    rcases hd with hd | hd
    · rw [hd]
      exact Or.inr hp
    · exact Or.inr (hd.trans hp)

/-- A field that has to change takes the instant farther on. -/
theorem settle_target {a : Allowance} {dir : Direction} {f : Field} {i j : Instant}
    (hf : f ≠ .weekday) (h : (settle a dir f i).target? = some j) :
    settle a dir f i = .settled i ∧ j = i ∨ dir.Beyond i j := by
  unfold settle at h ⊢
  split
  next ha =>
    rw [if_pos ha] at h
    exact Or.inl ⟨rfl, (Option.some.inj h).symm⟩
  next ha =>
    rw [if_neg ha] at h
    split at h
    next => exact Or.inr (settleDayFrom_beyond (Or.inl rfl) h)
    next => exact Or.inr (settleValue_beyond hf h)

/-- Every carry takes the search farther on. -/
theorem settleAll_carried {a : Allowance} {dir : Direction} {fs : List Field} {i j : Instant}
    (hf : .weekday ∉ fs) (h : settleAll a dir fs i = .carried j) : dir.Beyond i j := by
  induction fs generalizing i with
  | nil => cases h
  | cons f fs ih =>
    have hne : f ≠ .weekday := fun he => hf (he ▸ List.mem_cons_self)
    have hfs : .weekday ∉ fs := fun hm => hf (List.mem_cons_of_mem _ hm)
    rw [settleAll] at h
    split at h
    next k hk =>
      rcases settle_target hne (congrArg Step.target? hk) with ⟨-, rfl⟩ | hb
      · exact ih hfs h
      · exact hb.trans (ih hfs h)
    next k hk =>
      cases h
      rcases settle_target hne (congrArg Step.target? hk) with ⟨hs, -⟩ | hb
      · rw [hs] at hk
        cases hk
      · exact hb
    next => cases h

/-- Repeats the pass over all fields until it ends without a carry. -/
def searchFrom? (a : Allowance) (dir : Direction) (i : Instant) : Option Instant :=
  match _ : settleAll a dir cascade i with
  | .found j => some j
  | .carried j => searchFrom? a dir j
  | .exhausted => none
termination_by dir.room i
decreasing_by exact (settleAll_carried weekday_notMem_cascade ‹_›).room_lt

/-- The nearest whole millisecond that the search can start from. -/
def Instant.align? (dir : Direction) (i : Instant) : Option Instant :=
  match dir with
  | .forward => if i.time.nano % 1000000 = 0 then some i.truncate else i.truncate.nextMilli?
  | .backward => some i.truncate

/-- The instant one millisecond farther on. -/
def Instant.shift? (dir : Direction) (i : Instant) : Option Instant :=
  match dir with
  | .forward => i.nextMilli?
  | .backward => i.previousMilli?

/-- The nearest instant of the schedule, at or beyond `i` as the direction goes. -/
def Allowance.nearest? (a : Allowance) (dir : Direction) (i : Instant) : Option Instant :=
  (i.align? dir).bind (searchFrom? a dir)

end Timetable
