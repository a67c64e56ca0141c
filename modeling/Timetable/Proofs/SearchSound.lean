import Timetable.Proofs.DayLoop
import Timetable.Proofs.MilliSteps

namespace Timetable

/-- The fields whose units the units of a field divide, coarsest first. -/
def Field.coarser : Field → List Field
  | .year => []
  | .month => [.year]
  | .day | .weekday => [.year, .month]
  | .hour => [.year, .month, .day]
  | .minute => [.year, .month, .day, .hour]
  | .second => [.year, .month, .day, .hour, .minute]
  | .millisecond => [.year, .month, .day, .hour, .minute, .second]

theorem Field.parent_mem_coarser {f p : Field} (hp : f.parent? = some p) : p ∈ f.coarser := by
  cases f <;> cases hp <;> decide

theorem Field.year_mem_coarser {f : Field} (hf : f ≠ .year) : .year ∈ f.coarser := by
  cases f <;> first | exact absurd rfl hf | exact List.mem_cons_self

theorem Field.coarser_of_parent {f g p : Field} (hp : f.parent? = some p) (hg : g ∈ f.coarser) :
    g = p ∨ g ∈ p.coarser := by
  revert hg
  cases f <;> cases hp <;> cases g <;> decide

theorem Field.length_coarser_parent {f p : Field} (hp : f.parent? = some p) :
    p.coarser.length < f.coarser.length := by
  cases f <;> cases hp <;> decide

theorem Field.coarser_eq_nil {f : Field} (hp : f.parent? = none) : f.coarser = [] := by
  cases f <;> first | rfl | cases hp

/-- The parent units of two instants coincide only if all coarser units do. -/
theorem Instant.slot_eq_of_coarser {f g : Field} {i j : Instant} (hs : j.SameParent f i)
    (hg : g ∈ f.coarser) : j.slot g = i.slot g := by
  cases hp : f.parent? with
  | none =>
    rw [Field.coarser_eq_nil hp] at hg
    cases hg
  | some p =>
    rcases Field.coarser_of_parent hp hg with rfl | hg'
    · exact hs g hp
    · exact slot_eq_of_coarser (fun g' hg' => slot_parent_eq hg' (hs p hp)) hg'
termination_by f.coarser.length
decreasing_by exact Field.length_coarser_parent hp

/-- What comes before a field in the cascade are the coarser fields. -/
theorem coarser_of_cascade {before after : List Field} {f : Field}
    (h : before ++ f :: after = cascade) : before = f.coarser := by
  have hnodup : (before ++ f :: after).Nodup := by
    rw [h]
    decide
  have hne : ∀ g ∈ before, decide (g ≠ f) = true := by
    intro g hg
    have hdis := (List.nodup_append.mp hnodup).2.2 g hg f List.mem_cons_self
    exact decide_eq_true hdis
  have hf : f ∈ cascade := h ▸ List.mem_append_right before List.mem_cons_self
  have htake : (before ++ f :: after).takeWhile (fun g => decide (g ≠ f)) = before := by
    rw [List.takeWhile_append_of_pos hne, List.takeWhile_cons_of_neg (by simp), List.append_nil]
  rw [← htake, h]
  revert hf
  cases f <;> decide

/-- What a pass over the cascade from `i` has to guarantee. -/
def Pass.Sound (a : Allowance) (dir : Direction) (i : Instant) : Pass → Prop
  | .found j => a.Match j ∧ dir.Reaches i j ∧ a.Clear dir i j
  | .carried j => j.IsPlain ∧ dir.Beyond i j ∧ a.Clear dir i j
  | .exhausted => ∀ q, a.Match q → ¬dir.Reaches i q

theorem Direction.Reaches.beyond {dir : Direction} {i j k : Instant} (h : dir.Reaches i j)
    (h' : dir.Beyond j k) : dir.Beyond i k := by
  cases dir
  · exact lt_of_le_of_lt h h'
  · exact lt_of_lt_of_le h' h

/-- A step that moves on without passing over a match keeps a later pass sound. -/
theorem Pass.Sound.of_settled {a : Allowance} {dir : Direction} {i j : Instant} {p : Pass}
    (hr : dir.Reaches i j) (hc : a.Clear dir i j) (hp : p.Sound a dir j) : p.Sound a dir i := by
  cases p with
  | found k =>
    obtain ⟨hm, hr', hc'⟩ := hp
    exact ⟨hm, hr.trans hr', hc.trans hc'⟩
  | carried k =>
    obtain ⟨hplain, hb, hc'⟩ := hp
    exact ⟨hplain, hr.beyond hb, hc.trans hc'⟩
  | exhausted => exact fun q hq hr' => hp q hq (hc q hq hr')

section Pass

variable {a : Allowance} {before after : List Field} {f : Field} {i j : Instant}

theorem mem_cascade (h : before ++ f :: after = cascade) : f ∈ cascade :=
  h ▸ List.mem_append_right before List.mem_cons_self

/-- Once the year is allowed, it stays in the domain of years. -/
theorem year_mem_of_before (h : before ++ f :: after = cascade)
    (ha : ∀ g ∈ before, a.allows g i = true) (hne : f ≠ .year) :
    2000 ≤ i.date.year ∧ i.date.year ≤ 2100 := by
  have hmem : Field.year ∈ before := by
    rw [coarser_of_cascade h]
    exact Field.year_mem_coarser hne
  exact Allowance.year_mem_of_allows (ha .year hmem)

/-- Settling a field is sound where all fields before it are allowed. -/
theorem settle_sound_of_before (dir : Direction) (h : before ++ f :: after = cascade)
    (hw : i.IsWhole) (ha : ∀ g ∈ before, a.allows g i = true) :
    (settle a dir f i).Sound a dir f i := by
  refine settle_sound a dir (mem_cascade h) hw fun hne => ?_
  have hyear := year_mem_of_before h ha hne
  unfold firstYear lastYear
  omega

/-- The fields before `f` are coarser. Settling `f` keeps their units, so they stay allowed. -/
theorem allows_of_settled (h : before ++ f :: after = cascade)
    (ha : ∀ g ∈ before, a.allows g i = true) (hsame : j.SameParent f i)
    (hj : a.allows f j = true) : ∀ g ∈ before ++ [f], a.allows g j = true := by
  intro g hg
  rcases List.mem_append.mp hg with hg | hg
  · have hcascade : g ∈ cascade := h ▸ List.mem_append_left _ hg
    have hslot := Instant.slot_eq_of_coarser hsame (coarser_of_cascade h ▸ hg)
    rw [Allowance.allows_congr hcascade hslot]
    exact ha g hg
  · rw [List.mem_singleton.mp hg]
    exact hj

end Pass

/-- A pass is sound if the fields that it leaves out are allowed already. -/
theorem settleAll_sound (a : Allowance) (dir : Direction) {before fs : List Field} {i : Instant}
    (h : before ++ fs = cascade) (hw : i.IsWhole) (ha : ∀ g ∈ before, a.allows g i = true) :
    (settleAll a dir fs i).Sound a dir i := by
  induction fs generalizing before i with
  | nil =>
    rw [List.append_nil] at h
    subst h
    exact ⟨Allowance.match_of_allows hw ha, Direction.Reaches.refl i, Allowance.Clear.refl i⟩
  | cons f fs ih =>
    have hstep := settle_sound_of_before dir h hw ha
    rw [settleAll]
    cases hs : settle a dir f i with
    | settled j =>
      rw [hs] at hstep
      obtain ⟨⟨hj, hr, hsame⟩, hallows, hclear⟩ := hstep
      have hsplit : (before ++ [f]) ++ fs = cascade := by
        rw [List.append_assoc]
        exact h
      exact (ih hsplit hj (allows_of_settled h ha hsame hallows)).of_settled hr hclear
    | carried j =>
      rw [hs] at hstep
      exact hstep
    | exhausted =>
      rw [hs] at hstep
      exact hstep.2

/-- What a search from `t` has to answer: the match that it reaches first, or nothing if it
reaches none. -/
def Allowance.Nearest (a : Allowance) (dir : Direction) (t : Instant) : Option Instant → Prop
  | some r => a.Match r ∧ dir.Reaches t r ∧ a.Clear dir t r
  | none => ∀ q, a.Match q → ¬dir.Reaches t q

theorem searchFrom?_nearest (a : Allowance) (dir : Direction) {i : Instant} (hw : i.IsWhole) :
    a.Nearest dir i (searchFrom? a dir i) := by
  have hpass {k : Instant} (hk : k.IsWhole) : (settleAll a dir cascade k).Sound a dir k :=
    settleAll_sound a dir (List.nil_append cascade) hk fun g hg => by cases hg
  fun_induction searchFrom? a dir i with
  | case1 i j hfound =>
    have hs := hpass hw
    rw [hfound] at hs
    exact hs
  | case2 i j hcarried ih =>
    have hs := hpass hw
    rw [hcarried] at hs
    obtain ⟨hplain, hb, hc⟩ := hs
    -- The search from where the pass carried to is nearest by induction on the room left.
    have hn := ih hplain.1
    cases hr : searchFrom? a dir j with
    | some r =>
      rw [hr] at hn
      obtain ⟨hm, hr', hc'⟩ := hn
      exact ⟨hm, hb.reaches.trans hr', hc.trans hc'⟩
    | none =>
      rw [hr] at hn
      exact fun q hq hr' => hn q hq (hc q hq hr')
  | case3 i hexhausted =>
    have hs := hpass hw
    rw [hexhausted] at hs
    exact hs

/-- The search answers with the match that lies nearest in its direction, from any start. -/
theorem Allowance.nearest?_nearest (a : Allowance) (dir : Direction) (t : Instant) :
    a.Nearest dir t (a.nearest? dir t) := by
  unfold nearest?
  cases ha : t.align? dir with
  | none =>
    rw [Option.bind_none]
    exact fun q hq => not_reaches_of_align?_none ha hq
  | some c =>
    obtain ⟨hw, hr, hplain⟩ := Instant.align?_some ha
    rw [Option.bind_some]
    have hn := searchFrom?_nearest a dir hw
    cases hs : searchFrom? a dir c with
    | some r =>
      rw [hs] at hn
      obtain ⟨hm, hr', hc⟩ := hn
      exact ⟨hm, hr.trans hr', fun q hq h => hc q hq (hplain q hq.isPlain h)⟩
    | none =>
      rw [hs] at hn
      exact fun q hq h => hn q hq (hplain q hq.isPlain h)

end Timetable
