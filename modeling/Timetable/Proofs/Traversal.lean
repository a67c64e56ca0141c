import Timetable.Proofs.LayoutText

namespace Timetable

section Except

variable {α β ε δ : Type}

theorem exists_ok_of_isOk {x : Except ε α} (h : x.isOk = true) : ∃ a, x = .ok a := by
  cases x with
  | error e => cases h
  | ok a => exact ⟨a, rfl⟩

theorem except_bind_eq_ok {x : Except ε α} {k : α → Except ε β} {b : β} :
    x >>= k = .ok b ↔ ∃ a, x = .ok a ∧ k a = .ok b := by
  cases x with
  | error e =>
    constructor
    · intro h
      cases h
    · rintro ⟨a, h, -⟩
      cases h
  | ok a =>
    constructor
    · intro h
      exact ⟨a, rfl, h⟩
    · rintro ⟨a', h, hk⟩
      cases h
      exact hk

theorem except_bind_eq_error {x : Except ε α} {k : α → Except ε β} {e : ε} :
    x >>= k = .error e ↔ x = .error e ∨ ∃ a, x = .ok a ∧ k a = .error e := by
  cases x with
  | error e' =>
    constructor
    · intro h
      cases h
      exact Or.inl rfl
    · rintro (h | ⟨a, h, -⟩)
      · cases h
        rfl
      · cases h
  | ok a =>
    constructor
    · intro h
      exact Or.inr ⟨a, rfl, h⟩
    · rintro (h | ⟨a', h, hk⟩)
      · cases h
      · cases h
        exact hk

theorem exists_ok_of_mapM {g : α → Except ε β} {xs : List α} {ys : List β}
    (h : xs.mapM g = .ok ys) : ∀ x ∈ xs, ∃ y, g x = .ok y := by
  induction xs generalizing ys with
  | nil => exact List.forall_mem_nil _
  | cons x xs ih =>
    rw [List.mapM_cons] at h
    obtain ⟨y, hy, h⟩ := except_bind_eq_ok.mp h
    obtain ⟨ys, hys, h⟩ := except_bind_eq_ok.mp h
    exact List.forall_mem_cons.mpr ⟨⟨y, hy⟩, ih hys⟩

theorem except_pure_eq_ok {a b : α} : (pure a : Except ε α) = .ok b ↔ b = a :=
  ⟨fun h => (by cases h; rfl), fun h => h ▸ rfl⟩

theorem except_map_eq_ok {f : α → β} {x : Except ε α} {b : β} :
    f <$> x = .ok b ↔ ∃ a, x = .ok a ∧ b = f a := by
  rw [map_eq_pure_bind, except_bind_eq_ok]
  simp only [except_pure_eq_ok]

theorem except_map_eq_error {f : α → β} {x : Except ε α} {e : ε} :
    f <$> x = .error e ↔ x = .error e := by
  cases x with
  | error e' => exact ⟨fun h => by cases h; rfl, fun h => by cases h; rfl⟩
  | ok a => exact ⟨fun h => (by cases h), fun h => (by cases h)⟩

theorem length_eq_of_mapM {g : α → Except ε β} {xs : List α} {ys : List β}
    (h : xs.mapM g = .ok ys) : ys.length = xs.length := by
  induction xs generalizing ys with
  | nil =>
    cases h
    rfl
  | cons x xs ih =>
    rw [List.mapM_cons] at h
    obtain ⟨y, -, h⟩ := except_bind_eq_ok.mp h
    obtain ⟨zs, hzs, h⟩ := except_bind_eq_ok.mp h
    cases h
    exact congrArg (· + 1) (ih hzs)

/-- A failure of the whole is one of a member. -/
theorem exists_error_of_mapM {g : α → Except ε β} {xs : List α} {e : ε}
    (h : xs.mapM g = .error e) : ∃ x ∈ xs, g x = .error e := by
  induction xs with
  | nil => cases h
  | cons x xs ih =>
    rw [List.mapM_cons] at h
    rcases except_bind_eq_error.mp h with hx | ⟨y, -, h⟩
    · exact ⟨x, List.mem_cons_self, hx⟩
    · rcases except_bind_eq_error.mp h with hxs | ⟨ys, -, h⟩
      · obtain ⟨x', hx', he⟩ := ih hxs
        exact ⟨x', List.mem_cons_of_mem x hx', he⟩
      · cases h

/-- The first failure is that of the whole. -/
theorem mapM_error {g : α → Except ε β} {before after : List α} {x : α} {e : ε}
    (hbefore : ∀ y ∈ before, ∃ z, g y = .ok z) (hx : g x = .error e) :
    (before ++ x :: after).mapM g = .error e := by
  induction before with
  | nil =>
    rw [List.nil_append, List.mapM_cons, hx]
    rfl
  | cons y ys ih =>
    obtain ⟨⟨z, hz⟩, hys⟩ := List.forall_mem_cons.mp hbefore
    rw [List.cons_append, List.mapM_cons, hz, ih hys]
    rfl

theorem mapError_eq_ok {x : Except ε α} {g : ε → δ} {a : α} :
    x.mapError g = .ok a ↔ x = .ok a := by
  cases x with
  | error e => exact ⟨fun h => (by cases h), fun h => (by cases h)⟩
  | ok a' => exact ⟨fun h => by cases h; rfl, fun h => by cases h; rfl⟩

theorem mapError_eq_error {x : Except ε α} {g : ε → δ} {d : δ} :
    x.mapError g = .error d ↔ ∃ e, x = .error e ∧ d = g e := by
  cases x with
  | error e =>
    constructor
    · intro h
      cases h
      exact ⟨e, rfl, rfl⟩
    · rintro ⟨e', h, rfl⟩
      cases h
      rfl
  | ok a =>
    constructor
    · intro h
      cases h
    · rintro ⟨e, h, -⟩
      cases h

theorem mapError_bind (x : Except ε α) (k : α → Except ε β) (g : ε → δ) :
    (x >>= k).mapError g = x.mapError g >>= fun a => (k a).mapError g := by
  cases x <;> rfl

theorem mapError_optionMapM (o : Option α) (k : α → Except ε β) (g : ε → δ) :
    (o.mapM k).mapError g = o.mapM fun a => (k a).mapError g := by
  cases o with
  | none => rfl
  | some a =>
    simp only [Option.mapM_some]
    cases k a <;> rfl

theorem mapError_mapM (xs : List α) (k : α → Except ε β) (g : ε → δ) :
    (xs.mapM k).mapError g = xs.mapM fun a => (k a).mapError g := by
  induction xs with
  | nil => rfl
  | cons x xs ih =>
    simp only [List.mapM_cons, mapError_bind, ih]
    rfl

end Except

namespace Layout

variable {α β ε : Type}

/-- A layout is gone through as the list of its parts is. -/
theorem traverse_parts (g : Field → α → Except ε β) (l : Layout α) :
    parts <$> l.traverse g = l.parts.mapM fun part => (part.1, ·) <$> g part.1 part.2 := by
  obtain ⟨_ | ⟨year, month, day⟩, _ | weekday, hour, minute, second, _ | millisecond⟩ := l <;>
    simp [traverse, parts]

theorem traverse_map {γ : Type} (g : Field → β → Except ε γ) (k : α → β) (l : Layout α) :
    (l.map k).traverse g = l.traverse fun f a => g f (k a) := by
  obtain ⟨_ | ⟨year, month, day⟩, _ | weekday, hour, minute, second, _ | millisecond⟩ := l <;>
    simp [traverse, map]

theorem traverse_eq_map {g : Field → α → Except ε β} {k : α → β} {l : Layout α}
    (h : ∀ part ∈ l.parts, g part.1 part.2 = .ok (k part.2)) :
    l.traverse g = .ok (l.map k) := by
  obtain ⟨_ | ⟨year, month, day⟩, _ | weekday, hour, minute, second, _ | millisecond⟩ := l <;>
    simp only [parts, List.nil_append, List.cons_append, List.forall_mem_cons] at h <;>
    simp [traverse, map, h] <;> rfl

theorem exists_ok_of_traverse {g : Field → α → Except ε β} {l : Layout α} {m : Layout β}
    (h : l.traverse g = .ok m) : ∀ part ∈ l.parts, ∃ b, g part.1 part.2 = .ok b := by
  intro part hpart
  have hparts := l.traverse_parts g
  rw [h] at hparts
  obtain ⟨b, hb⟩ := exists_ok_of_mapM hparts.symm part hpart
  cases hg : g part.1 part.2 with
  | ok b' => exact ⟨b', rfl⟩
  | error e =>
    rw [hg] at hb
    cases hb

theorem exists_error_of_traverse {g : Field → α → Except ε β} {l : Layout α} {e : ε}
    (h : l.traverse g = .error e) : ∃ part ∈ l.parts, g part.1 part.2 = .error e := by
  have hparts := l.traverse_parts g
  rw [h] at hparts
  obtain ⟨part, hpart, he⟩ := exists_error_of_mapM hparts.symm
  exact ⟨part, hpart, except_map_eq_error.mp he⟩

theorem traverse_eq_ok_iff {g : Field → α → Except ε β} {q : Field → α → Prop} {k : α → β}
    (hg : ∀ f a b, g f a = .ok b ↔ q f a ∧ b = k a) {l : Layout α} {m : Layout β} :
    l.traverse g = .ok m ↔ (∀ part ∈ l.parts, q part.1 part.2) ∧ m = l.map k := by
  have hmap (h : ∀ part ∈ l.parts, q part.1 part.2) : l.traverse g = .ok (l.map k) :=
    traverse_eq_map fun part hpart => (hg _ _ _).mpr ⟨h part hpart, rfl⟩
  constructor
  · intro h
    have hq : ∀ part ∈ l.parts, q part.1 part.2 := fun part hpart =>
      let ⟨_, hb⟩ := exists_ok_of_traverse h part hpart
      ((hg _ _ _).mp hb).1
    exact ⟨hq, Except.ok.inj (h.symm.trans (hmap hq))⟩
  · rintro ⟨hq, rfl⟩
    exact hmap hq

theorem traverse_error {g : Field → α → Except ε β} {l : Layout α}
    {before after : List (Field × α)} {f : Field} {a : α} {e : ε}
    (hl : l.parts = before ++ (f, a) :: after)
    (hbefore : ∀ part ∈ before, ∃ b, g part.1 part.2 = .ok b) (he : g f a = .error e) :
    l.traverse g = .error e := by
  rw [← except_map_eq_error, l.traverse_parts g, hl]
  refine mapM_error (fun part hpart => ?_) (except_map_eq_error.mpr he)
  obtain ⟨b, hb⟩ := hbefore part hpart
  exact ⟨_, by rw [hb]; rfl⟩

end Layout

end Timetable
