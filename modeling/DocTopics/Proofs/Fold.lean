import Mathlib.Data.List.Basic

/-!
# Folds that may fail

What a fold with a failing step does is known from what its single steps do. Every stage of a run
that goes through a list is such a fold.
-/

namespace DocTopics

variable {α β ε : Type}

theorem bind_eq_ok_iff {x : Except ε α} {f : α → Except ε β} {b : β} :
    (x >>= f) = .ok b ↔ ∃ a, x = .ok a ∧ f a = .ok b := by
  cases x with
  | error e =>
    refine ⟨fun h => ?_, ?_⟩
    · cases h
    · rintro ⟨a, h, _⟩
      cases h
  | ok a =>
    refine ⟨fun h => ⟨a, rfl, h⟩, ?_⟩
    rintro ⟨a', h, hf⟩
    cases h
    exact hf

theorem bind_eq_error_iff {x : Except ε α} {f : α → Except ε β} {e : ε} :
    (x >>= f) = .error e ↔ x = .error e ∨ ∃ a, x = .ok a ∧ f a = .error e := by
  cases x with
  | error e' =>
    refine ⟨fun h => ?_, ?_⟩
    · cases h
      exact .inl rfl
    · rintro (h | ⟨a, h, _⟩)
      · cases h
        rfl
      · cases h
  | ok a =>
    refine ⟨fun h => .inr ⟨a, rfl, h⟩, ?_⟩
    rintro (h | ⟨a', h, hf⟩)
    · cases h
    · cases h
      exact hf

theorem map_eq_ok_iff {x : Except ε α} {f : α → β} {b : β} :
    x.map f = .ok b ↔ ∃ a, x = .ok a ∧ f a = b := by
  cases x <;> simp [Except.map]

theorem map_eq_error_iff {x : Except ε α} {f : α → β} {e : ε} :
    x.map f = .error e ↔ x = .error e := by
  cases x <;> simp [Except.map]

theorem mapError_eq_ok_iff {ε' : Type} {x : Except ε α} {f : ε → ε'} {a : α} :
    x.mapError f = .ok a ↔ x = .ok a := by
  cases x <;> simp [Except.mapError]

theorem toOption_map_eq_some_iff {x : Except ε α} {f : α → β} {b : β} :
    x.toOption.map f = some b ↔ ∃ a, x = .ok a ∧ f a = b := by
  cases x <;> simp [Except.toOption]

theorem toOption_bind_eq_some_iff {x : Except ε α} {f : α → Option β} {b : β} :
    x.toOption.bind f = some b ↔ ∃ a, x = .ok a ∧ f a = some b := by
  cases x <;> simp [Except.toOption]

theorem foldlM_cons_eq_ok_iff {f : β → α → Except ε β} {x : α} {xs : List α} {b c : β} :
    (x :: xs).foldlM f b = .ok c ↔ ∃ b', f b x = .ok b' ∧ xs.foldlM f b' = .ok c := by
  rw [List.foldlM_cons]
  exact bind_eq_ok_iff

/-- What every step keeps, the whole fold keeps. -/
theorem foldlM_induction {f : β → α → Except ε β} {Inv : β → Prop} {xs : List α} {b c : β}
    (hstep : ∀ x ∈ xs, ∀ b b', Inv b → f b x = .ok b' → Inv b') (hb : Inv b)
    (h : xs.foldlM f b = .ok c) : Inv c := by
  induction xs generalizing b with
  | nil =>
    cases h
    exact hb
  | cons x xs ih =>
    obtain ⟨b', hx, hxs⟩ := foldlM_cons_eq_ok_iff.1 h
    have hb' : Inv b' := hstep x List.mem_cons_self b b' hb hx
    exact ih (fun y hy => hstep y (List.mem_cons_of_mem x hy)) hb' hxs

/-- A fold fails only at one of its steps, and what every step keeps holds up to there. -/
theorem exists_reached_of_foldlM_eq_error {f : β → α → Except ε β} {Inv : β → Prop} {xs : List α}
    {b : β} {e : ε} (hstep : ∀ x ∈ xs, ∀ b b', Inv b → f b x = .ok b' → Inv b') (hb : Inv b)
    (h : xs.foldlM f b = .error e) : ∃ x ∈ xs, ∃ b', Inv b' ∧ f b' x = .error e := by
  induction xs generalizing b with
  | nil => cases h
  | cons x xs ih =>
    rw [List.foldlM_cons] at h
    cases hx : f b x with
    | error e' =>
      rw [hx] at h
      cases h
      exact ⟨x, List.mem_cons_self, b, hb, hx⟩
    | ok b' =>
      rw [hx] at h
      have hb' : Inv b' := hstep x List.mem_cons_self b b' hb hx
      obtain ⟨y, hy, hfail⟩ := ih (fun y hy => hstep y (List.mem_cons_of_mem x hy)) hb' h
      exact ⟨y, List.mem_cons_of_mem x hy, hfail⟩

/-- A computation succeeds with a value of one kind or fails with an error of another. -/
def Ensures (bad : ε → Prop) (good : α → Prop) : Except ε α → Prop
  | .ok a => good a
  | .error e => bad e

namespace Ensures

variable {bad : ε → Prop} {good good' : α → Prop}

theorem imp {x : Except ε α} (hgood : ∀ a, good a → good' a) (h : Ensures bad good x) :
    Ensures bad good' x := by
  cases x with
  | ok a => exact hgood a h
  | error e => exact h

theorem map_iff {x : Except ε α} {f : α → β} {good : β → Prop} :
    Ensures bad good (x.map f) ↔ Ensures bad (fun a => good (f a)) x := by
  cases x <;> rfl

/-- What holds of the start, and behind each step of the items up to there, holds behind the whole
fold, unless a step fails. -/
theorem foldlM {f : β → α → Except ε β} {xs : List α} {b : β} (Inv : List α → β → Prop)
    (hb : Inv [] b)
    (hstep : ∀ front x, front ++ [x] <+: xs → ∀ b, Inv front b →
      Ensures bad (Inv (front ++ [x])) (f b x)) :
    Ensures bad (Inv xs) (xs.foldlM f b) := by
  induction xs generalizing b Inv with
  | nil => exact hb
  | cons x xs ih =>
    have hfirst := hstep [] x (by simp) b hb
    rw [List.foldlM_cons]
    cases hx : f b x with
    | error e =>
      rw [hx] at hfirst
      exact hfirst
    | ok b' =>
      rw [hx] at hfirst
      refine ih (fun front => Inv (x :: front)) hfirst fun front y hitems => ?_
      exact hstep (x :: front) y (by simpa using hitems)

end Ensures

/-- A list is mapped exactly when each of its items is. -/
theorem exists_mapM_iff {f : α → Except ε β} {xs : List α} :
    (∃ ys, xs.mapM f = .ok ys) ↔ ∀ x ∈ xs, ∃ y, f x = .ok y := by
  induction xs with
  | nil =>
    refine ⟨fun _ x hx => ?_, fun _ => ⟨[], rfl⟩⟩
    cases hx
  | cons x xs ih =>
    rw [List.mapM_cons, List.forall_mem_cons, ← ih]
    constructor
    · rintro ⟨ys, h⟩
      obtain ⟨y, hy, h⟩ := bind_eq_ok_iff.1 h
      obtain ⟨ys', hys, -⟩ := bind_eq_ok_iff.1 h
      exact ⟨⟨y, hy⟩, ys', hys⟩
    · rintro ⟨⟨y, hy⟩, ys, hys⟩
      exact ⟨y :: ys, bind_eq_ok_iff.2 ⟨y, hy, bind_eq_ok_iff.2 ⟨ys, hys, rfl⟩⟩⟩

theorem mem_of_mapM {f : α → Except ε β} {xs : List α} {ys : List β} (h : xs.mapM f = .ok ys)
    {y : β} : y ∈ ys ↔ ∃ x ∈ xs, f x = .ok y := by
  induction xs generalizing ys with
  | nil =>
    cases h
    simp
  | cons x xs ih =>
    rw [List.mapM_cons] at h
    obtain ⟨y', hy', h⟩ := bind_eq_ok_iff.1 h
    obtain ⟨ys', hys, h⟩ := bind_eq_ok_iff.1 h
    cases h
    simp [ih hys, hy', eq_comm]

end DocTopics
