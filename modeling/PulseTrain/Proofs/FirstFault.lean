import Mathlib.Data.List.Forall2

/-!
# The first fault

What goes through a list stops at the first entry that something is wrong with, and reports that.
`FirstFault` says so without the walk; `firstFault_cons` is the walk's step. `mapM_eq_error_iff` is the
case of `List.mapM`, and `mapM_eq_ok_iff` what it does when nothing is wrong. What two steps come to, one
after the other, is said at the end.
-/

namespace PulseTrain

section

variable {α ε : Type} {wrong : α → ε → Prop} {x : α} {xs : List α} {e : ε}

/-- `e` is wrong with an entry of `xs`, and nothing is wrong with those before it. -/
def FirstFault (wrong : α → ε → Prop) (xs : List α) (e : ε) : Prop :=
  ∃ before x after, xs = before ++ x :: after ∧ wrong x e ∧ ∀ y ∈ before, ∀ e', ¬ wrong y e'

theorem not_firstFault_nil : ¬ FirstFault wrong [] e := by
  rintro ⟨before, x, after, h, -⟩
  simp at h

/-- The first fault is the one of the first entry, or if that has none, it comes later. -/
theorem firstFault_cons :
    FirstFault wrong (x :: xs) e
      ↔ wrong x e ∨ (∀ e', ¬ wrong x e') ∧ FirstFault wrong xs e := by
  constructor
  -- Either nothing comes before the first fault, and it is at the head, or the head is free of faults.
  · rintro ⟨before, y, after, h, hy, hbefore⟩
    cases before with
    | nil =>
      cases h
      exact .inl hy
    | cons z before =>
      cases h
      exact .inr ⟨hbefore x List.mem_cons_self, before, y, after, rfl, hy,
        fun w hw => hbefore w (List.mem_cons_of_mem x hw)⟩
  · rintro (hx | ⟨hx, before, y, after, rfl, hy, hbefore⟩)
    · exact ⟨[], x, xs, rfl, hx, by simp⟩
    · refine ⟨x :: before, y, after, rfl, hy, fun w hw => ?_⟩
      rcases List.mem_cons.mp hw with rfl | hw
      · exact hx
      · exact hbefore w hw

/-- Only what can be wrong with the entries matters. -/
theorem firstFault_congr {wrong' : α → ε → Prop} (h : ∀ x ∈ xs, ∀ e, wrong x e ↔ wrong' x e) :
    FirstFault wrong xs e ↔ FirstFault wrong' xs e := by
  induction xs with
  | nil => exact iff_of_false not_firstFault_nil not_firstFault_nil
  | cons x xs ih =>
    rw [firstFault_cons, firstFault_cons, ih fun y hy => h y (List.mem_cons_of_mem x hy)]
    simp only [h x List.mem_cons_self]

/-- One fault is enough for there to be a first one. -/
theorem exists_firstFault_iff : (∃ e, FirstFault wrong xs e) ↔ ∃ x ∈ xs, ∃ e, wrong x e := by
  constructor
  · rintro ⟨e, before, x, after, rfl, hx, -⟩
    exact ⟨x, by simp, e, hx⟩
  · rintro ⟨y, hy, hwrong⟩
    -- By induction on the list: the head is the first fault if it has one, and the rest is asked
    -- otherwise.
    induction xs with
    | nil => cases hy
    | cons x xs ih =>
      simp only [firstFault_cons]
      by_cases hx : ∃ e, wrong x e
      · exact hx.imp fun _ => .inl
      · rcases List.mem_cons.mp hy with rfl | hy
        · exact absurd hwrong hx
        · exact (ih hy).imp fun _ he => .inr ⟨not_exists.mp hx, he⟩

end

section

variable {α β ε : Type} {f : α → Except ε β} {xs : List α}

/-- What `mapM` reports is the first fault. -/
theorem mapM_eq_error_iff {e : ε} :
    xs.mapM f = .error e ↔ FirstFault (fun x e' => f x = .error e') xs e := by
  induction xs with
  | nil => exact iff_of_false (fun h => by cases h) not_firstFault_nil
  | cons x xs ih =>
    rw [firstFault_cons, ← ih, List.mapM_cons]
    cases hx : f x with
    | error e' => simp [bind, Except.bind]
    | ok y => cases hxs : xs.mapM f <;> simp [bind, Except.bind, pure, Except.pure]

/-- `mapM` succeeds with what comes out of the entries one by one. -/
theorem mapM_eq_ok_iff {ys : List β} :
    xs.mapM f = .ok ys ↔ List.Forall₂ (fun x y => f x = .ok y) xs ys := by
  constructor
  · intro h
    -- Neither a fault at the head nor one later on is the case, since the whole came out.
    induction xs generalizing ys with
    | nil =>
      cases h
      exact .nil
    | cons x xs ih =>
      rw [List.mapM_cons] at h
      cases hx : f x with
      | error e =>
        rw [hx] at h
        cases h
      | ok y =>
        rw [hx] at h
        cases hxs : xs.mapM f with
        | error e =>
          rw [hxs] at h
          cases h
        | ok zs =>
          rw [hxs] at h
          cases h
          exact .cons hx (ih hxs)
  · intro h
    induction h with
    | nil => rfl
    | cons hx hxs ih =>
      rw [List.mapM_cons, hx, ih]
      rfl

/-- What comes out of `mapM` comes out of an entry. -/
theorem exists_of_mem_mapM {ys : List β} (h : xs.mapM f = .ok ys) {y : β} (hy : y ∈ ys) :
    ∃ x ∈ xs, f x = .ok y := by
  have hall := mapM_eq_ok_iff.mp h
  clear h
  induction hall with
  | nil => cases hy
  | cons hx _ ih =>
    rcases List.mem_cons.mp hy with rfl | hy
    · exact ⟨_, List.mem_cons_self, hx⟩
    · obtain ⟨x, hmem, hx⟩ := ih hy
      exact ⟨x, List.mem_cons_of_mem _ hmem, hx⟩

/-- Nothing is wrong with the list if nothing is wrong with an entry. -/
theorem exists_mapM_eq_ok_iff : (∃ ys, xs.mapM f = .ok ys) ↔ ∀ x ∈ xs, ∃ y, f x = .ok y := by
  induction xs with
  | nil => exact iff_of_true ⟨[], rfl⟩ fun _ hx => by cases hx
  | cons x xs ih =>
    rw [List.forall_mem_cons, ← ih, List.mapM_cons]
    cases f x with
    | error e => simp [bind, Except.bind]
    | ok y => cases xs.mapM f <;> simp [bind, Except.bind, pure, Except.pure]

end

/-! ## One step after another -/

section

variable {α β ε ε' : Type} {x : Except ε α} {f g : α → Except ε β}

theorem bind_eq_ok_iff {b : β} : x >>= f = .ok b ↔ ∃ a, x = .ok a ∧ f a = .ok b := by
  cases x <;> simp [bind, Except.bind]

/-- What fails in two steps is the first, or else the second. -/
theorem bind_eq_error_iff {e : ε} :
    x >>= f = .error e ↔ x = .error e ∨ ∃ a, x = .ok a ∧ f a = .error e := by
  cases x <;> simp [bind, Except.bind]

/-- Only the results that the first step can have matter to the second. -/
theorem bind_congr_of_ok (h : ∀ a, x = .ok a → f a = g a) : x >>= f = x >>= g := by
  cases x with
  | error e => rfl
  | ok a => exact h a rfl

/-- It does not matter whether faults are renamed after each step or at the end. -/
theorem mapError_bind (rename : ε → ε') :
    (x >>= f).mapError rename = x.mapError rename >>= fun a => (f a).mapError rename := by
  cases x <;> rfl

theorem mapError_eq_ok_iff {rename : ε → ε'} {a : α} : x.mapError rename = .ok a ↔ x = .ok a := by
  cases x <;> simp [Except.mapError]

theorem mapError_eq_error_iff {rename : ε → ε'} {e' : ε'} :
    x.mapError rename = .error e' ↔ ∃ e, x = .error e ∧ rename e = e' := by
  cases x <;> simp [Except.mapError]

end

end PulseTrain
