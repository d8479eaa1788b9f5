import FairyChess.Fixed.Word
import Mathlib.Data.Int.Basic
import Mathlib.Tactic

/-!
Results of 32 bits. In every build a result that fits is what it would be among all integers. Where it does
not fit, one build stops and the other takes the number that differs from it by a multiple of `2 ^ 32`.
-/
namespace FairyChess.Fixed

section Range

theorem wrap_of_inRange {n : ℤ} (h : InRange n) : wrap n = n := by
  obtain ⟨hlow, hhigh⟩ := h
  simp only [wrap, Int.bmod]
  omega

/-- The low bits of a result depend only on the low bits of what it is computed from. -/
theorem wrap_eq_wrap_iff {n k : ℤ} : wrap n = wrap k ↔ n % 4294967296 = k % 4294967296 := by
  simp only [wrap, Int.bmod]
  omega

theorem wrap_add_wrap (n k : ℤ) : wrap (n + wrap k) = wrap (n + k) := by
  rw [wrap_eq_wrap_iff]
  simp only [wrap, Int.bmod]
  omega

theorem wrap_wrap_add (n k : ℤ) : wrap (wrap n + k) = wrap (n + k) := by
  rw [add_comm, wrap_add_wrap, add_comm]

theorem wrap_sub_wrap (n k : ℤ) : wrap (wrap n - wrap k) = wrap (n - k) := by
  rw [wrap_eq_wrap_iff]
  simp only [wrap, Int.bmod]
  omega

/-- A bound on the size of a number, as differences and sums have it. -/
theorem inRange_of_abs_lt {n : ℤ} (h : |n| < 2147483648) : InRange n := by
  obtain ⟨hlow, hhigh⟩ := abs_lt.mp h
  exact ⟨hlow.le, hhigh⟩

theorem inRange_natAbs {n : ℤ} (h : |n| < 2147483648) : InRange (n.natAbs : ℤ) := by
  apply inRange_of_abs_lt
  rwa [Int.natCast_natAbs, abs_abs]

end Range

section Builds

variable {m : Type → Type} [Build m] {n : ℤ} {k : ℕ}

theorem check_of_inRange (h : InRange n) : (check n : m Unit) = pure () := if_pos h

theorem count_of_lt (h : k < 4294967296) : (count k : m ℕ) = pure k := by
  rw [count, if_pos h, Nat.mod_eq_of_lt h]

theorem word_of_inRange [LawfulMonad m] (h : InRange n) : (word n : m ℤ) = pure n := by
  rw [word, check_of_inRange h, pure_bind, wrap_of_inRange h]

end Builds

section Lists

variable {m : Type → Type} [Monad m] [LawfulMonad m] {α β : Type} {xs : List α}

theorem mapM_eq_pure {f : α → m β} {g : α → β} (h : ∀ x ∈ xs, f x = pure (g x)) :
    xs.mapM f = pure (xs.map g) := by
  induction xs with
  | nil => rfl
  | cons x xs ih =>
    obtain ⟨hx, hxs⟩ := List.forall_mem_cons.mp h
    rw [List.mapM_cons, hx, ih hxs, pure_bind, pure_bind, List.map_cons]

theorem filterMapM_eq_pure {f : α → m (Option β)} {g : α → Option β}
    (h : ∀ x ∈ xs, f x = pure (g x)) : xs.filterMapM f = pure (xs.filterMap g) := by
  induction xs with
  | nil => rfl
  | cons x xs ih =>
    obtain ⟨hx, hxs⟩ := List.forall_mem_cons.mp h
    rw [List.filterMapM_cons, hx, ih hxs, pure_bind]
    cases hg : g x with
    | none => rw [List.filterMap_cons_none hg]
    | some y =>
      rw [List.filterMap_cons_some hg]
      exact pure_bind ..

theorem findSomeM?_eq_pure {f : α → m (Option β)} {g : α → Option β}
    (h : ∀ x ∈ xs, f x = pure (g x)) : xs.findSomeM? f = pure (xs.findSome? g) := by
  induction xs with
  | nil => rfl
  | cons x xs ih =>
    obtain ⟨hx, hxs⟩ := List.forall_mem_cons.mp h
    rw [List.findSomeM?_cons, hx, ih hxs, pure_bind, List.findSome?_cons]
    cases g x <;> rfl

theorem findM?_eq_pure {f : α → m Bool} {g : α → Bool} (h : ∀ x ∈ xs, f x = pure (g x)) :
    xs.findM? f = pure (xs.find? g) := by
  induction xs with
  | nil => rfl
  | cons x xs ih =>
    obtain ⟨hx, hxs⟩ := List.forall_mem_cons.mp h
    rw [List.findM?, hx, ih hxs, pure_bind, List.find?_cons]
    cases g x <;> rfl

/-- The second condition is not looked at where the first fails. -/
theorem pure_andM (x : Bool) (y : m Bool) : (pure x <&&> y) = if x then y else pure false := by
  unfold andM
  rw [pure_bind]
  cases x <;> rfl

theorem pure_andM_pure (x y : Bool) : (pure x <&&> pure y : m Bool) = pure (x && y) := by
  rw [pure_andM]
  cases x <;> rfl

end Lists

end FairyChess.Fixed
