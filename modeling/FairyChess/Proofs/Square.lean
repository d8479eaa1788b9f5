import FairyChess.Bounds
import Mathlib.Data.List.Chain
import Mathlib.Tactic

/-!
The way of a king between two squares: where it is after each step, how far that is from either end, and
which maps of the plane take ways to ways.
-/
namespace FairyChess

namespace Square

/-- The coordinate `n` unit steps from `x` toward `y`, or `y` itself once it is reached. -/
def approach (x y : ℤ) (n : ℕ) : ℤ :=
  x + (y - x).sign * min n (y - x).natAbs

section Coordinates

variable (x y : ℤ) (n : ℕ)

/-- Unit steps come as near to a coordinate as their number allows. -/
theorem approach_eq_max_min : approach x y n = max (x - n) (min (x + n) y) := by
  rw [approach]
  rcases lt_trichotomy (y - x) 0 with hneg | hzero | hpos
  · rw [Int.sign_eq_neg_one_of_neg hneg]
    omega
  · rw [hzero, Int.sign_zero]
    omega
  · rw [Int.sign_eq_one_of_pos hpos]
    omega

/-- No step is lost where the coordinate is reached at the start or not before the last of them. -/
theorem approach_of_le {x y : ℤ} {n : ℕ} (h : y - x = 0 ∨ n ≤ (y - x).natAbs) :
    approach x y n = x + n * (y - x).sign := by
  rw [approach]
  rcases h with hzero | hle
  · rw [hzero, Int.sign_zero, zero_mul, mul_zero]
  · have hmin : min n (y - x).natAbs = n := Nat.min_eq_left hle
    rw [hmin, mul_comm]

theorem approach_one : approach x y 1 = x + (y - x).sign := by
  have hstep : y - x = 0 ∨ 1 ≤ (y - x).natAbs := by omega
  rw [approach_of_le hstep, Nat.cast_one, one_mul]

theorem approach_between : min x y ≤ approach x y n ∧ approach x y n ≤ max x y := by
  rw [approach_eq_max_min]
  omega

end Coordinates

section Steps

variable {a b : Square} {n : ℕ}

@[simp] theorem distance_self (a : Square) : a.distance a = 0 := by
  simp [distance]

end Steps

section Ways

variable {a b : Square}

@[simp] theorem between_self (a : Square) : a.between a = [] := by
  rw [between, if_pos rfl]

theorem between_of_step (h : a.step b = b) : a.between b = [] := by
  rw [between]
  split_ifs <;> rfl

theorem between_cons (hne : a ≠ b) (hstep : a.step b ≠ b) :
    a.between b = a.step b :: (a.step b).between b := by
  rw [between, if_neg hne, if_neg hstep]

/-- A map of the plane that takes king steps to king steps takes ways to ways. -/
theorem between_map {f : Square → Square} (hf : Function.Injective f)
    (hstep : ∀ s t, (f s).step (f t) = f (s.step t)) (a b : Square) :
    (f a).between (f b) = (a.between b).map f := by
  induction a using between.induct b with
  | case1 => simp
  | case2 a hne hnext =>
    rw [between_of_step hnext, between_of_step (by rw [hstep, hnext])]
    rfl
  | case3 a hne hnext ih =>
    have hnext' : (f a).step (f b) ≠ f b := by
      rw [hstep]
      exact hf.ne hnext
    rw [between_cons hne hnext, between_cons (hf.ne hne) hnext', hstep, ih, List.map_cons]

/-- The square lies in the least rectangle around two others. -/
def Within (s a b : Square) : Prop :=
  (min a.file b.file ≤ s.file ∧ s.file ≤ max a.file b.file) ∧
    min a.rank b.rank ≤ s.rank ∧ s.rank ≤ max a.rank b.rank

theorem Within.mem {s : Square} {board : Bounds} (h : s.Within a b) (ha : a ∈ board) (hb : b ∈ board) :
    s ∈ board := by
  obtain ⟨⟨haLeft, haRight⟩, haBottom, haTop⟩ := ha
  obtain ⟨⟨hbLeft, hbRight⟩, hbBottom, hbTop⟩ := hb
  obtain ⟨⟨hleft, hright⟩, hbottom, htop⟩ := h
  exact ⟨⟨(le_min haLeft hbLeft).trans hleft, hright.trans_lt (max_lt haRight hbRight)⟩,
    (le_min haBottom hbBottom).trans hbottom, htop.trans_lt (max_lt haTop hbTop)⟩

/-- Two diagonal steps, then two along the rank. -/
example : (⟨0, 0⟩ : Square).between ⟨5, 2⟩ = [⟨1, 1⟩, ⟨2, 2⟩, ⟨3, 2⟩, ⟨4, 2⟩] := by
  cbv

end Ways

end Square

end FairyChess
