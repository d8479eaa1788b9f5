import FairyChess.Fixed.Word
import FairyChess.Square

/-! The way of a king in coordinates of 32 bits. -/
namespace FairyChess.Fixed

/-- The square that a king goes to from `a` on its way to `b`. -/
def step (a b : Square) : Square :=
  ⟨wrap (a.file + (wrap (b.file - a.file)).sign), wrap (a.rank + (wrap (b.rank - a.rank)).sign)⟩

/-- The number of king steps, as far as 32 bits can tell. -/
def stepsTo (a b : Square) : Nat :=
  max (wrap (b.file - a.file)).natAbs (wrap (b.rank - a.rank)).natAbs

theorem natAbs_wrap_sub_step (x y : Int) :
    (wrap (y - wrap (x + (wrap (y - x)).sign))).natAbs = (wrap (y - x)).natAbs - 1 := by
  rcases Int.lt_trichotomy (wrap (y - x)) 0 with hneg | hzero | hpos
  · rw [Int.sign_eq_neg_one_of_neg hneg]
    simp only [wrap, Int.bmod] at hneg ⊢
    omega
  · rw [hzero, Int.sign_zero]
    simp only [wrap, Int.bmod] at hzero ⊢
    omega
  · rw [Int.sign_eq_one_of_pos hpos]
    simp only [wrap, Int.bmod] at hpos ⊢
    omega

theorem stepsTo_step (a b : Square) : stepsTo (step a b) b = stepsTo a b - 1 := by
  simp only [stepsTo, step, natAbs_wrap_sub_step]
  omega

variable {m : Type → Type} [Build m]

/-- The squares strictly between two squares, the nearest to `a` first. -/
def between (a b : Square) : m (List Square) := do
  check (b.file - a.file)
  check (b.rank - a.rank)
  let across := wrap (b.file - a.file)
  let along := wrap (b.rank - a.rank)
  if stepsTo a b = 0 then return []
  else do
    check (a.file + across.sign)
    check (a.rank + along.sign)
    if step a b = b then return []
    else return step a b :: (← between (step a b) b)
termination_by stepsTo a b
decreasing_by
  have hstep := stepsTo_step a b
  omega

end FairyChess.Fixed
