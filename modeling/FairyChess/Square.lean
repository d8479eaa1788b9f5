/-! Squares, and the way of a king from one to another. -/
namespace FairyChess

/--
A point of the plane that boards are laid on. Its coordinates are any integers: the rules are stated on them, and
`FairyChess.Fixed` computes them in 32 bits.
-/
structure Square where
  file : Int
  rank : Int
  deriving DecidableEq, Repr

namespace Square

/-- Where captured pieces are put. -/
def box : Square := ⟨-1, -1⟩

/-- The number of king steps from one square to another. -/
def distance (a b : Square) : Nat :=
  max (b.file - a.file).natAbs (b.rank - a.rank).natAbs

/-- The square that a king goes to from `a` on its way to `b`: each coordinate comes one nearer, or stays. -/
def step (a b : Square) : Square :=
  ⟨a.file + (b.file - a.file).sign, a.rank + (b.rank - a.rank).sign⟩

theorem natAbs_sub_add_sign (x y : Int) : (y - (x + (y - x).sign)).natAbs = (y - x).natAbs - 1 := by
  rcases Int.lt_trichotomy (y - x) 0 with hneg | hzero | hpos
  · rw [Int.sign_eq_neg_one_of_neg hneg]
    omega
  · rw [hzero, Int.sign_zero]
    omega
  · rw [Int.sign_eq_one_of_pos hpos]
    omega

theorem distance_step (a b : Square) : (a.step b).distance b = a.distance b - 1 := by
  simp only [distance, step, natAbs_sub_add_sign]
  omega

theorem distance_pos {a b : Square} (h : a ≠ b) : 0 < a.distance b := by
  obtain ⟨file, rank⟩ := a
  obtain ⟨file', rank'⟩ := b
  have hdiffer : file ≠ file' ∨ rank ≠ rank' := by
    rw [Ne, Square.mk.injEq] at h
    omega
  dsimp only [distance]
  omega

/--
The squares strictly between two squares, the nearest to `a` first. The way goes diagonally until one
coordinate is reached, then straight.
-/
def between (a b : Square) : List Square :=
  if a = b then []
  else if a.step b = b then []
  else a.step b :: (a.step b).between b
termination_by a.distance b
decreasing_by
  have hpos : 0 < a.distance b := distance_pos ‹_›
  have hstep := distance_step a b
  omega

end Square

end FairyChess
