import FairyChess.Fixed.Square
import FairyChess.Proofs.Fixed.Word
import FairyChess.Proofs.Square

/-!
The way of a king in coordinates of 32 bits. It is the shortest one where both differences of the coordinates
fit. Where one does not, a build with checks stops, and one without goes to the square that looks like `b` from
`a`: the nearest one whose coordinates have the low bits of those of `b`.
-/
namespace FairyChess

open Fixed

/-- The coordinates of the square fit in 32 bits. -/
structure Square.Held (s : Square) : Prop where
  file : InRange s.file
  rank : InRange s.rank

/-- The differences from `a` to `b` fit in 32 bits. -/
structure Square.Near (a b : Square) : Prop where
  across : InRange (b.file - a.file)
  along : InRange (b.rank - a.rank)

namespace Fixed

/-- The square that holds the low bits of the coordinates of another. -/
def wrapSquare (s : Square) : Square :=
  ⟨wrap s.file, wrap s.rank⟩

section Steps

variable {a b : Square}

theorem wrapSquare_of_held (h : a.Held) : wrapSquare a = a :=
  congrArg₂ Square.mk (wrap_of_inRange h.file) (wrap_of_inRange h.rank)

/-- A king step brings a near square nearer. -/
theorem near_step (h : a.Near b) : (a.step b).Near b := by
  have hcoordinate (x y : ℤ) (hxy : InRange (y - x)) : InRange (y - (x + (y - x).sign)) := by
    obtain ⟨hlow, hhigh⟩ := hxy
    have hstep := Square.natAbs_sub_add_sign x y
    constructor <;> omega
  exact ⟨hcoordinate _ _ h.across, hcoordinate _ _ h.along⟩

theorem held_step (ha : a.Held) (hb : b.Held) : (a.step b).Held := by
  have hcoordinate (x y : ℤ) (hx : InRange x) (hy : InRange y) : InRange (x + (y - x).sign) := by
    obtain ⟨hxlow, hxhigh⟩ := hx
    obtain ⟨hylow, hyhigh⟩ := hy
    have hbetween := Square.approach_between x y 1
    rw [Square.approach_one] at hbetween
    constructor <;> omega
  exact ⟨hcoordinate _ _ ha.file hb.file, hcoordinate _ _ ha.rank hb.rank⟩

/-- Where the differences fit, the low bits of the squares tell the step. -/
theorem step_wrapSquare (h : a.Near b) : step (wrapSquare a) (wrapSquare b) = wrapSquare (a.step b) := by
  simp only [step, wrapSquare, wrap_sub_wrap, wrap_of_inRange h.across, wrap_of_inRange h.along,
    wrap_wrap_add, Square.step]

theorem stepsTo_wrapSquare (h : a.Near b) : stepsTo (wrapSquare a) (wrapSquare b) = a.distance b := by
  simp only [stepsTo, wrapSquare, wrap_sub_wrap, wrap_of_inRange h.across, wrap_of_inRange h.along,
    Square.distance]

end Steps

section Ways

variable {a b : Square}

/-- A round between near squares is a king step. -/
theorem round_of_near {m : Type → Type} [Build m] (ha : a.Held) (hb : b.Held) (h : a.Near b) (hne : a ≠ b) :
    stepsTo a b ≠ 0 ∧ step a b = a.step b ∧
      (check (a.file + (wrap (b.file - a.file)).sign) : m Unit) = pure () ∧
      (check (a.rank + (wrap (b.rank - a.rank)).sign) : m Unit) = pure () := by
  have hnext : (a.step b).Held := held_step ha hb
  have hsteps : stepsTo a b = a.distance b := by
    rw [← stepsTo_wrapSquare h, wrapSquare_of_held ha, wrapSquare_of_held hb]
  have hstep : step a b = a.step b := by
    have hwrapped := step_wrapSquare h
    rwa [wrapSquare_of_held ha, wrapSquare_of_held hb, wrapSquare_of_held hnext] at hwrapped
  rw [hsteps, wrap_of_inRange h.across, wrap_of_inRange h.along]
  exact ⟨(Square.distance_pos hne).ne', hstep, check_of_inRange hnext.file, check_of_inRange hnext.rank⟩

/-- In every build the way between near squares is the one in the plane. -/
theorem between_of_near {m : Type → Type} [Build m] [LawfulMonad m] (ha : a.Held) (hb : b.Held)
    (h : a.Near b) : (between a b : m (List Square)) = pure (a.between b) := by
  induction a using Square.between.induct b with
  | case1 =>
    have hsteps : stepsTo b b = 0 := by
      rw [← wrapSquare_of_held hb, stepsTo_wrapSquare h, Square.distance_self]
    rw [between, check_of_inRange h.across, check_of_inRange h.along, pure_bind, pure_bind, if_pos hsteps,
      Square.between_self]
  | case2 a hne hnext =>
    obtain ⟨hsteps, hstep, hfile, hrank⟩ := round_of_near (m := m) ha hb h hne
    rw [between, check_of_inRange h.across, check_of_inRange h.along, pure_bind, pure_bind, if_neg hsteps,
      hfile, hrank, pure_bind, pure_bind, hstep, if_pos hnext, Square.between_of_step hnext]
  | case3 a hne hnext ih =>
    obtain ⟨hsteps, hstep, hfile, hrank⟩ := round_of_near (m := m) ha hb h hne
    rw [between, check_of_inRange h.across, check_of_inRange h.along, pure_bind, pure_bind, if_neg hsteps,
      hfile, hrank, pure_bind, pure_bind, hstep, if_neg hnext, ih (held_step ha hb) (near_step h), pure_bind,
      Square.between_cons hne hnext]

end Ways

end Fixed

end FairyChess
