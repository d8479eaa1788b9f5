import FairyChess.Proofs.Movement.Routes
import FairyChess.Proofs.Square

/-!
Slides and rides by unit steps. Along a straight line there is one way to split a displacement into steps to
neighbouring squares, and the steps go through the squares in between.
-/
namespace FairyChess

/-- The marks of a step that tell directions apart. How far it goes does not matter to them. -/
structure Step.Aims (s : Step) (frame : Frame) (across along : ℤ) : Prop where
  dummy : s.dummy = false
  firstMove : s.firstMove = true → frame.turns = 0
  shape : s.shape.admits across.natAbs along.natAbs = true
  heading : s.heading.admits (along * frame.direction) = true
  lateral : s.lateral.admits (across * frame.direction) = true

/-- A step of any length along a line, which neither leaps nor captures on the way. -/
structure Step.Slides (s : Step) : Prop where
  shape : s.shape ≠ .free
  distance : s.distance = .unbounded ∨ s.distance = .single .any
  gait : s.gait = {}

section Scaling

variable {k : ℕ} (hk : 0 < k)
include hk

end Scaling

namespace Step

variable {s : Step} {frame : Frame} {a b : Square}

theorem allows_iff : s.allows frame a b = true ↔ b ∈ frame.bounds ∧ a ≠ b ∧
    s.Aims frame (b.file - a.file) (b.rank - a.rank) ∧
      s.distance.admits (b.file - a.file).natAbs (b.rank - a.rank).natAbs = true := by
  simp only [allows, Bool.and_eq_true, decide_eq_true_eq, bne_iff_ne, Bool.not_eq_true',
    Bool.and_eq_false_imp, decide_eq_false_iff_not, Nat.not_lt, Nat.le_zero]
  constructor
  · rintro ⟨⟨⟨⟨hmem, hne⟩, hdummy⟩, hfirst⟩, ⟨⟨hshape, hheading⟩, hlateral⟩, hdistance⟩
    exact ⟨hmem, hne, ⟨hdummy, hfirst, hshape, hheading, hlateral⟩, hdistance⟩
  · rintro ⟨hmem, hne, haims, hdistance⟩
    exact ⟨⟨⟨⟨hmem, hne⟩, haims.dummy⟩, haims.firstMove⟩,
      ⟨⟨haims.shape, haims.heading⟩, haims.lateral⟩, hdistance⟩

theorem Slides.allows_iff (h : s.Slides) : s.allows frame a b = true ↔
    b ∈ frame.bounds ∧ a ≠ b ∧ s.Aims frame (b.file - a.file) (b.rank - a.rank) := by
  have hany : s.distance.admits (b.file - a.file).natAbs (b.rank - a.rank).natAbs = true := by
    rcases h.distance with hdistance | hdistance <;> rw [hdistance] <;> rfl
  rw [Step.allows_iff, hany]
  simp only [and_true]

end Step

/-- A shape other than `free` admits displacements that are straight. -/
theorem Shape.dvd_of_admits {shape : Shape} (hshape : shape ≠ .free) {across along : ℕ}
    (h : shape.admits across along = true) :
    max across along ∣ across ∧ max across along ∣ along := by
  have hstraight : across = 0 ∨ along = 0 ∨ across = along := by
    cases shape with
    | omni => simpa [admits, or_assoc] using h
    | orthogonal =>
      have haxis : across = 0 ∨ along = 0 := by simpa [admits] using h
      exact haxis.imp_right .inl
    | diagonal => exact .inr (.inr (by simpa [admits] using h))
    | free => exact absurd rfl hshape
  rcases hstraight with rfl | rfl | rfl <;> simp

section Parts

variable {k i : ℕ} {x y : ℤ}

private theorem part_mem {left right : ℤ} (hk : (k : ℤ) ∣ y - x) (hpos : 0 < k) (hi : i ≤ k)
    (hx : left ≤ x ∧ x < right) (hy : left ≤ y ∧ y < right) :
    left ≤ x + (y - x) / k * i ∧ x + (y - x) / k * i < right := by
  obtain ⟨e, he⟩ := hk
  have hdiv : (y - x) / k = e := Int.ediv_eq_of_eq_mul_right (by omega) he
  rw [hdiv]
  rw [mul_comm] at he
  rcases le_total 0 e with hsign | hsign
  · have hlow : 0 ≤ e * i := by positivity
    have hhigh : e * i ≤ e * k := mul_le_mul_of_nonneg_left (by omega) hsign
    omega
  · have hlow : e * i ≤ 0 := mul_nonpos_of_nonpos_of_nonneg hsign (by omega)
    have hhigh : e * k ≤ e * i := mul_le_mul_of_nonpos_left (by omega) hsign
    omega

end Parts

namespace Square

variable {count : Count} {a b : Square} {k i : ℕ}

/-- The parts of a displacement end on the board that its ends are on. -/
theorem milestone_mem {board : Bounds} (hk : k ∈ count.splits a b) (ha : a ∈ board) (hb : b ∈ board)
    (hi : i ≤ k) : a.milestone b k i ∈ board := by
  obtain ⟨-, hpos, hfile, hrank⟩ := Count.mem_splits.mp hk
  exact ⟨part_mem hfile hpos hi ha.1 hb.1, part_mem hrank hpos hi ha.2 hb.2⟩

end Square

section Rides

variable {count : Count} {a b : Square} {k i : ℕ} {s : Step} {frame : Frame} {route : Route}

namespace Step.Slides

/-- What a slide is aimed at lies straight ahead. -/
theorem mem_splits (h : s.Slides) (hne : a ≠ b)
    (haims : s.Aims frame (b.file - a.file) (b.rank - a.rank)) :
    a.distance b ∈ Count.wildcard.splits a b := by
  obtain ⟨hfile, hrank⟩ := Shape.dvd_of_admits h.shape haims.shape
  exact Count.mem_splits.mpr
    ⟨le_rfl, Square.distance_pos hne, Int.natCast_dvd.mpr hfile, Int.natCast_dvd.mpr hrank⟩

end Step.Slides

end Rides

end FairyChess
