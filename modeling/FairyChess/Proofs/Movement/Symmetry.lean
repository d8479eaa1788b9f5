import FairyChess.Proofs.Bounds
import FairyChess.Proofs.Movement.Routes
import FairyChess.Proofs.Square

/-!
Symmetries of the rules of movement: shifts of the board, and half turns, which also turn the way that
pieces face. They take steps to steps and the routes of a pattern to its routes. A half turn finds them in
another order, since the middle squares of a sequence are tried from the other end of the board.
-/
namespace FairyChess

/-- A shift of the plane, after half a turn about the origin if `turned`. -/
structure Symmetry where
  turned : Bool := false
  files : ℤ
  ranks : ℤ
  deriving DecidableEq, Repr

namespace Symmetry

/-- What becomes of the unit steps along the axes. -/
def sign (e : Symmetry) : ℤ :=
  if e.turned then -1 else 1

def square (e : Symmetry) (s : Square) : Square :=
  ⟨e.sign * s.file + e.files, e.sign * s.rank + e.ranks⟩

/-- The limits of the image of a board. A half turn exchanges opposite edges. -/
def bounds (e : Symmetry) (b : Bounds) : Bounds :=
  if e.turned then ⟨e.files + 1 - b.right, e.files + 1 - b.left, e.ranks + 1 - b.top, e.ranks + 1 - b.bottom⟩
  else ⟨b.left + e.files, b.right + e.files, b.bottom + e.ranks, b.top + e.ranks⟩

def frame (e : Symmetry) (f : Frame) : Frame :=
  ⟨e.sign * f.direction, f.turns, e.bounds f.bounds⟩

def segment (e : Symmetry) (s : Segment) : Segment :=
  ⟨e.square s.start, e.square s.finish, s.gait⟩

def route (e : Symmetry) (r : Route) : Route :=
  r.map e.segment

variable (e : Symmetry)

theorem sign_eq : e.sign = 1 ∨ e.sign = -1 := by
  cases h : e.turned <;> simp [sign, h]

@[simp] theorem sign_mul_sign (x : ℤ) : e.sign * (e.sign * x) = x := by
  rcases e.sign_eq with h | h <;> simp [h]

@[simp] theorem natAbs_sign_mul (x : ℤ) : (e.sign * x).natAbs = x.natAbs := by
  rcases e.sign_eq with h | h <;> simp [h]

theorem sign_sign_mul (x : ℤ) : (e.sign * x).sign = e.sign * x.sign := by
  rcases e.sign_eq with h | h <;> simp [h]

theorem dvd_sign_mul {k x : ℤ} : k ∣ e.sign * x ↔ k ∣ x := by
  rcases e.sign_eq with h | h <;> simp [h]

theorem sign_mul_ediv {k x : ℤ} (hk : k ∣ x) : e.sign * x / k = e.sign * (x / k) :=
  Int.mul_ediv_assoc e.sign hk

section Squares

variable (a b : Square)

theorem file_sub : (e.square b).file - (e.square a).file = e.sign * (b.file - a.file) := by
  simp only [square]
  ring

theorem rank_sub : (e.square b).rank - (e.square a).rank = e.sign * (b.rank - a.rank) := by
  simp only [square]
  ring

/-- The squares of a rank stay in line. -/
theorem square_beside (x : ℤ) :
    Square.mk ((e.square a).file + e.sign * x) (e.square a).rank = e.square ⟨a.file + x, a.rank⟩ := by
  simp only [square, Square.mk.injEq, and_true]
  ring

theorem rank_square : (e.square b).rank = (e.square a).rank ↔ b.rank = a.rank := by
  rcases e.sign_eq with h | h <;> simp [square, h]

theorem square_injective : Function.Injective e.square := by
  rintro ⟨file, rank⟩ ⟨file', rank'⟩ h
  obtain ⟨hfile, hrank⟩ := Square.mk.inj h
  simp only [Square.mk.injEq]
  rcases e.sign_eq with hsign | hsign <;> simp only [hsign] at hfile hrank <;> omega

theorem square_bne : (e.square a != e.square b) = (a != b) := by
  rw [Bool.eq_iff_iff, bne_iff_ne, bne_iff_ne]
  exact e.square_injective.ne_iff

theorem square_surjective : Function.Surjective e.square := by
  rintro ⟨file, rank⟩
  refine ⟨⟨e.sign * (file - e.files), e.sign * (rank - e.ranks)⟩, ?_⟩
  simp [square]

theorem square_mem_bounds {b : Bounds} {s : Square} : e.square s ∈ e.bounds b ↔ s ∈ b := by
  change (_ ∧ _) ∧ _ ∧ _ ↔ (_ ∧ _) ∧ _ ∧ _
  cases h : e.turned <;> simp only [square, bounds, sign, h, if_true, Bool.false_eq_true, if_false] <;> omega

theorem width_bounds (b : Bounds) : (e.bounds b).right - (e.bounds b).left = b.right - b.left := by
  cases h : e.turned <;> simp only [bounds, h, if_true, Bool.false_eq_true, if_false] <;> omega

@[simp] theorem distance_square : (e.square a).distance (e.square b) = a.distance b := by
  rw [Square.distance, file_sub, rank_sub, natAbs_sign_mul, natAbs_sign_mul, Square.distance]

theorem step_square (s t : Square) : (e.square s).step (e.square t) = e.square (s.step t) := by
  rw [Square.step, file_sub, rank_sub, sign_sign_mul, sign_sign_mul]
  simp only [square, Square.step, Square.mk.injEq]
  constructor <;> ring

/-- The way between two squares is turned with them. -/
theorem between_square : (e.square a).between (e.square b) = (a.between b).map e.square :=
  Square.between_map e.square_injective e.step_square a b

theorem splits_square (count : Count) : count.splits (e.square a) (e.square b) = count.splits a b := by
  unfold Count.splits
  rw [distance_square]
  refine List.filter_congr fun k _ => ?_
  rw [Bool.eq_iff_iff]
  simp only [file_sub, rank_sub, Bool.and_eq_true, beq_iff_eq, decide_eq_true_eq,
    ← Int.dvd_iff_emod_eq_zero, dvd_sign_mul]

theorem milestone_square {count : Count} {k : ℕ} (hk : k ∈ count.splits a b) (i : ℕ) :
    (e.square a).milestone (e.square b) k i = e.square (a.milestone b k i) := by
  obtain ⟨-, -, hfile, hrank⟩ := Count.mem_splits.mp hk
  have hfiles : ((e.square b).file - (e.square a).file) / k = e.sign * ((b.file - a.file) / k) := by
    rw [file_sub, e.sign_mul_ediv hfile]
  have hranks : ((e.square b).rank - (e.square a).rank) / k = e.sign * ((b.rank - a.rank) / k) := by
    rw [rank_sub, e.sign_mul_ediv hrank]
  rw [Square.milestone, hfiles, hranks]
  simp only [Square.milestone, square, Square.mk.injEq]
  constructor <;> ring

/-- Whether a step is allowed does not change with the board and the way the piece faces. -/
theorem allows_square (s : Step) (f : Frame) :
    s.allows (e.frame f) (e.square a) (e.square b) = s.allows f a b := by
  have hmem : decide (e.square b ∈ (e.frame f).bounds) = decide (b ∈ f.bounds) :=
    decide_eq_decide.mpr e.square_mem_bounds
  have hturn (x : ℤ) : e.sign * x * (e.sign * f.direction) = x * f.direction := by
    rcases e.sign_eq with h | h <;> simp [h]
  unfold Step.allows
  rw [hmem, square_bne]
  simp only [frame, file_sub, rank_sub, natAbs_sign_mul, hturn]
  rfl

end Squares

theorem squares_perm (b : Bounds) : (e.bounds b).squares.Perm (b.squares.map e.square) := by
  have hnodup : (b.squares.map e.square).Nodup := b.nodup_squares.map e.square_injective
  rw [List.perm_ext_iff_of_nodup (Bounds.nodup_squares _) hnodup]
  intro s
  obtain ⟨s, rfl⟩ := e.square_surjective s
  rw [Bounds.mem_squares, square_mem_bounds, List.mem_map_of_injective e.square_injective, Bounds.mem_squares]

/-- A shift keeps the order of the squares. -/
theorem squares_eq (h : e.turned = false) (b : Bounds) :
    (e.bounds b).squares = b.squares.map e.square := by
  have hinterval (lo hi t : ℤ) :
      Bounds.interval (lo + t) (hi + t) = (Bounds.interval lo hi).map (· + t) := by
    have hlength : hi + t - (lo + t) = hi - lo := by ring
    simp only [Bounds.interval, hlength, List.map_map]
    refine List.map_congr_left fun i _ => ?_
    simp only [Function.comp_apply]
    ring
  simp only [Bounds.squares, bounds, square, sign, h, Bool.false_eq_true, if_false, hinterval,
    List.flatMap_map, List.map_flatMap, List.map_map, Function.comp_def, one_mul]

section Routes

variable {lists lists' : List (List Route)}

theorem concatenations_route :
    concatenations (lists.map (List.map e.route)) = (concatenations lists).map e.route := by
  induction lists with
  | nil => rfl
  | cons heads rest ih =>
    simp only [List.map_cons, concatenations, ih, List.flatMap_map, List.map_flatMap, List.map_map,
      Function.comp_def, route, List.map_append]

theorem concatenations_perm (h : List.Forall₂ List.Perm lists lists') :
    (concatenations lists).Perm (concatenations lists') := by
  induction h with
  | nil => exact .refl _
  | cons hheads _ ih => exact hheads.flatMap fun head _ => ih.map _

variable (p : Pattern) (f : Frame) (gait : Gait) (a b : Square)

/-- The routes between the images of two squares are the images of the routes between them. -/
theorem routes_perm : (p.routes (e.frame f) gait (e.square a) (e.square b)).Perm
    ((p.routes f gait a b).map e.route) := by
  induction p generalizing gait a b with
  | step s =>
    simp only [Pattern.routes, allows_square]
    split <;> simp [route, segment]
  | ride count own pattern ih =>
    simp only [Pattern.routes, splits_square, List.map_flatMap]
    refine List.Perm.flatMap_left _ fun k hk => ?_
    rw [← concatenations_route]
    refine concatenations_perm ?_
    rw [List.map_map, List.forall₂_map_left_iff, List.forall₂_map_right_iff, List.forall₂_same]
    intro i _
    simp only [e.milestone_square a b hk]
    exact ih _ _ _
  | andThen first second ihFirst ihSecond =>
    simp only [Pattern.routes, List.map_flatMap]
    refine ((e.squares_perm f.bounds).flatMap_right _).trans ?_
    rw [List.flatMap_map]
    refine List.Perm.flatMap_left _ fun mid _ => ?_
    refine ((ihFirst gait a mid).flatMap_right _).trans ?_
    rw [List.flatMap_map]
    refine List.Perm.flatMap_left _ fun head _ => ?_
    refine ((ihSecond gait mid b).map _).trans ?_
    simp [route, Function.comp_def]

/-- A shift also keeps the order of the routes. -/
theorem routes_eq (h : e.turned = false) : p.routes (e.frame f) gait (e.square a) (e.square b) =
    (p.routes f gait a b).map e.route := by
  induction p generalizing gait a b with
  | step s =>
    simp only [Pattern.routes, allows_square]
    split <;> simp [route, segment]
  | ride count own pattern ih =>
    simp only [Pattern.routes, splits_square, List.map_flatMap]
    refine List.flatMap_congr fun k hk => ?_
    simp only [e.milestone_square a b hk, ih, ← concatenations_route, List.map_map, Function.comp_def]
  | andThen first second ihFirst ihSecond =>
    have hmids : (e.frame f).bounds.squares = f.bounds.squares.map e.square := e.squares_eq h f.bounds
    simp only [Pattern.routes, hmids, ihFirst, ihSecond, List.flatMap_map, List.map_flatMap, List.map_map,
      Function.comp_def, route, List.map_append]

end Routes

end Symmetry

end FairyChess
