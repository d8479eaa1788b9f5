import FairyChess.Proofs.Movement.Routes

/-!
Rides of rides. A fixed ride of a fixed ride goes the way of one ride whose count is the product of theirs, and
a ride of one part goes the way of its pattern.
-/
namespace FairyChess

theorem Gait.join_assoc (g own inner : Gait) : (g.join own).join inner = g.join (own.join inner) := by
  simp only [join, Bool.or_assoc]

@[simp] theorem Gait.join_plain (g : Gait) : g.join {} = g := by
  simp only [join, Bool.or_false]

section Joints

variable {xs ys : List (List Route)}

theorem concatenations_singleton (routes : List Route) : concatenations [routes] = routes := by
  simp [concatenations]

theorem concatenations_append (xs ys : List (List Route)) : concatenations (xs ++ ys) =
    (concatenations xs).flatMap fun head => (concatenations ys).map (head ++ ·) := by
  induction xs with
  | nil => simp [concatenations]
  | cons routes xs ih =>
    simp only [List.cons_append, concatenations, ih, List.flatMap_assoc, List.map_flatMap, List.flatMap_map,
      List.map_map]
    simp only [Function.comp_def, List.append_assoc]

/-- Routes joined block by block are the routes joined one by one. -/
theorem concatenations_blocks (links : ℕ → List Route) (a b : ℕ) :
    concatenations ((List.range a).map fun i =>
      concatenations ((List.range b).map fun j => links (i * b + j))) =
    concatenations ((List.range (a * b)).map links) := by
  induction a with
  | zero => simp
  | succ a ih =>
    have hrange : List.range ((a + 1) * b) = List.range (a * b) ++ (List.range b).map (a * b + ·) := by
      rw [Nat.succ_mul, List.range_add]
    rw [List.range_succ, List.map_append, List.map_singleton, concatenations_append, ih,
      concatenations_singleton, hrange, List.map_append, concatenations_append, List.map_map]
    rfl

/-- Nothing is joined where a link has no route. -/
theorem concatenations_eq_nil (h : [] ∈ xs) : concatenations xs = [] := by
  induction xs with
  | nil => cases h
  | cons routes xs ih =>
    rcases List.mem_cons.mp h with rfl | h
    · rfl
    · rw [concatenations, ih h]
      simp

end Joints

section Parts

variable {x y : Square} {a b k : ℕ}

theorem Count.splits_fixed (hk : 0 < k) (hlimit : k ≤ Count.limit) (x y : Square) :
    (Count.fixed k).splits x y =
      if (k : ℤ) ∣ y.file - x.file ∧ (k : ℤ) ∣ y.rank - x.rank then [k] else [] := by
  simp only [splits, if_pos hlimit, List.filter_cons, List.filter_nil, hk, decide_true, Bool.true_and,
    Bool.and_eq_true, beq_iff_eq, Int.dvd_iff_emod_eq_zero]

/-- The parts of the parts of a displacement are parts of the whole. -/
theorem Square.milestone_milestone (hfile : (a : ℤ) ∣ y.file - x.file ∧ (b : ℤ) ∣ (y.file - x.file) / a)
    (hrank : (a : ℤ) ∣ y.rank - x.rank ∧ (b : ℤ) ∣ (y.rank - x.rank) / a) (i j : ℕ) :
    (x.milestone y a i).milestone (x.milestone y a (i + 1)) b j = x.milestone y (a * b) (i * b + j) := by
  have hpart {start whole : ℤ} (hb : (b : ℤ) ∣ whole / a) :
      start + whole / a * i + whole / a / b * j =
        start + whole / (a * b : ℕ) * (i * b + j : ℕ) := by
    obtain ⟨part, hpart⟩ := hb
    have hwhole : whole / (a * b : ℕ) = whole / a / b := by
      rw [Nat.cast_mul, Int.ediv_ediv_of_nonneg (Int.natCast_nonneg a)]
    rw [hwhole]
    have hexact : whole / a = whole / a / b * b := (Int.ediv_mul_cancel ⟨part, hpart⟩).symm
    push_cast
    linear_combination (i : ℤ) * hexact
  rw [Square.milestone, file_milestone_succ, rank_milestone_succ]
  exact congrArg₂ Square.mk (hpart hfile.2) (hpart hrank.2)

end Parts

namespace Pattern

variable {a b k : ℕ} (frame : Frame) (gait : Gait) (x y : Square)

theorem routes_ride_fixed (hk : 0 < k) (hlimit : k ≤ Count.limit) (own : Gait) (p : Pattern) :
    (ride (.fixed k) own p).routes frame gait x y =
      if (k : ℤ) ∣ y.file - x.file ∧ (k : ℤ) ∣ y.rank - x.rank then
        concatenations ((List.range k).map fun i =>
          p.routes frame (gait.join own) (x.milestone y k i) (x.milestone y k (i + 1)))
      else [] := by
  rw [routes, Count.splits_fixed hk hlimit]
  split_ifs
  · rw [List.flatMap_singleton]
  · rfl

/-- A ride of one part adds nothing to its pattern but its gait. -/
theorem routes_ride_one (own : Gait) (p : Pattern) :
    (ride (.fixed 1) own p).routes frame gait x y = p.routes frame (gait.join own) x y := by
  have hlast : x.milestone y 1 1 = y := by simp [Square.milestone]
  rw [routes_ride_fixed frame gait x y Nat.one_pos (by decide)]
  simp [concatenations_singleton, hlast]

/-- The parts of a ride are rides themselves. -/
theorem routes_ride_ride (ha : 0 < a) (hb : 0 < b) (hlimit : a * b ≤ Count.limit) (outer inner : Gait)
    (p : Pattern) :
    (ride (.fixed a) outer (ride (.fixed b) inner p)).routes frame gait x y =
      (ride (.fixed (a * b)) (outer.join inner) p).routes frame gait x y := by
  have hlimitA : a ≤ Count.limit := (Nat.le_mul_of_pos_right a hb).trans hlimit
  have hlimitB : b ≤ Count.limit := (Nat.le_mul_of_pos_left b ha).trans hlimit
  rw [routes_ride_fixed frame gait x y ha hlimitA,
    routes_ride_fixed frame gait x y (Nat.mul_pos ha hb) hlimit]
  by_cases hsplit : (a : ℤ) ∣ y.file - x.file ∧ (a : ℤ) ∣ y.rank - x.rank
  swap
  · have hwhole : ¬(((a * b : ℕ) : ℤ) ∣ y.file - x.file ∧ ((a * b : ℕ) : ℤ) ∣ y.rank - x.rank) := by
      rintro ⟨hfile, hrank⟩
      push_cast at hfile hrank
      exact hsplit ⟨dvd_of_mul_right_dvd hfile, dvd_of_mul_right_dvd hrank⟩
    rw [if_neg hsplit, if_neg hwhole]
  obtain ⟨hfile, hrank⟩ := hsplit
  have hparts : ((b : ℤ) ∣ (y.file - x.file) / a ∧ (b : ℤ) ∣ (y.rank - x.rank) / a) ↔
      (((a * b : ℕ) : ℤ) ∣ y.file - x.file ∧ ((a * b : ℕ) : ℤ) ∣ y.rank - x.rank) := by
    rw [Nat.cast_mul, Int.dvd_ediv_iff_mul_dvd hfile, Int.dvd_ediv_iff_mul_dvd hrank]
  simp only [routes_ride_fixed frame (gait.join outer) _ _ hb hlimitB, Square.file_milestone_succ,
    Square.rank_milestone_succ, Gait.join_assoc]
  rw [if_pos ⟨hfile, hrank⟩]
  by_cases hinner : (b : ℤ) ∣ (y.file - x.file) / a ∧ (b : ℤ) ∣ (y.rank - x.rank) / a
  · -- Link `j` of part `i` is link `i * b + j` of the whole.
    rw [if_pos (hparts.mp hinner), ← concatenations_blocks]
    simp only [if_pos hinner, Square.milestone_milestone ⟨hfile, hinner.1⟩ ⟨hrank, hinner.2⟩]
    rfl
  · rw [if_neg (mt hparts.mpr hinner)]
    simp only [if_neg hinner]
    apply concatenations_eq_nil
    exact List.mem_map.mpr ⟨0, List.mem_range.mpr ha, rfl⟩

/--
Two patterns that no search can tell apart. Whatever a callback keeps and answers, it is asked about the same
routes in the same order, and the search ends with the same answer.
-/
structure Interchangeable (p q : Pattern) : Prop where
  candidates (frame : Frame) (x y : Square) : p.candidates frame x y = q.candidates frame x y
  asked (frame : Frame) (x y : Square) {σ : Type} (accept : Route → StateM σ Bool) (s : σ) :
    (p.findRoute frame x y (logged accept)).run (s, []) = (q.findRoute frame x y (logged accept)).run (s, [])
  answer (frame : Frame) (x y : Square) {σ : Type} (accept : Route → StateM σ Bool) (s : σ) :
    (p.findRoute frame x y accept).run s = (q.findRoute frame x y accept).run s

theorem Interchangeable.of_routes {p q : Pattern}
    (h : ∀ frame x y, p.routes frame {} x y = q.routes frame {} x y) : p.Interchangeable q where
  candidates frame x y := by simp only [candidates_eq_routes, h]
  asked frame x y _ accept s := by simp only [findRoute_eq_findM?, h]
  answer frame x y _ accept s := by simp only [findRoute_eq_findM?, h]

/--
A fixed ride of a fixed ride and the one ride with the product of their counts and the marks of either are
searched in the same way. A ride of one part without marks is searched as its pattern.
-/
theorem interchangeable_ride_ride {a b : ℕ} (ha : 0 < a) (hb : 0 < b) (hlimit : a * b ≤ Count.limit)
    (outer inner : Gait) (p : Pattern) :
    let whole : Gait := ⟨outer.leaper || inner.leaper, outer.locust || inner.locust⟩
    (ride (.fixed a) outer (ride (.fixed b) inner p)).Interchangeable (ride (.fixed (a * b)) whole p) ∧
      (ride (.fixed 1) {} p).Interchangeable p := by
  refine ⟨.of_routes fun frame x y => ?_, .of_routes fun frame x y => ?_⟩
  · exact routes_ride_ride frame {} x y ha hb hlimit outer inner p
  · rw [routes_ride_one, Gait.join_plain]

/-- Two rides of two parts, each of them a step to either side and one ahead in either order. -/
theorem interchangeable_ride_ride_corners :
    let side : Step := { shape := .orthogonal, heading := .sideways, distance := .single (.exact 1) }
    let ahead : Step := { shape := .orthogonal, heading := .vertical, distance := .single (.exact 1) }
    let corner : Pattern := .andThen (.step side) (.step ahead)
    let nested : Pattern := .ride (.fixed 2) ⟨true, false⟩ (.ride (.fixed 2) ⟨false, true⟩ corner)
    let single : Pattern := .ride (.fixed 4) ⟨true, true⟩ corner
    let frame : Frame := { direction := 1, turns := 0, bounds := ⟨0, 5, 0, 5⟩ }
    (0 < 2 ∧ 2 * 2 ≤ Count.limit) ∧ nested.Interchangeable single ∧
      (nested.candidates frame ⟨0, 4⟩ ⟨4, 0⟩).map (·.map (·.finish)) =
        [[⟨1, 4⟩, ⟨1, 3⟩, ⟨2, 3⟩, ⟨2, 2⟩, ⟨3, 2⟩, ⟨3, 1⟩, ⟨4, 1⟩, ⟨4, 0⟩]] ∧
      nested.candidates frame ⟨0, 4⟩ ⟨2, 0⟩ = [] := by
  intro side ahead corner nested single frame
  obtain ⟨hnested, -⟩ := interchangeable_ride_ride (a := 2) (b := 2) (by decide) (by decide) (by decide)
    ⟨true, false⟩ ⟨false, true⟩ corner
  refine ⟨by decide, hnested, ?_, ?_⟩
  · rw [candidates_eq_routes]
    decide
  · rw [candidates_eq_routes]
    decide

end Pattern

end FairyChess
