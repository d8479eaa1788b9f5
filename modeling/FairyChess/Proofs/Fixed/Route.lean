import FairyChess.Fixed.Route
import FairyChess.Proofs.Bounds
import FairyChess.Proofs.Fixed.Square
import FairyChess.Proofs.Movement.Chain
import FairyChess.Proofs.Movement.Slide

/-!
Routes in coordinates of 32 bits. In a region of the plane where differences of squares fit, also once they are
multiplied by the direction of a piece, the search for a route goes in every build as it does in the plane.
-/
namespace FairyChess

open Fixed

/--
A region of the plane to compute in, for a piece that faces a direction. The coordinates of its squares fit in
32 bits, with a file to spare at either side, and so do their differences, also times the direction.
-/
@[mk_iff]
structure Bounds.Computes (z : Bounds) (direction : ℤ) : Prop where
  left : -2147483648 < z.left
  right : z.right < 2147483648
  bottom : -2147483648 ≤ z.bottom
  top : z.top ≤ 2147483648
  across : (z.right - 1 - z.left) * max 1 |direction| < 2147483648
  along : (z.top - 1 - z.bottom) * max 1 |direction| < 2147483648

instance (z : Bounds) (direction : ℤ) : Decidable (z.Computes direction) :=
  decidable_of_iff' _ (Bounds.computes_iff z direction)

namespace Bounds.Computes

variable {z : Bounds} {direction x y low high : ℤ} {a b : Square}

private theorem abs_mul_lt (hspan : (high - 1 - low) * max 1 |direction| < 2147483648)
    (hx : low ≤ x ∧ x < high) (hy : low ≤ y ∧ y < high) {factor : ℤ} (hfactor : |factor| ≤ max 1 |direction|) :
    |(y - x) * factor| < 2147483648 := by
  have hdifference : |y - x| ≤ high - 1 - low := by
    rw [abs_le]
    constructor <;> omega
  calc |(y - x) * factor| = |y - x| * |factor| := abs_mul ..
    _ ≤ (high - 1 - low) * max 1 |direction| :=
      mul_le_mul hdifference hfactor (abs_nonneg _) ((abs_nonneg _).trans hdifference)
    _ < 2147483648 := hspan

private theorem abs_sub_lt (hspan : (high - 1 - low) * max 1 |direction| < 2147483648)
    (hx : low ≤ x ∧ x < high) (hy : low ≤ y ∧ y < high) : |y - x| < 2147483648 := by
  have hone : |(1 : ℤ)| ≤ max 1 |direction| := le_max_left ..
  simpa using abs_mul_lt hspan hx hy hone

section Squares

variable (h : z.Computes direction) (ha : a ∈ z) (hb : b ∈ z)
include h

include ha in
theorem held : a.Held where
  file := by
    obtain ⟨⟨hleft, hright⟩, -⟩ := ha
    have hz := h.left
    have hz' := h.right
    constructor <;> omega
  rank := by
    obtain ⟨-, hbottom, htop⟩ := ha
    have hz := h.bottom
    have hz' := h.top
    constructor <;> omega

include ha hb

theorem abs_file_lt : |b.file - a.file| < 2147483648 := abs_sub_lt h.across ha.1 hb.1

theorem abs_rank_lt : |b.rank - a.rank| < 2147483648 := abs_sub_lt h.along ha.2 hb.2

theorem near : a.Near b where
  across := inRange_of_abs_lt (h.abs_file_lt ha hb)
  along := inRange_of_abs_lt (h.abs_rank_lt ha hb)

theorem aside : InRange ((b.file - a.file) * direction) :=
  inRange_of_abs_lt (abs_mul_lt h.across ha.1 hb.1 (le_max_right ..))

theorem ahead : InRange ((b.rank - a.rank) * direction) :=
  inRange_of_abs_lt (abs_mul_lt h.along ha.2 hb.2 (le_max_right ..))

end Squares

end Bounds.Computes

namespace Fixed

variable {m : Type → Type} [Build m] [LawfulMonad m]

section Steps

variable {z : Bounds} {direction : ℤ} {frame : Frame} {a b : Square}

theorem between_eq (h : z.Computes direction) (ha : a ∈ z) (hb : b ∈ z) :
    (between a b : m (List Square)) = pure (a.between b) :=
  between_of_near (h.held ha) (h.held hb) (h.near ha hb)

theorem distance_eq (h : z.Computes direction) (ha : a ∈ z) (hb : b ∈ z) :
    (distance a b : m ℤ) = pure (a.distance b : ℤ) := by
  have hnear := h.near ha hb
  rw [distance, word_of_inRange hnear.across, pure_bind, word_of_inRange (inRange_natAbs (h.abs_file_lt ha hb)),
    pure_bind, word_of_inRange hnear.along, pure_bind, word_of_inRange (inRange_natAbs (h.abs_rank_lt ha hb)),
    pure_bind, Square.distance, Nat.cast_max]

/-- The counts that a ride tries, before it is known which split the displacement. -/
def tried (count : Count) (a b : Square) : List ℕ :=
  match count with
  | .fixed k => if 0 < k ∧ k ≤ Count.limit then [k] else []
  | .wildcard => List.range' 1 (a.distance b)

theorem counts_eq (h : z.Computes direction) (ha : a ∈ z) (hb : b ∈ z) (count : Count) :
    (counts count a b : m (List ℕ)) = pure (tried count a b) := by
  cases count with
  | fixed k => rfl
  | wildcard =>
    rw [counts, distance_eq h ha hb, pure_bind, Int.toNat_natCast]
    rfl

theorem filter_tried (count : Count) (a b : Square) :
    (tried count a b).filter (fun k : ℕ => (b.file - a.file) % k = 0 ∧ (b.rank - a.rank) % k = 0) =
      count.splits a b := by
  have hkept (k : ℕ) (hk : 0 < k) : decide ((b.file - a.file) % k = 0 ∧ (b.rank - a.rank) % k = 0) =
      (decide (0 < k) && (b.file - a.file) % k == 0 && (b.rank - a.rank) % k == 0) := by
    rw [decide_eq_true hk, Bool.true_and, Bool.decide_and]
    rfl
  unfold tried Count.splits
  cases count with
  | wildcard =>
    refine List.filter_congr fun k hk => hkept k ?_
    exact (List.mem_range'_1.mp hk).1
  | fixed k =>
    by_cases hlimit : k ≤ Count.limit
    · by_cases hpos : 0 < k
      · simp only [hpos, hlimit, and_self, if_true]
        exact List.filter_congr fun k' hk' => hkept k' (List.mem_singleton.mp hk' ▸ hpos)
      · simp [hpos]
    · simp [hlimit]

/-- The parts of a displacement within the region end within it. -/
theorem milestones_eq (h : z.Computes direction) (ha : a ∈ z) (hb : b ∈ z) {count : Count} {k : ℕ}
    (hk : k ∈ count.splits a b) :
    (milestones a (b.file - a.file) (b.rank - a.rank) k : m (List Square)) =
      pure ((List.range' 1 k).map (a.milestone b k)) := by
  refine mapM_eq_pure fun i hi => ?_
  have hpart : i ≤ k := by
    have hlt := (List.mem_range'_1.mp hi).2
    omega
  have hmem : a.milestone b k i ∈ z := Square.milestone_mem hk ha hb hpart
  obtain ⟨hfile, hrank⟩ := h.held hmem
  have hacross : (b.file - a.file) / k * i = (a.milestone b k i).file - a.file := by
    rw [Square.milestone, add_sub_cancel_left]
  have halong : (b.rank - a.rank) / k * i = (a.milestone b k i).rank - a.rank := by
    rw [Square.milestone, add_sub_cancel_left]
  have hnear := h.near ha hmem
  rw [hacross, halong, word_of_inRange hnear.across, pure_bind, add_sub_cancel, word_of_inRange hfile,
    pure_bind, word_of_inRange hnear.along, pure_bind, add_sub_cancel, word_of_inRange hrank, pure_bind]

theorem allows_eq (h : z.Computes frame.direction) (hboard : ∀ s ∈ frame.bounds, s ∈ z) (ha : a ∈ z)
    (s : Step) : (allows s frame a b : m Bool) = pure (s.allows frame a b) := by
  unfold allows Step.allows
  cases hopen : decide (b ∈ frame.bounds) && a != b && !s.dummy &&
    !(s.firstMove && decide (0 < frame.turns)) with
  | false => rfl
  | true =>
    have hmem : b ∈ frame.bounds := by
      simp only [Bool.and_eq_true, decide_eq_true_eq] at hopen
      exact hopen.1.1.1
    have hb : b ∈ z := hboard b hmem
    have hnear := h.near ha hb
    rw [if_pos rfl, word_of_inRange hnear.across, pure_bind, word_of_inRange hnear.along, pure_bind,
      word_of_inRange (h.ahead ha hb), word_of_inRange (h.aside ha hb), Bool.true_and]
    simp only [map_pure, pure_andM_pure, Bool.and_assoc]

end Steps

section Search

variable {z : Bounds} {frame : Frame}

/-- A search that tries only what a condition lets through may as well try the others in vain. -/
theorem anyM_ite {α : Type} {n : Type → Type} [Monad n] [LawfulMonad n] (q : α → Prop) [DecidablePred q]
    (f : α → n Bool) (xs : List α) :
    (xs.anyM fun x => if q x then f x else pure false) = (xs.filter fun x => q x).anyM f := by
  induction xs with
  | nil => rfl
  | cons x xs ih =>
    rw [List.anyM_cons, List.filter_cons, ih]
    by_cases hx : q x
    · simp only [hx, if_true, decide_true, List.anyM_cons]
    · simp only [hx, if_false, decide_false, pure_bind, Bool.false_eq_true]

/-- The solver walks through the routes of its stack, each put behind what the buffer holds. -/
theorem solve_run (h : z.Computes frame.direction) (hboard : ∀ s ∈ frame.bounds, s ∈ z)
    (accept : Route → m Bool) {goals : List Goal} {a : Square} (ha : a ∈ z)
    (hgoals : ∀ g ∈ goals, g.target ∈ z) (buffer : Route) :
    (solve frame accept goals a).run buffer =
      searchEnd buffer <$>
        (Goal.routesAlong frame goals a).findM? fun route => accept (buffer ++ route) := by
  induction goals, a using Pattern.solve.induct frame generalizing buffer with
  | case1 a =>
    simp only [solve, Goal.routesAlong, List.findM?, List.append_nil, StateT.run_bind, StateT.run_get,
      StateT.run_monadLift, pure_bind, map_bind, monadLift_self]
    refine bind_congr fun found => ?_
    cases found <;> simp [searchEnd]
  | case2 s b gait rest a hs ih =>
    obtain ⟨hb, hrest⟩ := List.forall_mem_cons.mp hgoals
    have hallows : (allows s frame a b : m Bool) = pure true := by
      rw [allows_eq h hboard ha, hs]
    simp only [solve, hallows, monadLift_pure, Goal.routesAlong, Pattern.routes, hs, if_true,
      List.flatMap_cons, List.flatMap_nil, List.append_nil, findM?_map, StateT.run_bind,
      StateT.run_modify, pure_bind, ih hb hrest, bind_map_left, Functor.map_map, List.append_assoc]
    rw [map_eq_pure_bind]
    refine bind_congr fun found => ?_
    cases found <;> simp [searchEnd]
  | case3 s b gait rest a hs =>
    have hallows : (allows s frame a b : m Bool) = pure false := by
      rw [allows_eq h hboard ha, Bool.eq_false_iff.mpr hs]
    simp [solve, hallows, Goal.routesAlong, Pattern.routes, hs, searchEnd]
  | case4 count own pattern b gait rest a ih =>
    obtain ⟨hb, hrest⟩ := List.forall_mem_cons.mp hgoals
    have hnear := h.near ha hb
    simp only [solve, word_of_inRange hnear.across, word_of_inRange hnear.along, counts_eq h ha hb,
      monadLift_pure, pure_bind]
    rw [anyM_ite (fun k : ℕ => (b.file - a.file) % k = 0 ∧ (b.rank - a.rank) % k = 0), filter_tried,
      routesAlong_ride, findM?_flatMap]
    refine run_anyM fun k hk => ?_
    have hlinks : ∀ g ∈ Goal.links pattern (gait.join own) a b k ++ rest, g.target ∈ z := by
      refine List.forall_mem_append.mpr ⟨fun g hg => ?_, hrest⟩
      obtain ⟨i, hi, rfl⟩ := List.mem_map.mp hg
      have hlt := (List.mem_range'_1.mp hi).2
      exact Square.milestone_mem hk ha hb (by omega)
    rw [milestones_eq h ha hb hk, ← ih k ha hlinks buffer, Goal.links]
    simp only [monadLift_pure, pure_bind, List.map_map]
    rfl
  | case5 first second b gait rest a ih =>
    obtain ⟨hb, hrest⟩ := List.forall_mem_cons.mp hgoals
    rw [solve, routesAlong_andThen, findM?_flatMap]
    refine run_anyM fun mid hmid => ih mid ha ?_ buffer
    have hmem : mid ∈ z := hboard mid (Bounds.mem_squares.mp hmid)
    simpa using ⟨hmem, hb, hrest⟩

theorem findRoute_eq_findM? (h : z.Computes frame.direction) (hboard : ∀ s ∈ frame.bounds, s ∈ z) (p : Pattern)
    {a b : Square} (ha : a ∈ z) (hb : b ∈ z) (accept : Route → m Bool) :
    findRoute p frame a b accept = (p.routes frame {} a b).findM? accept := by
  have hroutes : Goal.routesAlong frame [⟨p, b, {}⟩] a = p.routes frame {} a b := by
    simp [Goal.routesAlong]
  have hend (found : Option Route) :
      (if (searchEnd [] found).1 then some (searchEnd [] found).2 else none) = found := by
    cases found <;> rfl
  have hgoals : ∀ g ∈ [(⟨p, b, {}⟩ : Goal)], g.target ∈ z := by simpa using hb
  simp only [findRoute, solve_run h hboard accept ha hgoals, hroutes, List.nil_append, bind_map_left, hend,
    bind_pure]

/-- The steps of a route stay within the region. -/
theorem ends_mem_of_mem_routes (hboard : ∀ s ∈ frame.bounds, s ∈ z) {p : Pattern} {gait : Gait} {a b : Square}
    (ha : a ∈ z) {route : Route} (hroute : route ∈ p.routes frame gait a b) :
    ∀ step ∈ route, step.start ∈ z ∧ step.finish ∈ z := by
  have hstack : route ∈ Goal.routesAlong frame [⟨p, b, gait⟩] a := by
    simpa [Goal.routesAlong] using hroute
  obtain ⟨hjoins, -⟩ := joins_of_mem_routesAlong hstack
  clear hroute hstack
  generalize Goal.destination [⟨p, b, gait⟩] a = finish at hjoins
  induction hjoins with
  | stay => exact List.forall_mem_nil _
  | step gait hne hmid hlater ih =>
    exact List.forall_mem_cons.mpr ⟨⟨ha, hboard _ hmid⟩, ih (hboard _ hmid)⟩

end Search

end Fixed

end FairyChess
