import FairyChess.Proofs.Movement.Routes

/-!
Routes as chains of steps. Whatever goals are pending on the solver's stack, the routes through them lead from
square to square over the board, to the target of the last goal.
-/
namespace FairyChess

/-- Steps over a board from one square to another. Each goes on from where the one before it ended. -/
inductive Route.Joins (board : Bounds) : Square → Square → Route → Prop
  | stay (a : Square) : Joins board a a []
  | step {a mid b : Square} {later : Route} (gait : Gait) (hne : a ≠ mid) (hmid : mid ∈ board)
      (hlater : Joins board mid b later) : Joins board a b (⟨a, mid, gait⟩ :: later)

namespace Route.Joins

variable {board : Bounds} {a b : Square} {route : Route} {step : Segment}

theorem start_of_head? (h : Joins board a b route) (hstep : step ∈ route.head?) : step.start = a := by
  cases h with
  | stay => cases hstep
  | step gait hne hmid hlater =>
    obtain rfl := Option.some.inj hstep
    rfl

theorem finish_of_getLast? (h : Joins board a b route) (hstep : step ∈ route.getLast?) :
    step.finish = b := by
  induction h with
  | stay => cases hstep
  | @step a mid b later gait hne hmid hlater ih =>
    cases hlater with
    | stay =>
      obtain rfl := Option.some.inj hstep
      rfl
    | step gait' hne' hmid' hlater' => exact ih hstep

theorem isChain (h : Joins board a b route) : route.IsChain fun s t => s.finish = t.start := by
  induction h with
  | stay => exact .nil
  | step gait hne hmid hlater ih =>
    exact List.isChain_cons.mpr ⟨fun next hnext => (hlater.start_of_head? hnext).symm, ih⟩

theorem of_mem (h : Joins board a b route) (hstep : step ∈ route) :
    step.start ≠ step.finish ∧ step.finish ∈ board := by
  induction h with
  | stay => cases hstep
  | step gait hne hmid hlater ih =>
    rcases List.mem_cons.mp hstep with rfl | hstep
    · exact ⟨hne, hmid⟩
    · exact ih hstep

end Route.Joins

/-- A route that is a chain of steps from `a` to `b`, none of them in place and none off the board. -/
structure Route.Connects (route : Route) (board : Bounds) (a b : Square) : Prop where
  ne_nil : route ≠ []
  start_eq : ∀ step ∈ route.head?, step.start = a
  finish_eq : ∀ step ∈ route.getLast?, step.finish = b
  linked : route.IsChain fun s t => s.finish = t.start
  moves : ∀ step ∈ route, step.start ≠ step.finish
  onBoard : ∀ step ∈ route, step.finish ∈ board

theorem Route.Joins.connects {board : Bounds} {a b : Square} {route : Route} (h : Joins board a b route)
    (hne : route ≠ []) : route.Connects board a b where
  ne_nil := hne
  start_eq _ hstep := h.start_of_head? hstep
  finish_eq _ hstep := h.finish_of_getLast? hstep
  linked := h.isChain
  moves _ hstep := (h.of_mem hstep).1
  onBoard _ hstep := (h.of_mem hstep).2

theorem Route.Connects.exists_last {route : Route} {board : Bounds} {a b : Square}
    (h : route.Connects board a b) : ∃ step ∈ route, step.finish = b :=
  ⟨_, List.getLast_mem h.ne_nil, h.finish_eq _ (List.getLast?_eq_some_getLast h.ne_nil)⟩

namespace Goal

/-- Where a stack of goals leads from a square. -/
def destination : List Goal → Square → Square
  | [], a => a
  | g :: rest, _ => destination rest g.target

theorem destination_append (goals rest : List Goal) (a : Square) :
    destination (goals ++ rest) a = destination rest (destination goals a) := by
  induction goals generalizing a with
  | nil => rfl
  | cons g goals ih => exact ih g.target

/-- The last link of a ride leads to where the ride does. -/
theorem destination_links {count : Count} {a b : Square} {k : ℕ} (hk : k ∈ count.splits a b)
    (pattern : Pattern) (gait : Gait) (rest : List Goal) :
    destination (links pattern gait a b k ++ rest) a = destination rest b := by
  obtain ⟨n, rfl⟩ : ∃ n, k = n + 1 := Nat.exists_eq_add_one.mpr (Count.mem_splits.mp hk).2.1
  have hlast : a.milestone b (n + 1) (1 + n) = b := by
    rw [Nat.add_comm 1 n]
    exact Square.milestone_last hk
  rw [destination_append, links, List.range'_1_concat, List.map_append, List.map_singleton,
    destination_append]
  simp only [destination, hlast]

theorem length_links (pattern : Pattern) (gait : Gait) (a b : Square) (k : ℕ) :
    (links pattern gait a b k).length = k := by
  rw [links, List.length_map, List.length_range']

end Goal

theorem Step.ends_of_allows {s : Step} {frame : Frame} {a b : Square} (h : s.allows frame a b = true) :
    a ≠ b ∧ b ∈ frame.bounds := by
  simp only [Step.allows, Bool.and_eq_true, decide_eq_true_eq, bne_iff_ne] at h
  exact ⟨h.1.1.1.2, h.1.1.1.1⟩

/-- The routes through a stack of goals lead to its destination, with a step or more for each goal. -/
theorem joins_of_mem_routesAlong {frame : Frame} {goals : List Goal} {a : Square} {route : Route}
    (h : route ∈ Goal.routesAlong frame goals a) :
    route.Joins frame.bounds a (Goal.destination goals a) ∧ goals.length ≤ route.length := by
  -- The stack unfolds as it does for the solver, whose choices are passed to it one by one.
  induction goals, a using Pattern.solve.induct frame generalizing route with
  | case1 a =>
    obtain rfl := List.mem_singleton.mp h
    exact ⟨.stay a, le_rfl⟩
  | case2 s b gait rest a hs ih =>
    obtain ⟨hne, hmem⟩ := Step.ends_of_allows hs
    simp only [Goal.routesAlong, Pattern.routes, hs, if_true, List.flatMap_singleton, List.mem_map] at h
    obtain ⟨later, hlater, rfl⟩ := h
    obtain ⟨hjoins, hlength⟩ := ih hlater
    exact ⟨.step _ hne hmem hjoins, Nat.succ_le_succ hlength⟩
  | case3 s b gait rest a hs =>
    simp [Goal.routesAlong, Pattern.routes, hs] at h
  | case4 count own pattern b gait rest a ih =>
    rw [routesAlong_ride] at h
    obtain ⟨k, hk, h⟩ := List.mem_flatMap.mp h
    obtain ⟨hjoins, hlength⟩ := ih k h
    have hpos : 0 < k := (Count.mem_splits.mp hk).2.1
    rw [Goal.destination_links hk] at hjoins
    rw [List.length_append, Goal.length_links] at hlength
    refine ⟨hjoins, ?_⟩
    rw [List.length_cons]
    omega
  | case5 first second b gait rest a ih =>
    rw [routesAlong_andThen] at h
    obtain ⟨mid, -, h⟩ := List.mem_flatMap.mp h
    obtain ⟨hjoins, hlength⟩ := ih mid h
    exact ⟨hjoins, Nat.le_of_succ_le hlength⟩

theorem Pattern.connects_of_mem_routes {p : Pattern} {frame : Frame} {gait : Gait} {a b : Square}
    {route : Route} (h : route ∈ p.routes frame gait a b) : route.Connects frame.bounds a b := by
  have hstack : route ∈ Goal.routesAlong frame [⟨p, b, gait⟩] a := by
    simpa [Goal.routesAlong] using h
  obtain ⟨hjoins, hlength⟩ := joins_of_mem_routesAlong hstack
  exact hjoins.connects (List.ne_nil_of_length_pos hlength)

section Search

variable {σ : Type} {accept : Route → StateM σ Bool}

/-- Only routes of the list are asked about, and the answer is one of those asked about. -/
theorem Tries.mem {routes calls : List Route} {answer : Option Route} {s t : σ}
    (h : Tries accept routes answer calls s t) :
    (∀ route ∈ calls, route ∈ routes) ∧ ∀ route ∈ answer, route ∈ calls := by
  induction h with
  | exhausted s => exact ⟨nofun, nofun⟩
  | @accepted first rest s t haccepted =>
    refine ⟨fun route hroute => ?_, fun route hroute => ?_⟩
    · exact List.mem_singleton.mp hroute ▸ List.mem_cons_self
    · exact Option.some.inj hroute ▸ List.mem_cons_self
  | @refused first rest calls answer s t u hrefused later ih =>
    obtain ⟨hcalls, hanswer⟩ := ih
    refine ⟨fun route hroute => ?_, fun route hroute => List.mem_cons_of_mem _ (hanswer route hroute)⟩
    rcases List.mem_cons.mp hroute with rfl | hroute
    · exact List.mem_cons_self
    · exact List.mem_cons_of_mem _ (hcalls route hroute)

/--
Every route that a search asks about, whatever the callback keeps and answers, is a chain of one step or more
from the square it starts from to the one it is to reach. Each step begins where the one before it ends, and
ends on another square, which is on the board. The route that is found is one of them.
-/
theorem findRoute_connects (p : Pattern) (frame : Frame) (a b : Square) (accept : Route → StateM σ Bool)
    (s t : σ) (answer : Option Route) (asked : List Route)
    (h : (p.findRoute frame a b (logged accept)).run (s, []) = (answer, t, asked)) :
    (∀ route ∈ asked, route.Connects frame.bounds a b) ∧ ∀ route ∈ answer, route ∈ asked := by
  obtain ⟨calls, htries⟩ := exists_tries accept (p.routes frame {} a b) s
  obtain ⟨hroutes, hanswer⟩ := htries.mem
  rw [Pattern.findRoute_eq_findM?, htries.run_logged [], List.nil_append] at h
  obtain ⟨rfl, hrest⟩ := Prod.mk.inj h
  obtain ⟨-, rfl⟩ := Prod.mk.inj hrest
  exact ⟨fun route hroute => Pattern.connects_of_mem_routes (hroutes route hroute), hanswer⟩

/-- Two king steps, taken twice, from a square off the board. The first route is refused. -/
theorem findRoute_connects_detour :
    let king : Step := { distance := .single (.exact 1) }
    let p : Pattern := .ride (.fixed 2) {} (.andThen (.step king) (.step king))
    let frame : Frame := { direction := 1, turns := 0, bounds := ⟨0, 4, 0, 4⟩ }
    let accept : Route → StateM ℕ Bool := fun _ tried => (decide (0 < tried), tried + 1)
    let half : Route := [⟨⟨-1, 0⟩, ⟨0, 0⟩, {}⟩, ⟨⟨0, 0⟩, ⟨1, 0⟩, {}⟩]
    let straight : Route := half ++ [⟨⟨1, 0⟩, ⟨2, 0⟩, {}⟩, ⟨⟨2, 0⟩, ⟨3, 0⟩, {}⟩]
    let detour : Route := half ++ [⟨⟨1, 0⟩, ⟨2, 1⟩, {}⟩, ⟨⟨2, 1⟩, ⟨3, 0⟩, {}⟩]
    (p.findRoute frame ⟨-1, 0⟩ ⟨3, 0⟩ (logged accept)).run (0, []) = (some detour, 2, [straight, detour]) ∧
      straight.Connects frame.bounds ⟨-1, 0⟩ ⟨3, 0⟩ ∧ detour.Connects frame.bounds ⟨-1, 0⟩ ⟨3, 0⟩ := by
  intro king p frame accept half straight detour
  obtain ⟨others, hroutes⟩ : ∃ others, p.routes frame {} ⟨-1, 0⟩ ⟨3, 0⟩ = straight :: detour :: others :=
    ⟨(p.routes frame {} ⟨-1, 0⟩ ⟨3, 0⟩).drop 2, by decide +kernel⟩
  have hrun : (p.findRoute frame ⟨-1, 0⟩ ⟨3, 0⟩ (logged accept)).run (0, []) =
      (some detour, 2, [straight, detour]) := by
    rw [Pattern.findRoute_eq_findM?, hroutes]
    rfl
  obtain ⟨hasked, -⟩ := findRoute_connects p frame _ _ accept 0 2 _ _ hrun
  exact ⟨hrun, hasked straight (by simp), hasked detour (by simp)⟩

end Search

end FairyChess
