import FairyChess.Movement.Route
import Mathlib.Tactic

/-! The routes of a pattern as a list, and the search for a route as a walk through that list. -/
namespace FairyChess

/-- Every way of joining one route from each list, in lexicographic order. -/
def concatenations : List (List Route) → List Route
  | [] => [[]]
  | heads :: rest => heads.flatMap fun head => (concatenations rest).map (head ++ ·)

/--
The routes of a pattern from one square to another. A ride has, for each count in order, the ways of
joining a route for each of its links, and a sequence, for each middle square in the order of the
board, the ways of joining a route to it and a route from it.
-/
def Pattern.routes (frame : Frame) : Pattern → Gait → Square → Square → List Route
  | .step s, gait, a, b =>
    if s.allows frame a b then [[⟨a, b, gait.join s.gait⟩]] else []
  | .ride count own pattern, gait, a, b =>
    (count.splits a b).flatMap fun k =>
      concatenations ((List.range k).map fun i =>
        pattern.routes frame (gait.join own) (a.milestone b k i) (a.milestone b k (i + 1)))
  | .andThen first second, gait, a, b =>
    frame.bounds.squares.flatMap fun mid =>
      (first.routes frame gait a mid).flatMap fun head =>
        (second.routes frame gait mid b).map (head ++ ·)

/-- The routes through the goals of a stack, one after another from `a`. -/
def Goal.routesAlong (frame : Frame) : List Goal → Square → List Route
  | [], _ => [[]]
  | g :: rest, a =>
    (g.pattern.routes frame g.gait a g.target).flatMap fun head =>
      (routesAlong frame rest g.target).map (head ++ ·)

section Milestones

variable {count : Count} {a b : Square} {k : ℕ}

theorem Count.mem_splits : k ∈ count.splits a b ↔
    (match count with
      | .fixed n => k = n ∧ n ≤ Count.limit
      | .wildcard => k ≤ a.distance b) ∧
    0 < k ∧ (k : ℤ) ∣ b.file - a.file ∧ (k : ℤ) ∣ b.rank - a.rank := by
  simp only [Count.splits, List.mem_filter, Int.dvd_iff_emod_eq_zero, Bool.and_eq_true, beq_iff_eq,
    decide_eq_true_eq, and_assoc]
  cases count with
  | fixed n => by_cases hn : n ≤ Count.limit <;> simp [hn]
  | wildcard =>
    simp only [List.mem_range'_1]
    omega

@[simp] theorem Square.milestone_zero (a b : Square) (k : ℕ) : a.milestone b k 0 = a := by
  simp [Square.milestone]

theorem Square.milestone_last (hk : k ∈ count.splits a b) : a.milestone b k k = b := by
  obtain ⟨-, -, hfile, hrank⟩ := Count.mem_splits.mp hk
  simp only [Square.milestone, Int.ediv_mul_cancel hfile, Int.ediv_mul_cancel hrank]
  cases b
  simp

theorem Square.file_milestone_succ (a b : Square) (k i : ℕ) :
    (a.milestone b k (i + 1)).file - (a.milestone b k i).file = (b.file - a.file) / k := by
  simp only [Square.milestone]
  push_cast
  ring

theorem Square.rank_milestone_succ (a b : Square) (k i : ℕ) :
    (a.milestone b k (i + 1)).rank - (a.milestone b k i).rank = (b.rank - a.rank) / k := by
  simp only [Square.milestone]
  push_cast
  ring

end Milestones

section Stacks

variable (frame : Frame)

theorem routesAlong_milestones (pattern : Pattern) (gait : Gait) (a b : Square) (k : ℕ)
    (rest : List Goal) (n j : ℕ) :
    Goal.routesAlong frame
        ((List.range' (j + 1) n).map (fun i => ⟨pattern, a.milestone b k i, gait⟩) ++ rest)
        (a.milestone b k j) =
      (concatenations ((List.range' j n).map fun i =>
        pattern.routes frame gait (a.milestone b k i) (a.milestone b k (i + 1)))).flatMap fun head =>
          (Goal.routesAlong frame rest (a.milestone b k (j + n))).map (head ++ ·) := by
  induction n generalizing j with
  | zero => simp [concatenations]
  | succ n ih =>
    have hj : j + (n + 1) = j + 1 + n := by omega
    simp only [List.range'_succ, List.map_cons, List.cons_append, Goal.routesAlong, concatenations,
      ih, hj, List.flatMap_assoc, List.map_flatMap, List.flatMap_map, List.map_map]
    simp only [Function.comp_def, List.append_assoc]

/-- A ride's links lead along the ways of joining their routes. -/
theorem routesAlong_links {count : Count} {a b : Square} {k : ℕ} (hk : k ∈ count.splits a b)
    (pattern : Pattern) (gait : Gait) (rest : List Goal) :
    Goal.routesAlong frame (Goal.links pattern gait a b k ++ rest) a =
      (concatenations ((List.range k).map fun i =>
        pattern.routes frame gait (a.milestone b k i) (a.milestone b k (i + 1)))).flatMap fun head =>
          (Goal.routesAlong frame rest b).map (head ++ ·) := by
  have h := routesAlong_milestones frame pattern gait a b k rest k 0
  simpa only [Goal.links, List.range_eq_range', Square.milestone_zero, Nat.zero_add,
    Square.milestone_last hk] using h

theorem routesAlong_ride (count : Count) (own gait : Gait) (pattern : Pattern) (a b : Square)
    (rest : List Goal) :
    Goal.routesAlong frame (⟨.ride count own pattern, b, gait⟩ :: rest) a =
      (count.splits a b).flatMap fun k =>
        Goal.routesAlong frame (Goal.links pattern (gait.join own) a b k ++ rest) a := by
  simp only [Goal.routesAlong, Pattern.routes, List.flatMap_assoc]
  exact List.flatMap_congr fun k hk => (routesAlong_links frame hk _ _ _).symm

theorem routesAlong_andThen (first second : Pattern) (gait : Gait) (a b : Square)
    (rest : List Goal) :
    Goal.routesAlong frame (⟨.andThen first second, b, gait⟩ :: rest) a =
      frame.bounds.squares.flatMap fun mid =>
        Goal.routesAlong frame ([⟨first, mid, gait⟩, ⟨second, b, gait⟩] ++ rest) a := by
  simp only [List.cons_append, List.nil_append, Goal.routesAlong, Pattern.routes,
    List.flatMap_assoc, List.map_flatMap, List.flatMap_map, List.map_map]
  simp only [Function.comp_def, List.append_assoc]

end Stacks

section Search

variable {m : Type → Type v} [Monad m] [LawfulMonad m]

theorem findM?_map {α β : Type} (f : α → β) (accept : β → m Bool) (xs : List α) :
    (xs.map f).findM? accept = Option.map f <$> xs.findM? fun x => accept (f x) := by
  induction xs with
  | nil => simp
  | cons x xs ih =>
    simp only [List.map_cons, List.findM?, ih, map_bind]
    refine bind_congr fun found => ?_
    cases found <;> simp

theorem findM?_append {α : Type} (accept : α → m Bool) (xs ys : List α) :
    (xs ++ ys).findM? accept = (do
      match ← xs.findM? accept with
      | some x => return some x
      | none => ys.findM? accept) := by
  induction xs with
  | nil => simp
  | cons x xs ih =>
    simp only [List.cons_append, List.findM?, ih, bind_assoc]
    refine bind_congr fun found => ?_
    cases found <;> simp

theorem findM?_flatMap {α β : Type} (f : α → List β) (accept : β → m Bool) (xs : List α) :
    (xs.flatMap f).findM? accept = xs.findSomeM? fun x => (f x).findM? accept := by
  induction xs with
  | nil => simp
  | cons x xs ih =>
    simp only [List.flatMap_cons, findM?_append, ih, List.findSomeM?_cons]
    rfl

/-- What a search answers and leaves in the buffer when it comes to an end. -/
def searchEnd (buffer : Route) : Option Route → Bool × Route
  | some route => (true, buffer ++ route)
  | none => (false, buffer)

theorem run_anyM {α : Type} {buffer : Route} {f : α → StateT Route m Bool} {g : α → m (Option Route)}
    {xs : List α} (h : ∀ x ∈ xs, (f x).run buffer = searchEnd buffer <$> g x) :
    (xs.anyM f).run buffer = searchEnd buffer <$> xs.findSomeM? g := by
  induction xs with
  | nil => simp [searchEnd]
  | cons x xs ih =>
    obtain ⟨hx, hxs⟩ := List.forall_mem_cons.mp h
    simp only [List.anyM_cons, StateT.run_bind, hx, List.findSomeM?_cons, map_bind, bind_map_left]
    refine bind_congr fun found => ?_
    cases found with
    | some route => simp [searchEnd]
    | none => simpa [searchEnd] using ih hxs

/-- The solver walks through the routes of its stack, each put behind what the buffer holds. -/
theorem solve_run (frame : Frame) (accept : Route → m Bool) (goals : List Goal) (a : Square)
    (buffer : Route) :
    (Pattern.solve frame accept goals a).run buffer =
      searchEnd buffer <$>
        (Goal.routesAlong frame goals a).findM? fun route => accept (buffer ++ route) := by
  induction goals, a using Pattern.solve.induct frame generalizing buffer with
  | case1 a =>
    simp only [Pattern.solve, Goal.routesAlong, List.findM?, List.append_nil, StateT.run_bind,
      StateT.run_get, StateT.run_monadLift, pure_bind, map_bind, monadLift_self]
    refine bind_congr fun found => ?_
    cases found <;> simp [searchEnd]
  | case2 s b gait rest a hs ih =>
    simp only [Pattern.solve, Goal.routesAlong, Pattern.routes, hs, if_true, List.flatMap_cons,
      List.flatMap_nil, List.append_nil, findM?_map, StateT.run_bind, StateT.run_modify, pure_bind,
      ih, bind_map_left, Functor.map_map, List.append_assoc]
    rw [map_eq_pure_bind]
    refine bind_congr fun found => ?_
    cases found <;> simp [searchEnd]
  | case3 s b gait rest a hs => simp [Pattern.solve, Goal.routesAlong, Pattern.routes, hs, searchEnd]
  | case4 count own pattern b gait rest a ih =>
    rw [Pattern.solve, routesAlong_ride, findM?_flatMap]
    exact run_anyM fun k _ => ih k buffer
  | case5 first second b gait rest a ih =>
    rw [Pattern.solve, routesAlong_andThen, findM?_flatMap]
    exact run_anyM fun mid _ => ih mid buffer

/-- Whatever the monad, a search has the effects of trying the routes in order, and its answer. -/
theorem Pattern.findRoute_eq_findM? (p : Pattern) (frame : Frame) (a b : Square)
    (accept : Route → m Bool) :
    p.findRoute frame a b accept = (p.routes frame {} a b).findM? accept := by
  have hroutes : Goal.routesAlong frame [⟨p, b, {}⟩] a = p.routes frame {} a b := by
    simp [Goal.routesAlong]
  have hend (found : Option Route) :
      (if (searchEnd [] found).1 then some (searchEnd [] found).2 else none) = found := by
    cases found <;> rfl
  simp only [Pattern.findRoute, solve_run, hroutes, List.nil_append, bind_map_left, hend, bind_pure]

end Search

section Callbacks

variable {σ : Type} (accept : Route → StateM σ Bool)

/--
Calling a callback on the routes of a list in order, up to and including the first it accepts. The
relation gives that route, the calls made, and the states of the callback before and after them.
-/
inductive Tries : List Route → Option Route → List Route → σ → σ → Prop
  | exhausted (s : σ) : Tries [] none [] s s
  | accepted {route : Route} {rest : List Route} {s t : σ}
      (h : (accept route).run s = (true, t)) : Tries (route :: rest) (some route) [route] s t
  | refused {route : Route} {rest calls : List Route} {answer : Option Route} {s t u : σ}
      (h : (accept route).run s = (false, t)) (later : Tries rest answer calls t u) :
      Tries (route :: rest) answer (route :: calls) s u

/-- The callback that also writes down, after what is written already, the route it is called on. -/
def logged (route : Route) : StateM (σ × List Route) Bool := fun (s, log) =>
  let (answer, t) := (accept route).run s
  (answer, t, log ++ [route])

private theorem findM?_run_cons {τ : Type} (accept : Route → StateM τ Bool) (route : Route)
    (rest : List Route) (s : τ) :
    ((route :: rest).findM? accept).run s =
      if ((accept route).run s).1 then (some route, ((accept route).run s).2)
      else (rest.findM? accept).run ((accept route).run s).2 := by
  simp only [List.findM?, StateT.run_bind]
  change (match ((accept route).run s).1 with
    | true => pure (some route)
    | false => rest.findM? accept).run ((accept route).run s).2 = _
  cases ((accept route).run s).1 <;> rfl

theorem exists_tries (routes : List Route) (s : σ) :
    ∃ calls, Tries accept routes ((routes.findM? accept).run s).1 calls s
      ((routes.findM? accept).run s).2 := by
  induction routes generalizing s with
  | nil => exact ⟨[], .exhausted s⟩
  | cons route rest ih =>
    rw [findM?_run_cons]
    split
    · rename_i haccepted
      exact ⟨[route], .accepted (Prod.ext haccepted rfl)⟩
    · rename_i hrefused
      obtain ⟨calls, hlater⟩ := ih ((accept route).run s).2
      exact ⟨route :: calls, .refused (Prod.ext (Bool.eq_false_iff.mpr hrefused) rfl) hlater⟩

variable {accept}

theorem Tries.run {routes calls : List Route} {answer : Option Route} {s t : σ}
    (h : Tries accept routes answer calls s t) : (routes.findM? accept).run s = (answer, t) := by
  induction h with
  | exhausted s => rfl
  | accepted h => rw [findM?_run_cons, h, if_pos rfl]
  | refused h _ ih => rw [findM?_run_cons, h, if_neg Bool.false_ne_true, ih]

theorem Tries.run_logged {routes calls : List Route} {answer : Option Route} {s t : σ}
    (h : Tries accept routes answer calls s t) (log : List Route) :
    (routes.findM? (logged accept)).run (s, log) = (answer, t, log ++ calls) := by
  induction h generalizing log with
  | exhausted s =>
    rw [List.append_nil]
    rfl
  | @accepted route rest s t h =>
    have hrun : (logged accept route).run (s, log) = (true, t, log ++ [route]) := by
      change (((accept route).run s).1, ((accept route).run s).2, _) = _
      rw [h]
    rw [findM?_run_cons, hrun, if_pos rfl]
  | @refused route rest calls answer s t u h _ ih =>
    have hrun : (logged accept route).run (s, log) = (false, t, log ++ [route]) := by
      change (((accept route).run s).1, ((accept route).run s).2, _) = _
      rw [h]
    rw [findM?_run_cons, hrun, if_neg Bool.false_ne_true, ih, List.append_assoc]
    rfl

/--
A search for a route tries the routes of the pattern in order. It calls `accept`, which may keep a
state, on these and in this order up to the first that is accepted, and that route is the answer.
-/
theorem findRoute_run_iff_tries (p : Pattern) (frame : Frame) (a b : Square)
    (accept : Route → StateM σ Bool) (answer : Option Route) (calls : List Route) (s t : σ) :
    ((p.findRoute frame a b accept).run s = (answer, t) ↔
      ∃ calls, Tries accept (p.routes frame {} a b) answer calls s t) ∧
    ((p.findRoute frame a b (logged accept)).run (s, []) = (answer, t, calls) ↔
      Tries accept (p.routes frame {} a b) answer calls s t) := by
  simp only [Pattern.findRoute_eq_findM?]
  obtain ⟨made, hmade⟩ := exists_tries accept (p.routes frame {} a b) s
  refine ⟨⟨fun h => ⟨made, ?_⟩, fun ⟨_, h⟩ => h.run⟩, fun h => ?_, fun h => h.run_logged []⟩
  · rwa [h] at hmade
  · obtain ⟨hanswer, hrest⟩ := Prod.mk.inj ((hmade.run_logged []).symm.trans h)
    obtain ⟨hstate, hcalls⟩ := Prod.mk.inj hrest
    rwa [hanswer, hstate, ← List.nil_append made, hcalls] at hmade

/-- The routes that a search asks about if it is refused each of them. -/
def Pattern.candidates (p : Pattern) (frame : Frame) (a b : Square) : List Route :=
  ((p.findRoute frame a b (logged fun _ => (pure false : StateM Unit Bool))).run ((), [])).2.2

theorem tries_refusing (routes : List Route) :
    Tries (fun _ => (pure false : StateM Unit Bool)) routes none routes () () := by
  induction routes with
  | nil => exact .exhausted ()
  | cons route rest ih => exact .refused rfl ih

theorem Pattern.candidates_eq_routes (p : Pattern) (frame : Frame) (a b : Square) :
    p.candidates frame a b = p.routes frame {} a b := by
  have hrun := (tries_refusing (p.routes frame {} a b)).run_logged []
  rw [candidates, findRoute_eq_findM?, hrun, List.nil_append]

end Callbacks

end FairyChess
