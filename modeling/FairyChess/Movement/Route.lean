import FairyChess.Movement.Step

/-!
Routes. A pattern leads from one square to another along routes, each a chain of single steps. The
patterns still to be followed wait on a stack while a route grows in a buffer, and whoever asks for a
route says of each whether it will do, so that the search goes on past routes that the position
blocks.
-/
namespace FairyChess

structure Segment where
  start : Square
  finish : Square
  gait : Gait
  deriving DecidableEq, Repr

abbrev Route := List Segment

/-- The counts that split a displacement into equal whole parts, the least first. -/
def Count.splits (count : Count) (a b : Square) : List Nat :=
  let counts := match count with
    | .fixed k => if k ≤ Count.limit then [k] else []
    | .wildcard => List.range' 1 (a.distance b)
  counts.filter fun k =>
    decide (0 < k) && (b.file - a.file) % k == 0 && (b.rank - a.rank) % k == 0

/-- The square at the end of the `i`th of `k` equal parts of a displacement. -/
def Square.milestone (a b : Square) (k i : Nat) : Square :=
  ⟨a.file + (b.file - a.file) / k * i, a.rank + (b.rank - a.rank) / k * i⟩

/-- A pattern still to be followed, the square it must lead to and the gait of the rides around it. -/
structure Goal where
  pattern : Pattern
  target : Square
  gait : Gait := {}
  deriving DecidableEq, Repr

namespace Goal

/-- The goals of a ride that repeats its pattern `k` times. -/
def links (pattern : Pattern) (gait : Gait) (a b : Square) (k : Nat) : List Goal :=
  (List.range' 1 k).map fun i => ⟨pattern, a.milestone b k i, gait⟩

/-- The first goal of a stack gives way to goals with parts of its pattern. -/
inductive Unfolds : List Goal → List Goal → Prop
  | intro (g : Goal) (parts rest : List Goal)
      (smaller : ∀ part ∈ parts, sizeOf part.pattern < sizeOf g.pattern) :
      Unfolds (parts ++ rest) (g :: rest)

theorem acc_cons (n : Nat) (g : Goal) (rest : List Goal) (hn : sizeOf g.pattern < n)
    (hrest : Acc Unfolds rest) : Acc Unfolds (g :: rest) := by
  induction n generalizing g rest with
  | zero => omega
  | succ n ih =>
    constructor
    rintro _ ⟨_, parts, _, smaller⟩
    -- However many parts there are, each is below `g`, so they can go onto `rest` one by one.
    induction parts with
    | nil => exact hrest
    | cons part parts ihp =>
      have hpart := smaller part List.mem_cons_self
      exact ih part (parts ++ rest) (by omega)
        (ihp fun q hq => smaller q (List.mem_cons_of_mem part hq))

/-- A stack cannot unfold forever. -/
theorem acc_unfolds (goals : List Goal) : Acc Unfolds goals := by
  induction goals with
  | nil => exact ⟨_, fun _ h => nomatch h⟩
  | cons g rest ih => exact acc_cons _ g rest (Nat.lt_succ_self _) ih

instance : WellFoundedRelation (List Goal) := ⟨Unfolds, ⟨acc_unfolds⟩⟩

end Goal

namespace Pattern

variable {m : Type → Type v} [Monad m]

/--
Looks for a route through the goals of a stack, the first from `a`, that `accept` agrees to together
with what the buffer holds. A ride takes its counts from the least, and a sequence its middle squares
in the order of the board. The buffer holds the route that is found, or what it held before.
-/
@[specialize] def solve (frame : Frame) (accept : Route → m Bool) :
    List Goal → Square → StateT Route m Bool
  | [], _ => do accept (← get)
  | ⟨.step s, b, gait⟩ :: rest, a => do
    if s.allows frame a b then
      modify (· ++ [⟨a, b, gait.join s.gait⟩])
      let found ← solve frame accept rest b
      if !found then modify List.dropLast
      return found
    else return false
  | ⟨.ride count own pattern, b, gait⟩ :: rest, a =>
    (count.splits a b).anyM fun k =>
      solve frame accept (Goal.links pattern (gait.join own) a b k ++ rest) a
  | ⟨.andThen first second, b, gait⟩ :: rest, a =>
    frame.bounds.squares.anyM fun mid =>
      solve frame accept ([⟨first, mid, gait⟩, ⟨second, b, gait⟩] ++ rest) a
termination_by goals => goals
decreasing_by
  · exact .intro _ [] rest nofun
  · refine .intro _ _ rest fun part hpart => ?_
    obtain ⟨i, -, rfl⟩ := List.mem_map.mp hpart
    simp only [Pattern.ride.sizeOf_spec]
    omega
  · refine .intro _ _ rest fun part hpart => ?_
    simp only [List.mem_cons, List.not_mem_nil, or_false] at hpart
    rcases hpart with rfl | rfl <;> simp only [Pattern.andThen.sizeOf_spec] <;> omega

/-- The first route from `a` to `b` that `accept` agrees to. -/
@[specialize] def findRoute (p : Pattern) (frame : Frame) (a b : Square) (accept : Route → m Bool) :
    m (Option Route) := do
  let (found, route) ← (solve frame accept [⟨p, b, {}⟩] a).run []
  return if found then some route else none

def route? (p : Pattern) (frame : Frame) (a b : Square) : Option Route :=
  Id.run (p.findRoute frame a b fun _ => pure true)

end Pattern

/-- How many routes a search has met, and the first of them, the latest first. -/
structure Survey where
  met : Nat := 0
  first : List Route := []

/-- Refuses the first `skip` routes and agrees to the next. It keeps the first `keep` of them. -/
def Survey.accept (skip keep : Nat) (route : Route) : StateM Survey Bool := do
  let survey ← get
  let first := if survey.met < keep then route :: survey.first else survey.first
  set ({ met := survey.met + 1, first } : Survey)
  return decide (skip ≤ survey.met)

/-- The route after the first `skip`, if there are that many, and what was met on the way to it. -/
def Pattern.survey (p : Pattern) (skip keep : Nat) (frame : Frame) (a b : Square) :
    Option Route × Survey :=
  let (found, survey) := (p.findRoute frame a b (Survey.accept skip keep)).run {}
  (found, { survey with first := survey.first.reverse })

end FairyChess
