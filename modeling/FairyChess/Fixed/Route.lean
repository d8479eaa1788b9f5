import FairyChess.Fixed.Square
import FairyChess.Movement.Route

/-! Steps and routes in coordinates of 32 bits. -/
namespace FairyChess.Fixed

variable {m : Type → Type} [Build m]

/-- The number of king steps from one square to another. -/
def distance (a b : Square) : m Int := do
  let across ← word (b.file - a.file)
  let across ← word across.natAbs
  let along ← word (b.rank - a.rank)
  let along ← word along.natAbs
  return max across along

/-- Whether a step leads from `a` to `b`. The direction is multiplied in only where a mark is looked at that
depends on it, but then whatever the mark is. -/
def allows (s : Step) (frame : Frame) (a b : Square) : m Bool :=
  if decide (b ∈ frame.bounds) && a != b && !s.dummy && !(s.firstMove && decide (0 < frame.turns)) then do
    let across ← word (b.file - a.file)
    let along ← word (b.rank - a.rank)
    pure (s.shape.admits across.natAbs along.natAbs) <&&>
      s.heading.admits <$> word (along * frame.direction) <&&>
      s.lateral.admits <$> word (across * frame.direction) <&&>
      pure (s.distance.admits across.natAbs along.natAbs)
  else return false

/-- The counts that a ride tries for a displacement, the least first. -/
def counts (count : Count) (a b : Square) : m (List Nat) :=
  match count with
  | .fixed k => return if 0 < k ∧ k ≤ Count.limit then [k] else []
  | .wildcard => do return List.range' 1 (← distance a b).toNat

/-- The ends of `k` equal parts of a displacement. -/
def milestones (a : Square) (across along : Int) (k : Nat) : m (List Square) :=
  (List.range' 1 k).mapM fun i : Nat => do
    let file ← word (a.file + (← word (across / k * i)))
    let rank ← word (a.rank + (← word (along / k * i)))
    return ⟨file, rank⟩

/-- Looks for a route through the goals of a stack, the first from `a`, that `accept` agrees to together
with what the buffer holds. -/
@[specialize] def solve (frame : Frame) (accept : Route → m Bool) :
    List Goal → Square → StateT Route m Bool
  | [], _ => do accept (← get)
  | ⟨.step s, b, gait⟩ :: rest, a => do
    if ← (allows s frame a b : m Bool) then
      modify (· ++ [⟨a, b, gait.join s.gait⟩])
      let found ← solve frame accept rest b
      if !found then modify List.dropLast
      return found
    else return false
  | ⟨.ride count own pattern, b, gait⟩ :: rest, a => do
    let across ← (word (b.file - a.file) : m Int)
    let along ← (word (b.rank - a.rank) : m Int)
    let tries ← (counts count a b : m (List Nat))
    tries.anyM fun k : Nat =>
      if across % k = 0 ∧ along % k = 0 then do
        let targets ← (milestones a across along k : m (List Square))
        solve frame accept (targets.map (⟨pattern, ·, gait.join own⟩) ++ rest) a
      else return false
  | ⟨.andThen first second, b, gait⟩ :: rest, a =>
    frame.bounds.squares.anyM fun mid =>
      solve frame accept ([⟨first, mid, gait⟩, ⟨second, b, gait⟩] ++ rest) a
termination_by goals => goals
decreasing_by
  · exact .intro _ [] rest nofun
  · refine .intro _ _ rest fun part hpart => ?_
    obtain ⟨target, -, rfl⟩ := List.mem_map.mp hpart
    simp only [Pattern.ride.sizeOf_spec]
    omega
  · refine .intro _ _ rest fun part hpart => ?_
    simp only [List.mem_cons, List.not_mem_nil, or_false] at hpart
    rcases hpart with rfl | rfl <;> simp only [Pattern.andThen.sizeOf_spec] <;> omega

/-- The first route from `a` to `b` that `accept` agrees to. -/
@[specialize] def findRoute (p : Pattern) (frame : Frame) (a b : Square) (accept : Route → m Bool) :
    m (Option Route) := do
  let (found, route) ← (solve frame accept [⟨p, b, {}⟩] a).run []
  return if found then some route else none

end FairyChess.Fixed
