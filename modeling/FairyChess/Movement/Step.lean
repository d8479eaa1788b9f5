import FairyChess.Bounds
import FairyChess.Movement.Basic

/-! Which steps a grammar allows on an empty board. -/
namespace FairyChess

/-- What the steps of a piece depend on: the way it faces, its moves so far and where it may go. -/
structure Frame where
  direction : Int
  turns : Nat
  bounds : Bounds
  deriving DecidableEq, Repr

/-- Whether a shape admits a displacement with these lengths along the two axes. -/
def Shape.admits : Shape → Nat → Nat → Bool
  | .omni, across, along => across == 0 || along == 0 || across == along
  | .orthogonal, across, along => across == 0 || along == 0
  | .diagonal, across, along => across == along
  | .free, _, _ => true

/-- Whether a heading admits a displacement that goes `ahead` ranks forward. -/
def Heading.admits : Heading → Int → Bool
  | .any, _ => true
  | .forward level, ahead => decide (0 < ahead) || (level && ahead == 0)
  | .backward level, ahead => decide (ahead < 0) || (level && ahead == 0)
  | .vertical, ahead => ahead != 0
  | .sideways, ahead => ahead == 0

/-- Whether a lateral mark admits a displacement that goes `aside` files to the right. -/
def Lateral.admits : Lateral → Int → Bool
  | .any, _ => true
  | .right, aside => decide (0 < aside)
  | .left, aside => decide (aside < 0)
  | .either, aside => aside != 0

/-- Whether a distance admits a displacement with these lengths along the two axes. -/
def Distance.admits : Distance → Nat → Nat → Bool
  | .unbounded, _, _ => true
  | .single span, across, along => span.admits (max across along)
  | .paired first second strict, across, along =>
    (first.admits across && second.admits along) ||
      (!strict && first.admits along && second.admits across)

/-- Whether the step leads from `a` to `b`. Other pieces are not considered. -/
def Step.allows (s : Step) (frame : Frame) (a b : Square) : Bool :=
  decide (b ∈ frame.bounds) && a != b && !s.dummy && !(s.firstMove && decide (0 < frame.turns)) &&
    let across := b.file - a.file
    let along := b.rank - a.rank
    s.shape.admits across.natAbs along.natAbs &&
      s.heading.admits (along * frame.direction) &&
      s.lateral.admits (across * frame.direction) &&
      s.distance.admits across.natAbs along.natAbs

end FairyChess
