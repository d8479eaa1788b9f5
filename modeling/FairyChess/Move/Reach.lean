import FairyChess.Move.Legal
import FairyChess.SquareSet

/-! The squares that a piece can go to, and those that a side could capture on. -/
namespace FairyChess

namespace Position

def destinations (p : Position) (mover : Slot) : SquareSet :=
  .ofList p.bounds (p.targets mover)

/-- The squares on which a side could capture. -/
def attacked (p : Position) (side : Side) : SquareSet :=
  .ofList p.bounds (p.bounds.squares.filter fun s => !(p.threats s side.opposite).isEmpty)

end Position

end FairyChess
