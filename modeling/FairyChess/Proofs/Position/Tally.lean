import FairyChess.Proofs.Position.Lookup
import Mathlib

/-! Sums over the pieces of a position, and what they grow by. -/
namespace FairyChess.Position

variable {p q : Position} {f : Piece → ℕ} {ids : List PieceId}

end FairyChess.Position
