import FairyChess.Position

/-! Moves. -/
namespace FairyChess

/-- What a move does apart from moving one piece and capturing others. -/
inductive Special
  | normal
  | enPassant
  | castle (rook : PieceId) (rookFrom rookTo : Square)
  deriving DecidableEq, Repr

/-- A move with everything it captures. -/
structure Move where
  mover : PieceId
  origin : Square
  target : Square
  captured : List PieceId := []
  special : Special := .normal
  deriving DecidableEq, Repr

namespace Move

def isCapture (m : Move) : Bool :=
  !m.captured.isEmpty

def rook? (m : Move) : Option PieceId :=
  match m.special with
  | .castle rook _ _ => some rook
  | _ => none

/-- The pieces that the move changes. -/
def touched (m : Move) : List PieceId :=
  m.mover :: m.captured ++ m.rook?.toList

end Move

end FairyChess
