import FairyChess.Bounds
import FairyChess.Movement.Step
import FairyChess.Piece.Kind
import FairyChess.Side

/-! Pieces on a board. -/
namespace FairyChess

structure Piece where
  name : String
  kind : Kind
  symbol : Char
  value : Int
  behavior : Behavior
  square : Square
  /-- Where forward is: up the ranks if positive, down if negative. -/
  direction : Int
  turns : Nat := 0
  /-- The piece is pawn-like and went two ranks forward when it last moved. -/
  enPassant : Bool := false
  bounds : Bounds
  grammar : Grammar
  deriving DecidableEq, Repr

namespace Piece

def isCaptured (q : Piece) : Bool :=
  q.square == Square.box

def side (q : Piece) : Side :=
  .ofDirection q.direction

def isKing (q : Piece) : Bool :=
  q.grammar.isKing

def isDummy (q : Piece) : Bool :=
  q.grammar.isDummy

def frame (q : Piece) : Frame :=
  ⟨q.direction, q.turns, q.bounds⟩

def relocate (s : Square) (q : Piece) : Piece :=
  { q with square := s }

def capture (q : Piece) : Piece :=
  { q.relocate .box with enPassant := false }

/-- Whether the piece stands on the last rank of its way. -/
def onFarRank (q : Piece) : Bool :=
  !q.isCaptured &&
    if 0 < q.direction then q.square.rank == q.bounds.top - 1 else q.square.rank == q.bounds.bottom

/-- A piece that cannot move, to stand in for any piece on an empty square. -/
def phantom (s : Square) (side : Side) (bounds : Bounds) : Piece where
  name := "Phantom"
  kind := .custom
  symbol := '?'
  value := 0
  behavior := {}
  square := s
  direction := side.direction
  bounds
  grammar := {}

end Piece

end FairyChess
