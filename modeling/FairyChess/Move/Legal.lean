import FairyChess.Move.Apply
import FairyChess.Move.Threat

/-! Castling, and the legal moves of a position. -/
namespace FairyChess

namespace Position

/-- The first piece on the squares from `s` along a rank, not going on past the bounds. No file is too far to be
computed; `Fixed.firstAlong` has 32 bits for it. -/
def firstAlong (p : Position) (bounds : Bounds) (step : Int) : Nat → Square → Option Slot
  | 0, _ => none
  | n + 1, s =>
    if s ∈ bounds then
      (p.occupant? s).or (p.firstAlong bounds step n ⟨s.file + step, s.rank⟩)
    else none

/--
A king that has not moved goes two files toward a rook of its side that has not moved either. Nothing
stands between them, there are two squares or more, and no square the king starts from, passes or
reaches is under threat while it stands there. The rook goes to the square that the king passed.
-/
def castle? (p : Position) (king : Slot) (target : Square) : Option Move :=
  let home := king.piece.square
  let step := (target.file - home.file).sign
  let passed : Square := ⟨home.file + step, home.rank⟩
  if king.piece.behavior.castleRole = some .king ∧ king.piece.turns = 0 ∧
      !king.piece.isCaptured ∧ target ∈ king.piece.bounds ∧ p.isEmpty target ∧
      target.rank = home.rank ∧ (target.file - home.file).natAbs = 2 then do
    let width := (king.piece.bounds.right - king.piece.bounds.left).toNat
    let rook ← p.firstAlong king.piece.bounds step width passed
    let safe (s : Square) : Bool :=
      ((p.modify king.id (Piece.relocate s)).threats s king.id.side).isEmpty
    if rook.id.side = king.id.side ∧ rook.piece.behavior.castleRole = some .rook ∧
        rook.piece.turns = 0 ∧ 3 ≤ (rook.piece.square.file - home.file).natAbs ∧
        safe home ∧ safe passed ∧ safe target then
      some {
        mover := king.id
        origin := home
        target
        special := .castle rook.id rook.piece.square passed }
    else none
  else none

def moveOf? (p : Position) (mover : Slot) (target : Square) : Option Move :=
  (p.plainMove? mover target).or (p.castle? mover target)

def move? (p : Position) (id : PieceId) (target : Square) : Option Move := do
  p.moveOf? (← p.slot? id) target

/-- The legal moves of a piece, in the order of their targets on the board. -/
def movesOf (p : Position) (mover : Slot) : List Move :=
  if mover.piece.isCaptured then []
  else mover.piece.bounds.squares.filterMap (p.moveOf? mover)

/-- The squares that a piece can go to. -/
def targets (p : Position) (mover : Slot) : List Square :=
  (p.movesOf mover).map (·.target)

/-- The legal moves of a side, piece by piece. -/
def moves (p : Position) (side : Side) : List Move :=
  (p.alive side).flatMap p.movesOf

/-- The legal moves of a side, by the piece and where it goes. -/
def moveList (p : Position) (side : Side) : List (PieceId × Square) :=
  (p.moves side).map fun m => (m.mover, m.target)

/-- Makes the move of a piece to a square, if it is legal. -/
def makeMove? (p : Position) (id : PieceId) (target : Square) (choice : Option Kind) : Option Made :=
  (p.move? id target).map (p.make · choice)

end Position

end FairyChess
