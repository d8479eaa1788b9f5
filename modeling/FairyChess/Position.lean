import FairyChess.Piece.Basic

/-!
Positions: the board and the pieces of either side. Captured pieces keep their places in the lists,
so that a piece is known by its side and its index throughout a game.
-/
namespace FairyChess

structure PieceId where
  side : Side
  index : Nat
  deriving DecidableEq, Repr

/-- A piece together with its place. -/
structure Slot where
  id : PieceId
  piece : Piece
  deriving DecidableEq, Repr

structure Position where
  bounds : Bounds
  white : List Piece := []
  black : List Piece := []
  lastMoved : Option PieceId := none
  deriving DecidableEq, Repr

namespace Position

def pieces (p : Position) : Side → List Piece
  | .white => p.white
  | .black => p.black

def setPieces (p : Position) (side : Side) (pieces : List Piece) : Position :=
  match side with
  | .white => { p with white := pieces }
  | .black => { p with black := pieces }

/-- The id of the next piece that is added with this direction. -/
def nextId (p : Position) (side : Side) : PieceId :=
  ⟨side, (p.pieces side).length⟩

/-- Adds a piece at the end of the list of the side it faces as. -/
def add (p : Position) (q : Piece) : Position :=
  p.setPieces q.side (p.pieces q.side ++ [q])

def piece? (p : Position) (id : PieceId) : Option Piece :=
  (p.pieces id.side)[id.index]?

def slot? (p : Position) (id : PieceId) : Option Slot :=
  (p.piece? id).map (⟨id, ·⟩)

/-- Changes one piece. A position without it stays as it is. -/
def modify (p : Position) (id : PieceId) (f : Piece → Piece) : Position :=
  p.setPieces id.side ((p.pieces id.side).modify id.index f)

def restore (p : Position) (slot : Slot) : Position :=
  p.modify slot.id fun _ => slot.piece

/-- The pieces of a list from index `n` on, with their places. -/
def slotsFrom (side : Side) : Nat → List Piece → List Slot
  | _, [] => []
  | n, q :: qs => ⟨⟨side, n⟩, q⟩ :: slotsFrom side (n + 1) qs

def slots (p : Position) (side : Side) : List Slot :=
  slotsFrom side 0 (p.pieces side)

def alive (p : Position) (side : Side) : List Slot :=
  (p.slots side).filter (!·.piece.isCaptured)

def allAlive (p : Position) : List Slot :=
  p.alive .white ++ p.alive .black

/-- The pieces of a side whose capture loses the game. -/
def kings (p : Position) (side : Side) : List Slot :=
  (p.slots side).filter (·.piece.isKing)

/-- The first piece of a list that stands on a square. -/
def standingOn (s : Square) (side : Side) : Nat → List Piece → Option Slot
  | _, [] => none
  | n, q :: qs =>
    if q.square = s ∧ !q.isCaptured then some ⟨⟨side, n⟩, q⟩ else standingOn s side (n + 1) qs

/-- The piece on a square. Nothing is found off the board. -/
def occupant? (p : Position) (s : Square) : Option Slot :=
  if s ∈ p.bounds then
    (standingOn s .white 0 p.white).or (standingOn s .black 0 p.black)
  else none

def isEmpty (p : Position) (s : Square) : Bool :=
  (p.occupant? s).isNone

/-- What the pieces of a side that are captured are worth, over all integers as the coordinates are. -/
def materialLost (p : Position) (side : Side) : Int :=
  ((p.pieces side).filter (·.isCaptured)).foldr (fun q total => q.value + total) 0

/-- What the other side has lost, less what the side itself has lost. -/
def materialScore (p : Position) (side : Side) : Int :=
  p.materialLost side.opposite - p.materialLost side

/-- A side has lost when one of its kings is captured. -/
def hasLost (p : Position) (side : Side) : Bool :=
  (p.kings side).any (·.piece.isCaptured)

end Position

end FairyChess
