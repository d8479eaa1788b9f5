import FairyChess.Move.Basic
import FairyChess.Piece.Template

/-! Making moves and taking them back. Turns are counted without a limit; `Fixed.make` has 32 bits for them. -/
namespace FairyChess

namespace Piece

def advance (m : Move) (q : Piece) : Piece :=
  { q with
    square := m.target
    turns := q.turns + 1
    enPassant :=
      q.behavior.pawnLike && (m.target.rank - m.origin.rank) * q.direction == 2 }

def castleTo (s : Square) (q : Piece) : Piece :=
  { q.relocate s with turns := q.turns + 1 }

def promotes (q : Piece) : Bool :=
  q.behavior.pawnLike && q.onFarRank

/-- What a piece becomes where it stands: a queen unless another of the promotions is chosen. -/
def promotion? (q : Piece) (choice : Option Kind) : Option Kind :=
  if q.promotes then some ((choice.filter (Kind.promotions.contains ·)).getD .queen) else none

end Piece

/-- A move that was made, with what it takes to undo it. -/
structure Record where
  move : Move
  promotion : Option Kind
  /-- The mover, the captured pieces and the rook as they were before the move. -/
  saved : List Slot
  lastMoved : Option PieceId
  deriving DecidableEq, Repr

namespace Position

def captureAll (p : Position) (ids : List PieceId) : Position :=
  ids.foldl (fun p id => p.modify id Piece.capture) p

/-- The position after a move, before any promotion. -/
def advance (p : Position) (m : Move) : Position :=
  let p := p.captureAll m.captured
  let p := match m.special with
    | .castle rook _ rookTo => p.modify rook (Piece.castleTo rookTo)
    | _ => p
  { p.modify m.mover (Piece.advance m) with lastMoved := some m.mover }

/-- The mover on its new square, if it promotes there. -/
def promoting? (p : Position) (m : Move) : Option Piece :=
  ((p.advance m).piece? m.mover).filter (·.promotes)

def promotion? (p : Position) (m : Move) (choice : Option Kind) : Option Kind :=
  ((p.advance m).piece? m.mover).bind (·.promotion? choice)

def after (p : Position) (m : Move) (choice : Option Kind) : Position :=
  let moved := p.advance m
  match (moved.piece? m.mover).bind (·.promotion? choice) with
  | some kind => moved.modify m.mover fun q => (q.promote? kind).getD q
  | none => moved

/-- The record of a move from this position. A castling rook is saved once the captures are made. -/
def record (p : Position) (m : Move) (choice : Option Kind) : Record where
  move := m
  promotion := p.promotion? m choice
  saved := (m.mover :: m.captured).filterMap p.slot? ++
    m.rook?.toList.filterMap (p.captureAll m.captured).slot?
  lastMoved := p.lastMoved

def undo (p : Position) (r : Record) : Position :=
  { r.saved.foldl restore p with lastMoved := r.lastMoved }

/-- A move to an empty square against the rules of the piece. -/
def forcedMove? (p : Position) (id : PieceId) (target : Square) : Option Move := do
  let q ← p.piece? id
  if q.isCaptured || !decide (target ∈ q.bounds) || !p.isEmpty target then none
  else some { mover := id, origin := q.square, target }

/-- A capture of an enemy against the rules of the piece. -/
def forcedCapture? (p : Position) (id victim : PieceId) : Option Move := do
  let q ← p.piece? id
  let v ← p.piece? victim
  if q.isCaptured || v.isCaptured || victim.side == id.side then none
  else some { mover := id, origin := q.square, target := v.square, captured := [victim] }

end Position

inductive Event
  | before (move : Move)
  /-- The mover, whose promotion can now be chosen. -/
  | promotion (mover : Piece)
  /-- The record of the move and the mover after it. -/
  | after (record : Record) (mover : Piece)
  | turn (side : Side)
  | threatened (king : Piece) (attackers : List PieceId)
  deriving DecidableEq, Repr

/-- A position after a move, with the move's record and what was announced. -/
structure Made where
  position : Position
  record : Record
  events : List Event
  deriving DecidableEq, Repr

/-- Makes a move. The kind is what the mover becomes if it promotes. -/
def Position.make (p : Position) (m : Move) (choice : Option Kind) : Made :=
  let position := p.after m choice
  let record := p.record m choice
  { position
    record
    events := .before m :: (p.promoting? m).toList.map .promotion ++
      (position.piece? m.mover).toList.map (.after record) }

end FairyChess
