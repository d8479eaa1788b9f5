import FairyChess.Move.Capture

/-! Threats: which pieces could capture on a square, and the kings they give check. -/
namespace FairyChess

namespace Position

/-- The moves of a piece, castling aside. -/
def plainMoves (p : Position) (mover : Slot) : List Move :=
  if mover.piece.isCaptured then []
  else mover.piece.bounds.squares.filterMap (p.plainMove? mover)

/-- Whether a piece can capture the victim that stands on `s`. Only a locust does so elsewhere. -/
def canCapture (p : Position) (attacker : Slot) (s : Square) (victim : PieceId) : Bool :=
  if attacker.piece.grammar.hasLocust then
    (p.plainMoves attacker).any (·.captured.contains victim)
  else (p.plainMove? attacker s).any (·.captured.contains victim)

/-- The position with a piece of the side on the square, and that piece: the one that stands there,
or else a phantom in place of an enemy or of nothing. -/
def probe (p : Position) (s : Square) (side : Side) : Position × PieceId :=
  let withPhantom (p : Position) := (p.add (.phantom s side p.bounds), p.nextId side)
  match p.occupant? s with
  | some slot =>
    if slot.id.side = side then (p, slot.id)
    else withPhantom (p.modify slot.id Piece.capture)
  | none => withPhantom p

/-- The enemies of a side that could capture on a square as if a piece of the side stood there. -/
def threats (p : Position) (s : Square) (side : Side) : List PieceId :=
  if s ∈ p.bounds then
    let (probe, victim) := p.probe s side
    ((probe.alive side.opposite).filter (probe.canCapture · s victim)).map (·.id)
  else []

end Position

inductive CheckStatus
  | safe
  | check (attackers : List PieceId)
  | lost
  deriving DecidableEq, Repr

namespace Position

/-- The attackers of several kings are listed once each. -/
def checkStatus (p : Position) (side : Side) : CheckStatus :=
  if p.hasLost side then .lost
  else
    let attackers := ((p.kings side).flatMap fun king => p.threats king.piece.square side).eraseDups
    if attackers.isEmpty then .safe else .check attackers

def inCheck (p : Position) (side : Side) : Bool :=
  match p.checkStatus side with
  | .check _ => true
  | _ => false

end Position

end FairyChess
