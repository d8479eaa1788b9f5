import FairyChess.Fixed.Square
import FairyChess.Move.Apply

/-! Making moves, and the material, in numbers of 32 bits. Turns are counted without a sign. -/
namespace FairyChess.Fixed

variable {m : Type → Type} [Build m]

/-- Changes one piece. A position without it stays as it is. -/
def modify (p : Position) (id : PieceId) (f : Piece → m Piece) : m Position :=
  match p.piece? id with
  | some q => return p.restore ⟨id, ← f q⟩
  | none => return p

/-- Whether a pawn-like piece has gone two ranks ahead. It is computed for no other piece. -/
def doubleStep (move : Move) (q : Piece) : m Bool :=
  if q.behavior.pawnLike then do
    let along ← word (move.target.rank - move.origin.rank)
    let ahead ← word (along * q.direction)
    return ahead == 2
  else return false

def advancePiece (move : Move) (q : Piece) : m Piece := do
  let turns ← count (q.turns + 1)
  let enPassant ← doubleStep move q
  return { q with square := move.target, turns, enPassant }

def castlePiece (s : Square) (q : Piece) : m Piece := do
  return { q.relocate s with turns := ← count (q.turns + 1) }

def castleRook (p : Position) : Special → m Position
  | .castle rook _ rookTo => modify p rook (castlePiece rookTo)
  | _ => return p

/-- The position after a move, before any promotion. -/
def advance (p : Position) (move : Move) : m Position := do
  let castled ← castleRook (p.captureAll move.captured) move.special
  let moved ← modify castled move.mover (advancePiece move)
  return { moved with lastMoved := some move.mover }

def onFarRank (q : Piece) : m Bool :=
  if q.isCaptured then return false
  else if 0 < q.direction then return q.square.rank == (← word (q.bounds.top - 1))
  else return q.square.rank == q.bounds.bottom

/-- What a piece becomes where it stands: a queen unless another of the promotions is chosen. -/
def promotion? (q : Piece) (choice : Option Kind) : m (Option Kind) := do
  if ← pure q.behavior.pawnLike <&&> onFarRank q then
    return some ((choice.filter (Kind.promotions.contains ·)).getD .queen)
  else return none

def promotionOf? (mover : Option Piece) (choice : Option Kind) : m (Option Kind) :=
  match mover with
  | some q => promotion? q choice
  | none => return none

/-- Makes a move. The kind is what the mover becomes if it promotes. -/
def make (p : Position) (move : Move) (choice : Option Kind) : m Made := do
  let moved ← advance p move
  let mover := moved.piece? move.mover
  let promotion ← promotionOf? mover choice
  let position := match promotion with
    | some kind => moved.modify move.mover fun q => (q.promote? kind).getD q
    | none => moved
  let record : Record := { p.record move choice with promotion }
  let promoting := if promotion.isSome then mover else none
  return {
    position
    record
    events := .before move :: promoting.toList.map .promotion ++
      (position.piece? move.mover).toList.map (.after record) }

/-- The values of the captured pieces are added one by one. -/
def materialLost (p : Position) (side : Side) : m Int :=
  ((p.pieces side).filter (·.isCaptured)).foldlM (fun total q => word (total + q.value)) 0

/-- What the other side has lost, less what the side itself has lost. -/
def materialScore (p : Position) (side : Side) : m Int := do
  let gained ← materialLost p side.opposite
  let lost ← materialLost p side
  word (gained - lost)

end FairyChess.Fixed
