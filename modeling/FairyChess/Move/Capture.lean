import FairyChess.Move.Basic
import FairyChess.Movement.Route

/-!
Moves by a grammar. A clause gives a move if one of its routes is open, and the first open route
decides what is captured on the way.
-/
namespace FairyChess

/-- Whether the marks of a clause let a piece move to a square that is or is not occupied. -/
def Clause.permits (c : Clause) (mover : Piece) (occupied : Bool) : Bool :=
  !c.dummy && !(c.firstMove && decide (0 < mover.turns)) && !(c.captureOnly && !occupied) &&
    !(c.quietOnly && occupied)

namespace Position

/-- Whether a square is held by another piece than the mover, whose own square counts as free. -/
def blocks (p : Position) (mover : Piece) (s : Square) : Bool :=
  s != mover.square && !p.isEmpty s

/-- The enemies on the squares that a locust passes. Each square must hold one. -/
def jumped? (p : Position) (mover : Piece) (squares : List Square) : Option (List PieceId) :=
  squares.mapM fun s => do
    let slot ← p.occupant? s
    if slot.id.side = mover.side ∨ slot.piece.isDummy then none else some slot.id

/-- What a step of a gait captures on the squares that it passes, or `none` where it is blocked. A locust
must pass some square. -/
def cleared? (p : Position) (mover : Piece) (leaper : Bool) (gait : Gait) (squares : List Square) :
    Option (List PieceId) :=
  if gait.locust then
    if squares.isEmpty then none else p.jumped? mover squares
  else if leaper || gait.leaper || !squares.any (p.blocks mover) then some []
  else none

/-- What a step captures between its ends, or `none` where it is blocked. -/
def passed? (p : Position) (mover : Piece) (leaper : Bool) (step : Segment) :
    Option (List PieceId) :=
  p.cleared? mover leaper step.gait (step.start.between step.finish)

/-- What a route captures between the ends of its steps, or `none` where it is blocked. Unless the
clause is a leaper's, the steps before the last must end on free squares. -/
def passedBy? (p : Position) (mover : Piece) (leaper : Bool) : Route → Option (List PieceId)
  | [] => some []
  | step :: rest => do
    let here ← p.passed? mover leaper step
    if !rest.isEmpty && !leaper && p.blocks mover step.finish then none
    else some (here ++ (← p.passedBy? mover leaper rest))

/-- What the first open route of a clause captures on the way. -/
def clausePasses? (p : Position) (mover : Piece) (target : Square) (c : Clause) :
    Option (List PieceId) := do
  let route ← Id.run (c.pattern.findRoute mover.frame mover.square target fun route =>
    pure (p.passedBy? mover c.leaper route).isSome)
  p.passedBy? mover c.leaper route

/-- The move that the first fitting clause gives, with the target's occupant captured first. -/
def grammarMove? (p : Position) (mover : Slot) (target : Square) (occupant : Option Slot) :
    Option Move :=
  mover.piece.grammar.clauses.findSome? fun c =>
    if c.permits mover.piece occupant.isSome then
      (p.clausePasses? mover.piece target c).map fun passed => {
        mover := mover.id
        origin := mover.piece.square
        target
        captured := ((occupant.map (·.id)).toList ++ passed).eraseDups }
    else none

def enPassantStep : Step where
  shape := .diagonal
  heading := .forward false
  distance := .single (.exact 1)

/-- A pawn-like piece captures one that has just gone two ranks past it, on the square between. -/
def enPassant? (p : Position) (mover : Slot) (target : Square) : Option Move :=
  if mover.piece.behavior.pawnLike then do
    let victim ← p.occupant? ⟨target.file, mover.piece.square.rank⟩
    if victim.id.side ≠ mover.id.side ∧ victim.piece.behavior.pawnLike ∧ victim.piece.enPassant ∧
        victim.piece.turns = 1 ∧ p.lastMoved = some victim.id ∧ !victim.piece.isDummy ∧
        enPassantStep.allows mover.piece.frame mover.piece.square target then
      some {
        mover := mover.id
        origin := mover.piece.square
        target
        captured := [victim.id]
        special := .enPassant }
    else none
  else none

/-- The move of a piece to a square, castling aside. -/
def plainMove? (p : Position) (mover : Slot) (target : Square) : Option Move :=
  if mover.piece.isCaptured || !decide (target ∈ mover.piece.bounds) then none
  else match p.occupant? target with
    | some other =>
      if other.id.side = mover.id.side ∨ other.piece.isDummy then none
      else p.grammarMove? mover target (some other)
    | none => (p.grammarMove? mover target none).or (p.enPassant? mover target)

end Position

end FairyChess
