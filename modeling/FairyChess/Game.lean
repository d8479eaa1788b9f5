import FairyChess.Search

/-! Games: a position, whose turn it is, and the moves that led there. -/
namespace FairyChess

structure Game where
  title : String
  position : Position
  turn : Side := .white
  /-- The moves made, the latest first. -/
  history : List Record := []
  deriving DecidableEq, Repr

structure Played where
  game : Game
  record : Record
  events : List Event
  deriving DecidableEq, Repr

namespace Game

/-- The winner, once a king is captured. -/
def winner? (g : Game) : Option Side :=
  if g.position.hasLost .white then some .black
  else if g.position.hasLost .black then some .white
  else none

/-- The next turn is announced, and then each king of its side that is under threat. -/
def turnEvents (p : Position) (side : Side) : List Event :=
  .turn side :: (p.kings side).filterMap fun king =>
    if king.piece.isCaptured then none
    else
      let attackers := p.threats king.piece.square side
      if attackers.isEmpty then none else some (.threatened king.piece attackers)

def make (g : Game) (m : Move) (choice : Option Kind) : Played :=
  let made := g.position.make m choice
  let turn := g.turn.opposite
  { game := { g with position := made.position, turn, history := made.record :: g.history }
    record := made.record
    events := made.events ++ turnEvents made.position turn }

/-- Moves the piece on `origin` to `target`, if the game is not over, the piece belongs to the side to
move and the move is legal. -/
def play? (g : Game) (origin target : Square) (choice : Option Kind) : Option Played :=
  if g.winner?.isSome then none
  else do
    let mover ← g.position.occupant? origin
    if mover.id.side = g.turn then
      (g.position.moveOf? mover target).map (g.make · choice)
    else none

def bestMove (g : Game) (depth : Nat) : Except SearchError (Option Choice) :=
  if g.winner?.isSome then .ok none
  else (g.position.search g.turn depth true).map (·.best)

def playBest (g : Game) (depth : Nat) (choice : Option Kind) : Except SearchError (Option Played) :=
  (g.bestMove depth).map fun best =>
    best.bind fun b => g.play? b.move.origin b.move.target choice

/-- Takes back the last move and gives back the turn. -/
def undo? (g : Game) : Option (Game × Record) :=
  match g.history with
  | [] => none
  | record :: history =>
    some ({ g with position := g.position.undo record, turn := g.turn.opposite, history }, record)

end Game

end FairyChess
