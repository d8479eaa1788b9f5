import FairyChess.Display.GameText
import FairyChess.Fixed.Search

/-!
Games in numbers of 32 bits. What happens is announced move by move, once the move is made, and not in a list
afterwards.
-/
namespace FairyChess.Fixed.Game

variable {m : Type → Type} [Build m]

/-- A king that is under threat is announced. -/
def warn (announce : Event → m Unit) (p : Position) (side : Side) (king : Slot) : m Unit :=
  if king.piece.isCaptured then return ()
  else do
    let attackers ← threats p king.piece.square side
    if attackers.isEmpty then return () else announce (.threatened king.piece attackers)

def make (announce : Event → m Unit) (g : Game) (move : Move) (choice : Option Kind) : m Game := do
  let made ← Fixed.make g.position move choice
  forM made.events announce
  let turn := g.turn.opposite
  announce (.turn turn)
  forM (made.position.kings turn) (warn announce made.position turn)
  return { g with position := made.position, turn, history := made.record :: g.history }

/-- Moves the piece on `origin` to `target`, if the game is not over, the piece belongs to the side to
move and the move is legal. -/
def play? (announce : Event → m Unit) (g : Game) (origin target : Square) (choice : Option Kind) :
    m (Option Game) :=
  if g.winner?.isSome then return none
  else match g.position.occupant? origin with
    | none => return none
    | some mover =>
      if mover.id.side = g.turn then do
        match ← moveOf? g.position mover target with
        | some move => some <$> make announce g move choice
        | none => return none
      else return none

def bestMove (g : Game) (depth : Nat) : m (Except SearchError (Option Choice)) :=
  if g.winner?.isSome then return .ok none
  else return (← search g.position g.turn depth true).map (·.best)

def playBest (announce : Event → m Unit) (g : Game) (depth : Nat) (choice : Option Kind) :
    m (Except SearchError (Option Game)) := do
  match ← bestMove g depth with
  | .error e => return .error e
  | .ok none => return .ok none
  | .ok (some best) => .ok <$> play? announce g best.move.origin best.move.target choice

def text (g : Game) : m String := do
  return g.describe (← checkStatus g.position g.turn)

end FairyChess.Fixed.Game
