import FairyChess.Display.Grid
import FairyChess.Game

/-! Games in writing: the title, the board, whose turn it is and how the kings of that side stand. -/
namespace FairyChess
open Text

def CheckStatus.text : CheckStatus → String
  | safe => ""
  | check attackers => ", in check by " ++ natText attackers.length ++ " piece(s)"
  | lost => ", king captured"

/-- The text of a game, given how the kings of the side to move stand. -/
def Game.describe (g : Game) (status : CheckStatus) : String :=
  g.title ++ "\n" ++ g.position.draw ++ "Move " ++ natText (g.history.length / 2 + 1) ++ ", " ++
    g.turn.name ++ " to move" ++ status.text ++ "\n"

def Game.text (g : Game) : String :=
  g.describe (g.position.checkStatus g.turn)

end FairyChess
