/-! The two sides of a game. -/
namespace FairyChess

inductive Side
  | white
  | black
  deriving DecidableEq, Repr

namespace Side

/-- The side that moves up the board is white. -/
def ofDirection (direction : Int) : Side :=
  if 0 ≤ direction then white else black

def direction : Side → Int
  | white => 1
  | black => -1

def opposite : Side → Side
  | white => black
  | black => white

def name : Side → String
  | white => "White"
  | black => "Black"

end Side

end FairyChess
