import FairyChess.Display.SquareName
import FairyChess.Position
import FairyChess.SquareSet
import FairyChess.Text.Layout

/-! Drawings of a board: a grid with the top rank first, ranks numbered and files named. -/
namespace FairyChess

namespace Grid
open Text

/-- A border or rule of the grid: three strokes a file between two ends. -/
def rule (left cross right stroke : String) (files : Nat) : String :=
  "   " ++ left ++ cross.intercalate (List.replicate files (times 3 stroke)) ++ right

def rankLine (b : Bounds) (cell : Square → Char) (rank : Int) : String :=
  let cells := (Bounds.interval b.left b.right).map fun file => (cell ⟨file, rank⟩).toString
  twoPlaces (rank - b.bottom + 1) ++ " ║ " ++ " │ ".intercalate cells ++ " ║"

def fileLabel (b : Bounds) (file : Nat) : String :=
  if b.hasLetters then (Char.ofNat (65 + file)).toString else twoPlaces file

def labelLine (b : Bounds) : String :=
  "     " ++ String.join ((List.range b.files).map fun file => padRight 3 (fileLabel b file) ++ " ")

/-- The lines of a drawing, the ranks from the top with a rule between any two. -/
def lines (b : Bounds) (cell : Square → Char) : List String :=
  let ranks := (Bounds.interval b.bottom b.top).reverse.map (rankLine b cell)
  rule "╔" "╤" "╗" "═" b.files :: ranks.intersperse (rule "╟" "┼" "╢" "─" b.files) ++
    [rule "╚" "╧" "╝" "═" b.files, labelLine b]

/-- Draws a board with a character on each square. A board without squares has no drawing. -/
def draw (b : Bounds) (cell : Square → Char) : String :=
  if b.area = 0 then "" else unlines (lines b cell)

end Grid

def Position.draw (p : Position) : String :=
  Grid.draw p.bounds fun s => ((p.occupant? s).map (·.piece.symbol)).getD ' '

/-- Draws the members of a set by a mark. -/
def SquareSet.draw (mark : Char) (b : SquareSet) : String :=
  Grid.draw b.bounds fun s => if b.contains s then mark else ' '

end FairyChess
