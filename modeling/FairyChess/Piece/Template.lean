import FairyChess.Movement.Reader
import FairyChess.Piece.Basic

/-! Templates, from which pieces are set up and promoted. -/
namespace FairyChess

/-- What defines a piece apart from where it stands. -/
structure Template where
  name : String
  kind : Kind
  whiteSymbol : Char
  blackSymbol : Char
  value : Int
  behavior : Behavior
  grammar : Grammar
  deriving DecidableEq, Repr

namespace Template

def read (name : String) (kind : Kind) (whiteSymbol blackSymbol : Char) (value : Int)
    (behavior : Behavior) (source : String) : Except MovementError Template := do
  .ok ⟨name, kind, whiteSymbol, blackSymbol, value, behavior, ← Grammar.read source⟩

def symbol (t : Template) : Side → Char
  | .white => t.whiteSymbol
  | .black => t.blackSymbol

/-- A piece that has not moved yet. -/
def spawn (t : Template) (s : Square) (side : Side) (bounds : Bounds) : Piece where
  name := t.name
  kind := t.kind
  symbol := t.symbol side
  value := t.value
  behavior := t.behavior
  square := s
  direction := side.direction
  bounds
  grammar := t.grammar

end Template

namespace Kind

def kingGrammar : Grammar :=
  ⟨"k1*", [{ source := "k1*", pattern := .step { distance := .single (.exact 1) }, king := true }]⟩

/-- Any way along a line of the given shape. -/
def sliderGrammar (source : String) (shape : Shape) : Grammar :=
  ⟨source, [{ source, pattern := .step { shape, distance := .single .any } }]⟩

/-- Two squares along one axis and one along the other, over whatever is there. -/
def knightGrammar : Grammar :=
  ⟨"~1/2", [{
    source := "~1/2"
    pattern := .step {
      shape := .free
      distance := .paired (.exact 1) (.exact 2) false
      gait := { leaper := true } }
    leaper := true }]⟩

/-- One step forward, or two from the start, and captures on the forward diagonals. -/
def pawnGrammar : Grammar :=
  let ahead (shape : Shape) (length : Nat) (firstMove : Bool) : Pattern :=
    .step { shape, heading := .forward false, distance := .single (.exact length), firstMove }
  ⟨"o1>+, c1x>, oi2>+", [
    { source := "o1>+", pattern := ahead .orthogonal 1 false, quietOnly := true },
    { source := "c1x>", pattern := ahead .diagonal 1 false, captureOnly := true },
    { source := "oi2>+", pattern := ahead .orthogonal 2 true, quietOnly := true, firstMove := true }]⟩

def template? : Kind → Option Template
  | king => some ⟨king.name, king, 'K', 'k', 1000, king.behavior, kingGrammar⟩
  | queen => some ⟨queen.name, queen, 'Q', 'q', 9, queen.behavior, sliderGrammar "n*" .omni⟩
  | rook => some ⟨rook.name, rook, 'R', 'r', 5, rook.behavior, sliderGrammar "n+" .orthogonal⟩
  | bishop => some ⟨bishop.name, bishop, 'B', 'b', 3, bishop.behavior, sliderGrammar "nx" .diagonal⟩
  | knight => some ⟨knight.name, knight, 'N', 'n', 3, knight.behavior, knightGrammar⟩
  | pawn => some ⟨pawn.name, pawn, 'P', 'p', 1, pawn.behavior, pawnGrammar⟩
  | custom => none

end Kind

namespace Piece

def standard? (kind : Kind) (s : Square) (side : Side) (bounds : Bounds) : Option Piece :=
  kind.template?.map (·.spawn s side bounds)

/-- A piece of no standard kind, with the first letter of its name as its symbol. -/
def custom (name source : String) (value : Int) (s : Square) (side : Side) (bounds : Bounds) :
    Except MovementError Piece := do
  let symbol := name.toList.head?.getD '?'
  let template ← Template.read name .custom symbol.toUpper symbol.toLower value {} source
  .ok (template.spawn s side bounds)

/-- The piece that takes the place of `q` when it becomes one of a standard kind. -/
def promote? (kind : Kind) (q : Piece) : Option Piece :=
  kind.template?.map fun t => { t.spawn q.square q.side q.bounds with turns := q.turns }

end Piece

end FairyChess
