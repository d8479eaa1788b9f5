import FairyChess.Display.SquareName
import FairyChess.Move.Apply

/-! Moves in writing, such as `e2-e4`, `d1xd8`, `a7-a8=Q` or `e1-g1 (O-O)`. -/
namespace FairyChess
open Text

def Kind.letter : Kind → Char
  | .king => 'K'
  | .queen => 'Q'
  | .rook => 'R'
  | .bishop => 'B'
  | .knight => 'N'
  | .pawn => 'P'
  | .custom => 'C'

namespace Move

/-- What a special move has after its squares. A castling move is short toward the higher files. -/
def specialText (m : Move) : String :=
  match m.special with
  | .normal => ""
  | .enPassant => " e.p."
  | .castle _ rookFrom _ => if m.origin.file < rookFrom.file then " (O-O)" else " (O-O-O)"

/-- The number of captured pieces, where there is more than one. -/
def countText (m : Move) : String :=
  if 1 < m.captured.length then " [" ++ natText m.captured.length ++ " captured]" else ""

end Move

namespace Record

def promotionText (r : Record) : String :=
  match r.promotion with
  | some kind => "=" ++ kind.letter.toString
  | none => ""

def text (r : Record) (b : Bounds) : String :=
  r.move.origin.name b ++ (if r.move.isCapture then "x" else "-") ++ r.move.target.name b ++
    r.promotionText ++ r.move.specialText ++ r.move.countText

end Record

end FairyChess
