import FairyChess.Text.Blank

/-! The kinds of pieces, and the rules that take part in a piece's kind but not in its grammar. -/
namespace FairyChess

inductive Kind
  | king
  | queen
  | rook
  | bishop
  | knight
  | pawn
  | custom
  deriving DecidableEq, Repr

/-- Which of the two pieces of a castling move a piece can be. -/
inductive CastleRole
  | king
  | rook
  deriving DecidableEq, Repr

/-- Pawn-like pieces promote and take part in en passant captures. -/
structure Behavior where
  pawnLike : Bool := false
  castleRole : Option CastleRole := none
  deriving DecidableEq, Repr

namespace Kind

def name : Kind → String
  | king => "King"
  | queen => "Queen"
  | rook => "Rook"
  | bishop => "Bishop"
  | knight => "Knight"
  | pawn => "Pawn"
  | custom => "Custom"

/-- The kinds with a grammar of their own. -/
def standard : List Kind :=
  [king, queen, rook, bishop, knight, pawn]

/-- The kind with a name in any case and with blanks around it. Every other name is custom. -/
def ofName (name : String) : Kind :=
  let given := (Text.trim name.toList).map Char.toLower
  (standard.find? fun kind => kind.name.toList.map Char.toLower == given).getD custom

def behavior : Kind → Behavior
  | king => { castleRole := some .king }
  | rook => { castleRole := some .rook }
  | pawn => { pawnLike := true }
  | _ => {}

/-- What a pawn-like piece may become at the far end of the board. -/
def promotions : List Kind :=
  [queen, rook, bishop, knight, pawn]

end Kind

end FairyChess
