import FairyChess.Piece.Template
import FairyChess.Text.Layout

/-! Tables of piece types. Each type has a column, in a frame of its own. -/
namespace FairyChess

namespace Template
open Text

def symbolCell (c : Char) : String :=
  if c = '_' then "-" else c.toString

/-- A value, or the infinity sign for the value written `inf`. -/
def valueCell (n : Int) : String :=
  if n = 65535 then "∞" else intText n

def flagCell (b : Bool) : String :=
  if b then "*" else ""

def castleCell : Option CastleRole → String
  | some .king => "King"
  | some .rook => "Rook"
  | none => ""

def cells (t : Template) : List String :=
  [t.name, t.kind.name, symbolCell t.whiteSymbol, symbolCell t.blackSymbol, valueCell t.value,
    flagCell t.grammar.isKing, flagCell t.behavior.pawnLike, castleCell t.behavior.castleRole,
    t.grammar.source]

def minWidth : Nat := 12

/-- The lines of a column, as wide as its widest row. -/
def columnLines (t : Template) : List String :=
  let width := t.cells.foldl (fun n cell => max n cell.length) minWidth
  let line := times (width + 2) "─"
  ["┌" ++ line ++ "┐"] ++ t.cells.map (fun cell => "│ " ++ centre width cell ++ " │") ++
    ["└" ++ line ++ "┘"]

def column (t : Template) : String :=
  "\n".intercalate t.columnLines

def table (templates : List Template) : String :=
  let columns := templates.map columnLines
  let height := columns.foldl (fun n column => max n column.length) 0
  unlines ((List.range height).map fun i => " ".intercalate (columns.map (·.getD i "")))

end Template

end FairyChess
