import FairyChess.Piece.Template
import FairyChess.Position
import FairyChess.Variant.Error

/-!
Placements: the ranks of a starting position from the top, with slashes between them. A rank is
written from the left, a piece by its symbol and a row of empty squares by its length.
-/
namespace FairyChess

/-- The piece types that the symbols of a variant stand for. -/
abbrev SymbolTable := List (Char × Template × Side)

namespace SymbolTable

def find? (table : SymbolTable) (symbol : Char) : Option (Template × Side) :=
  table.lookup symbol

/-- Adds the symbols of a template. A side whose symbol is an underscore has no such piece. A symbol
that is already in use is the error. -/
def insert (table : SymbolTable) (t : Template) : Except Char SymbolTable :=
  [Side.white, Side.black].foldlM (fun table side =>
    let symbol := t.symbol side
    if symbol = '_' then .ok table
    else if (table.find? symbol).isSome then .error symbol
    else .ok (table ++ [(symbol, t, side)])) table

end SymbolTable

/-- What a placement is read with: the board, the symbols and the line of the description. -/
structure Setup where
  bounds : Bounds
  table : SymbolTable
  line : Nat

namespace Setup
open Text

/-- A count of squares, refused where it is more than any rank can have. -/
def checkSpan (s : Setup) (row : Nat) (n : Nat) : Except VariantError Nat :=
  if n ≤ Bounds.maxSpan then .ok n
  else .error (.malformed s.line (.rankTooLong (row + 1) s.bounds.files))

/-- Reads what is left of a rank, `file` files from the left and after a run of empty squares. -/
def readRank (s : Setup) (row : Nat) : Nat → Nat → List Char → Except VariantError (List Piece)
  | file, run, [] => do
    let file ← s.checkSpan row (file + run)
    if file = s.bounds.files then .ok []
    else .error (.malformed s.line (.rankCovers (row + 1) file s.bounds.files))
  | file, run, c :: cs =>
    if c.isDigit then do
      let run ← s.checkSpan row (10 * run + digitValue c)
      s.readRank row file run cs
    else do
      let file ← s.checkSpan row (file + run)
      match s.table.find? c with
      | none => .error (.unknownSymbol s.line c)
      | some (t, side) =>
        if s.bounds.files ≤ file then
          .error (.malformed s.line (.rankTooLong (row + 1) s.bounds.files))
        else
          let square : Square := ⟨s.bounds.left + file, s.bounds.top - 1 - row⟩
          .ok (t.spawn square side s.bounds :: (← s.readRank row (file + 1) 0 cs))

/-- Reads the ranks from the one with number `row` from the top. -/
def readRanks (s : Setup) : Nat → List (List Char) → Except VariantError (List Piece)
  | _, [] => .ok []
  | row, cs :: rest => do
    .ok ((← s.readRank row 0 0 cs) ++ (← s.readRanks (row + 1) rest))

/-- Reads a placement. There must be as many ranks as the board has. -/
def readPlacement (s : Setup) (text : List Char) : Except VariantError Position := do
  let rows := fields '/' text
  if rows.length = s.bounds.ranks then
    .ok ((← s.readRanks 0 rows).foldl Position.add { bounds := s.bounds })
  else .error (.malformed s.line (.rankCount s.bounds.ranks rows.length))

end Setup

end FairyChess
