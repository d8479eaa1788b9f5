import FairyChess.Bounds
import FairyChess.Movement.Error
import FairyChess.Text.Numeral

/-! What can be wrong with the description of a variant. -/
namespace FairyChess

open Text

inductive Fault
  | missing (item : String)
  | badNumber (item text : String)
  | badSymbol (text : String)
  | boardFields
  | noSquares
  | pieceFields
  | emptyName
  | duplicateSymbol (symbol : Char)
  | rankCount (expected found : Nat)
  | rankTooLong (rank files : Nat)
  | rankCovers (rank covered files : Nat)
  deriving DecidableEq, Repr

def Fault.message : Fault → String
  | missing item => "missing " ++ item
  | badNumber item text => "invalid " ++ item ++ ": " ++ text
  | badSymbol text => "invalid symbol: " ++ text
  | boardFields => "board line must have 4 comma-separated values"
  | noSquares => "board has no squares"
  | pieceFields => "piece definition must have 5 comma-separated values"
  | emptyName => "piece name is empty"
  | duplicateSymbol symbol => "duplicate symbol '" ++ symbol.toString ++ "'"
  | rankCount expected found =>
    "expected " ++ natText expected ++ " ranks, found " ++ natText found
  | rankTooLong rank files =>
    "rank " ++ natText rank ++ " has more than " ++ natText files ++ " files"
  | rankCovers rank covered files =>
    "rank " ++ natText rank ++ " covers " ++ natText covered ++ " of " ++ natText files ++ " files"

inductive VariantError
  /-- The file of the description cannot be read. -/
  | unreadable (path : String)
  | malformed (line : Nat) (fault : Fault)
  | unknownSymbol (line : Nat) (symbol : Char)
  | boardTooLarge (area : Nat)
  | badMovement (line : Nat) (cause : MovementError)
  deriving DecidableEq, Repr

def VariantError.message : VariantError → String
  | unreadable path => "failed to read config file " ++ path
  | malformed line fault => "line " ++ natText line ++ ": " ++ fault.message
  | unknownSymbol line symbol =>
    "line " ++ natText line ++ ": unknown piece symbol '" ++ symbol.toString ++ "'"
  | boardTooLarge area =>
    "board of " ++ natText area ++ " squares exceeds the maximum of " ++ natText maxArea
  | badMovement line _ => "line " ++ natText line ++ ": invalid movement grammar"

end FairyChess
