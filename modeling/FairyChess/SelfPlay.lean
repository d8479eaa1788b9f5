import FairyChess.Contest
import FairyChess.Display.GameText
import FairyChess.Display.MoveText
import FairyChess.Display.PieceTable
import FairyChess.Variant.Reader

/-! Self-play: a contest of a variant, with every move reported. -/
namespace FairyChess

namespace SelfPlay
open Text

/-- What is reported of an event. -/
def eventLine? (bounds : Bounds) : Event → Option String
  | .after record mover => some (mover.side.name ++ " " ++ mover.name ++ " " ++ record.text bounds)
  | .threatened king attackers =>
    some (king.side.name ++ " " ++ king.name ++ " is in check from " ++
      natText attackers.length ++ " piece(s)")
  | _ => none

/-- What is reported of a move: its events and the game after it. -/
def moveLines (played : Played) : List String :=
  played.events.filterMap (eventLine? played.game.position.bounds) ++ [played.game.text]

/-- What is reported of an end after a number of plies. An error is not part of the report. -/
def endLine? (plies : Nat) : Ending → Option String
  | .won winner => some (winner.name ++ " wins after " ++ natText plies ++ " plies")
  | .stuck side => some (side.name ++ " has no moves left")
  | .unfinished => some ("No result after " ++ natText plies ++ " plies")
  | .failed _ => none

def errorText? : Ending → Option String
  | .failed e => some e.message
  | _ => none

/-- The lines that are reported, in order, and the error that ended the play, if there was one. -/
structure Report where
  lines : List String
  error : Option String := none
  deriving DecidableEq, Repr

def Report.text (r : Report) : String :=
  unlines r.lines

/-- The exit code, one after an error. -/
def Report.exitCode (r : Report) : Nat :=
  if r.error.isSome then 1 else 0

/-- Shows the pieces and the position of a variant and reports a contest of it. -/
def run (v : Variant) (depth limit : Nat) : Report :=
  let contest := v.newGame.contest depth limit
  { lines := [Template.table v.templates, v.newGame.text] ++ contest.plays.flatMap moveLines ++
      (endLine? contest.plays.length contest.ending).toList
    error := errorText? contest.ending }

/-- The depth of the search and the limit of plies, for arguments that are missing or no numbers. -/
def defaultDepth : Nat := 2

def defaultPlies : Nat := 40

/-- The depth and the limit that two optional arguments give. -/
def readArguments (args : List String) : Nat × Nat :=
  let number (i limit fallback : Nat) : Nat :=
    (args[i]?.bind fun arg => readNat? limit arg.toList).getD fallback
  (number 0 255 defaultDepth, number 1 18446744073709551615 defaultPlies)

/-- The report on a description. One that cannot be read is an error without any line. -/
def report (source : Except VariantError String) (args : List String) : Report :=
  match source.bind Variant.read with
  | .error e => { lines := [], error := some e.message }
  | .ok v =>
    let (depth, limit) := readArguments args
    run v depth limit

end SelfPlay

end FairyChess
