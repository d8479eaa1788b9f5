import FairyChess.Fixed.SelfPlay

/-! The command line: a file with the description of a variant, a depth and a limit of plies. -/
open FairyChess

def main (args : List String) : IO UInt32 := do
  let path := args.head?.getD "configs/standard.anm"
  let source ← try
    pure (.ok (← IO.FS.readFile path))
  catch _ => pure (.error (.unreadable path))
  let play : OptionT (StateM (List String)) (Option String) := Fixed.SelfPlay.report source (args.drop 1)
  let (ended, lines) := play.run.run []
  IO.print (Text.unlines lines)
  if let some (some message) := ended then
    IO.eprintln message
  return UInt32.ofNat (Fixed.SelfPlay.exitCode ended)
