import FairyChess.Fixed.Game
import FairyChess.SelfPlay

/-!
Self-play in numbers of 32 bits, as it goes on. Lines are printed as soon as they are known, so that those
printed before a build stops are there.
-/
namespace FairyChess

/-- A build that prints lines. -/
class Console (m : Type → Type) extends Build m where
  print : String → m Unit

instance : Console (StateM (List String)) where
  overflow := pure ()
  print line := modify (· ++ [line])

/-- What is printed stays when the build stops. -/
instance : Console (OptionT (StateM (List String))) where
  overflow := failure
  print line := OptionT.lift (modify (· ++ [line]))

namespace Fixed.SelfPlay

open FairyChess.SelfPlay

variable {m : Type → Type} [Console m]

def printAll (lines : List String) : m Unit :=
  forM lines Console.print

def announce (bounds : Bounds) (e : Event) : m Unit :=
  printAll (eventLine? bounds e).toList

/-- Plays on from a game for at most `left` plies, and gives the error that ended the play, if there was one. -/
def playOn (depth limit : Nat) : Nat → Game → m (Option String)
  | 0, _ => do
    printAll (endLine? limit .unfinished).toList
    return none
  | left + 1, g => do
    match ← Game.playBest (announce g.position.bounds) g depth none with
    | .error e => return some e.message
    | .ok none =>
      printAll (endLine? g.history.length (.stuck g.turn)).toList
      return none
    | .ok (some next) =>
      Console.print (← Game.text next)
      match next.winner? with
      | some winner =>
        printAll (endLine? next.history.length (.won winner)).toList
        return none
      | none => playOn depth limit left next

/-- Shows the pieces and the position of a variant and plays a contest of it. -/
def run (v : Variant) (depth limit : Nat) : m (Option String) := do
  Console.print (Template.table v.templates)
  Console.print (← Game.text v.newGame)
  playOn depth limit limit v.newGame

/-- Self-play on a description. One that cannot be read is an error without any line. -/
def report (source : Except VariantError String) (args : List String) : m (Option String) :=
  match source.bind Variant.read with
  | .error e => return some e.message
  | .ok v =>
    let (depth, limit) := readArguments args
    run v depth limit

/-- The exit code of the checked build. It is not the code of an error when the build has stopped. -/
def exitCode : Option (Option String) → Nat
  | some none => 0
  | some (some _) => 1
  | none => 101

end Fixed.SelfPlay

end FairyChess
