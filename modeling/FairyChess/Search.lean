import FairyChess.Move.Apply
import FairyChess.Move.Legal

/-!
Searching for the best move: minimax to a fixed depth over material, with or without alpha-beta
pruning.
-/
namespace FairyChess

/-- A search must look at least one move ahead. -/
inductive SearchError
  | nonPositiveDepth (depth : Nat)
  deriving DecidableEq, Repr

def SearchError.message : SearchError → String
  | .nonPositiveDepth depth => "search depth must be positive, got " ++ Text.natText depth

/-- The move that is chosen, and its score for the side that makes it. -/
structure Choice where
  move : Move
  score : Int
  deriving DecidableEq, Repr

/-- The answer of a search, and how many positions it has looked at. -/
structure Outcome where
  best : Option Choice
  nodes : Nat
  deriving DecidableEq, Repr

namespace Search

/-- The first window is open from `-infinity` to `infinity`. -/
def infinity : Int := 1073741823

/-- A score and the number of positions that were looked at for it. -/
structure Score where
  value : Int
  nodes : Nat
  deriving DecidableEq, Repr

/--
The best of the moves of a position, given the score of each for the other side. With pruning, the
window closes in from below as the moves are scored, and a score that reaches its upper end ends the
search of the position.
-/
def scoreMoves (pruning : Bool) (reply : Move → Int → Int → Score) (beta : Int) :
    Int → Score → List Move → Score
  | _, sofar, [] => sofar
  | alpha, sofar, m :: ms =>
    let answer := reply m (-beta) (-alpha)
    let sofar : Score := ⟨max sofar.value (-answer.value), sofar.nodes + answer.nodes⟩
    if pruning then
      let alpha := max alpha sofar.value
      if beta ≤ alpha then sofar else scoreMoves pruning reply beta alpha sofar ms
    else scoreMoves pruning reply beta alpha sofar ms

/-- The score of a position for the side to move. Pawns are taken to promote to queens. -/
def score (pruning : Bool) : Nat → Position → Side → Int → Int → Score
  | 0, p, side, _, _ => ⟨p.materialScore side, 1⟩
  | depth + 1, p, side, alpha, beta =>
    if p.hasLost side || p.hasLost side.opposite then ⟨p.materialScore side, 1⟩
    else match p.moves side with
      | [] => ⟨p.materialScore side, 1⟩
      | m :: ms =>
        let reply (m : Move) := score pruning depth (p.after m none) side.opposite
        scoreMoves pruning reply beta alpha ⟨-infinity, 1⟩ (m :: ms)

/-- The first move with the best score. With pruning, later moves only have to show whether they are
better. -/
def choose (pruning : Bool) (reply : Move → Int → Int → Score) :
    Int → Outcome → List Move → Outcome
  | _, sofar, [] => sofar
  | alpha, sofar, m :: ms =>
    let answer := reply m (-infinity) (-alpha)
    let score := -answer.value
    let best := match sofar.best with
      | some best => if best.score < score then ⟨m, score⟩ else best
      | none => ⟨m, score⟩
    let alpha := if pruning then max alpha score else alpha
    choose pruning reply alpha ⟨some best, sofar.nodes + answer.nodes⟩ ms

end Search

open Search in
/-- Searches for the best move of a side `depth` moves ahead. -/
def Position.search (p : Position) (side : Side) (depth : Nat) (pruning : Bool) :
    Except SearchError Outcome :=
  match depth with
  | 0 => .error (.nonPositiveDepth 0)
  | depth + 1 =>
    let reply (m : Move) := score pruning depth (p.after m none) side.opposite
    .ok (choose pruning reply (-infinity) ⟨none, 0⟩ (p.moves side))

end FairyChess
