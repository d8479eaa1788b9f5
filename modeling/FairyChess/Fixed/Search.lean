import FairyChess.Fixed.Apply
import FairyChess.Fixed.Move
import FairyChess.Search

/-!
The search in numbers of 32 bits. The scores, the windows and the turns of the positions that are looked at are
computed in them. Only the positions that were looked at are counted without a limit.
-/
namespace FairyChess.Fixed

open Search

variable {m : Type → Type} [Build m]

/-- The position after a move, where pawns are taken to promote to queens. -/
def child (p : Position) (move : Move) : m Position := do
  return (← make p move none).position

/-- The best of the moves of a position, given the score of each for the other side. -/
def scoreMoves (pruning : Bool) (reply : Move → Int → Int → m Score) (beta : Int) :
    Int → Score → List Move → m Score
  | _, sofar, [] => return sofar
  | alpha, sofar, move :: moves => do
    let answer ← reply move (← word (-beta)) (← word (-alpha))
    let value ← word (-answer.value)
    let sofar : Score := ⟨max sofar.value value, sofar.nodes + answer.nodes⟩
    if pruning then
      let alpha := max alpha sofar.value
      if beta ≤ alpha then return sofar else scoreMoves pruning reply beta alpha sofar moves
    else scoreMoves pruning reply beta alpha sofar moves

def leafScore (p : Position) (side : Side) : m Score := do
  return ⟨← materialScore p side, 1⟩

/-- The score of a position for the side to move. -/
def score (pruning : Bool) : Nat → Position → Side → Int → Int → m Score
  | 0, p, side, _, _ => leafScore p side
  | depth + 1, p, side, alpha, beta =>
    if p.hasLost side || p.hasLost side.opposite then leafScore p side
    else do
      match ← moves p side with
      | [] => leafScore p side
      | move :: rest =>
        let reply (move : Move) (alpha beta : Int) : m Score := do
          score pruning depth (← child p move) side.opposite alpha beta
        scoreMoves pruning reply beta alpha ⟨-infinity, 1⟩ (move :: rest)

/-- The first move with the best score. -/
def choose (pruning : Bool) (reply : Move → Int → Int → m Score) :
    Int → Outcome → List Move → m Outcome
  | _, sofar, [] => return sofar
  | alpha, sofar, move :: moves => do
    let answer ← reply move (← word (-infinity)) (← word (-alpha))
    let value ← word (-answer.value)
    let best := match sofar.best with
      | some best => if best.score < value then ⟨move, value⟩ else best
      | none => ⟨move, value⟩
    let alpha := if pruning then max alpha value else alpha
    choose pruning reply alpha ⟨some best, sofar.nodes + answer.nodes⟩ moves

/-- Searches for the best move of a side `depth` moves ahead. -/
def search (p : Position) (side : Side) (depth : Nat) (pruning : Bool) : m (Except SearchError Outcome) :=
  match depth with
  | 0 => return .error (.nonPositiveDepth 0)
  | depth + 1 => do
    let reply (move : Move) (alpha beta : Int) : m Score := do
      score pruning depth (← child p move) side.opposite alpha beta
    return .ok (← choose pruning reply (-infinity) ⟨none, 0⟩ (← moves p side))

end FairyChess.Fixed
