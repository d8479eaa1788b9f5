import FairyChess.Game

/-! Contests: games in which the search moves for both sides. -/
namespace FairyChess

inductive Ending
  | won (winner : Side)
  | stuck (side : Side)
  | unfinished
  | failed (error : SearchError)
  deriving DecidableEq, Repr

/-- The moves of a contest in order, and its end. -/
structure Contest where
  plays : List Played
  ending : Ending
  deriving DecidableEq, Repr

def Contest.after (played : Played) (c : Contest) : Contest :=
  { c with plays := played :: c.plays }

/-- Plays on from a game for at most `limit` plies. -/
def Game.contest (depth : Nat) : Nat → Game → Contest
  | 0, _ => ⟨[], .unfinished⟩
  | limit + 1, g =>
    match g.playBest depth none with
    | .error e => ⟨[], .failed e⟩
    | .ok none => ⟨[], .stuck g.turn⟩
    | .ok (some played) =>
      match played.game.winner? with
      | some winner => ⟨[played], .won winner⟩
      | none => (played.game.contest depth limit).after played

end FairyChess
