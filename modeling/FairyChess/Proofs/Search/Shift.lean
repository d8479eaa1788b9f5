import FairyChess.Proofs.Move.Shift
import FairyChess.Search
import Mathlib

/-!
The rules and the search do not depend on where the board lies: what follows from a position is shifted
with it, move by move, and the search looks at as many positions and finds the same score.
-/
namespace FairyChess

def Choice.shift (v : Offset) (c : Choice) : Choice :=
  { c with move := c.move.shift v }

def Outcome.shift (v : Offset) (o : Outcome) : Outcome :=
  { o with best := o.best.map (Choice.shift v) }

namespace Search

variable {v : Offset} {pruning : Bool} {reply reply' : Move → ℤ → ℤ → Score} {ms : List Move}

theorem scoreMoves_shift (h : ∀ m ∈ ms, ∀ alpha beta, reply' (m.shift v) alpha beta = reply m alpha beta)
    (beta alpha : ℤ) (sofar : Score) :
    scoreMoves pruning reply' beta alpha sofar (ms.map (Move.shift v)) =
      scoreMoves pruning reply beta alpha sofar ms := by
  induction ms generalizing alpha sofar with
  | nil => rfl
  | cons m ms ih =>
    obtain ⟨hm, hms⟩ := List.forall_mem_cons.mp h
    rw [List.map_cons, scoreMoves, scoreMoves, hm]
    simp only [ih hms]

theorem choose_shift (h : ∀ m ∈ ms, ∀ alpha beta, reply' (m.shift v) alpha beta = reply m alpha beta)
    (alpha : ℤ) (sofar : Outcome) :
    choose pruning reply' alpha (sofar.shift v) (ms.map (Move.shift v)) =
      (choose pruning reply alpha sofar ms).shift v := by
  induction ms generalizing alpha sofar with
  | nil => rfl
  | cons m ms ih =>
    obtain ⟨hm, hms⟩ := List.forall_mem_cons.mp h
    rw [List.map_cons, choose, choose, hm, ← ih hms]
    congr 1
    rw [Outcome.shift, Outcome.shift]
    cases sofar.best with
    | none => rfl
    | some best => simp only [Option.map_some, Choice.shift]; split <;> rfl

/-- A position is worth as much after a shift, and the search for it takes as long. -/
theorem score_shift {p : Position} (h : p.Shifts v) (depth : ℕ) (side : Side) (alpha beta : ℤ) :
    score pruning depth (p.shift v) side alpha beta = score pruning depth p side alpha beta := by
  induction depth generalizing p side alpha beta with
  | zero => rw [score, h.materialScore_shift, score]
  | succ depth ih =>
    rw [score, h.hasLost_shift, h.hasLost_shift, h.materialScore_shift, h.moves_shift, score]
    cases hmoves : p.moves side with
    | nil => rfl
    | cons m ms =>
      split
      · rfl
      · change scoreMoves pruning (fun r => score pruning depth ((p.shift v).after r none) side.opposite) beta
          alpha ⟨-infinity, 1⟩ ((m :: ms).map (Move.shift v)) = _
        refine scoreMoves_shift (fun r hr alpha beta => ?_) beta alpha ⟨-infinity, 1⟩
        have hlands : p.Lands r := h.lands_of_mem_moves (hmoves ▸ hr)
        rw [← h.after_shift hlands, ih (h.after hlands none)]

end Search

namespace Position

variable {v : Offset} {p : Position}

theorem Shifts.search_shift (h : p.Shifts v) (side : Side) (depth : ℕ) (pruning : Bool) :
    (p.shift v).search side depth pruning = (p.search side depth pruning).map (Outcome.shift v) := by
  cases depth with
  | zero => rfl
  | succ depth =>
    rw [search, h.moves_shift, search]
    refine congrArg Except.ok (Search.choose_shift (fun m hm alpha beta => ?_) (-Search.infinity) ⟨none, 0⟩)
    have hlands := h.lands_of_mem_moves hm
    rw [← h.after_shift hlands, Search.score_shift (h.after hlands none)]

/--
Rules and search are the same wherever the board lies. The legal moves of a shifted position are the legal
moves, shifted and in the same order. Each is made alike, with the same captures, promotion and flags. Threats
and checks are the same, and the search chooses the shifted move for the same score after as many positions.
-/
theorem Shifts.rules_shift (h : p.Shifts v) :
    (∀ id target, (p.shift v).move? id (target.shift v) = (p.move? id target).map (Move.shift v)) ∧
      (∀ side, (p.shift v).moves side = (p.moves side).map (Move.shift v)) ∧
      (∀ id target m choice, p.move? id target = some m →
        (p.shift v).make (m.shift v) choice = (p.make m choice).shift v) ∧
      (∀ s side, (p.shift v).threats (s.shift v) side = p.threats s side) ∧
      (∀ side, (p.shift v).checkStatus side = p.checkStatus side) ∧
      ∀ side depth pruning,
        (p.shift v).search side depth pruning = (p.search side depth pruning).map (Outcome.shift v) :=
  ⟨h.move?_shift, h.moves_shift, fun _ _ _ choice hm => h.make_shift (h.lands hm) choice, h.threats_shift,
    h.checkStatus_shift, h.search_shift⟩

/-- A pawn has taken a rook and become a knight. The board goes across the square where the rook is put. -/
theorem Shifts.rules_shift_knight :
    let board : Bounds := { left := 0, right := 3, bottom := 0, top := 4 }
    let start := ((Piece.standard? .pawn ⟨1, 2⟩ .white board).toList ++
      (Piece.standard? .rook ⟨0, 3⟩ .black board).toList ++
      (Piece.standard? .king ⟨2, 0⟩ .black board).toList).foldl Position.add { bounds := board }
    let takes : Move :=
      { mover := ⟨.white, 0⟩, origin := ⟨1, 2⟩, target := ⟨0, 3⟩, captured := [⟨.black, 0⟩] }
    let p := start.after takes (some .knight)
    let v : Offset := ⟨-7, -9⟩
    start.move? ⟨.white, 0⟩ ⟨0, 3⟩ = some takes ∧ p.Shifts v ∧
      (p.shift v).move? ⟨.white, 0⟩ ⟨-6, -8⟩ =
        some { mover := ⟨.white, 0⟩, origin := ⟨-7, -6⟩, target := ⟨-6, -8⟩ } ∧
      ∃ o, p.search .white 2 true = .ok o ∧ (p.shift v).search .white 2 true = .ok (o.shift v) := by
  intro board start takes p v
  have hstart : start.Shifts v := by
    have hregular : start.Regular := regular_foldl_add (by decide) (by decide) (by decide) (by decide)
    have hbounds : start.bounds = board := bounds_foldl_add ..
    refine ⟨hregular.bounds, hregular.onBoard, ?_, ?_⟩ <;> rw [hbounds] <;> decide
  have htakes : start.move? ⟨.white, 0⟩ ⟨0, 3⟩ = some takes := by cbv
  have hp : p.Shifts v := hstart.after (hstart.lands htakes) (some .knight)
  have hm : p.move? ⟨.white, 0⟩ ⟨1, 1⟩ =
      some { mover := ⟨.white, 0⟩, origin := ⟨0, 3⟩, target := ⟨1, 1⟩ } := by
    cbv
  obtain ⟨hmoves, -, -, -, -, hsearch⟩ := hp.rules_shift
  have himage := hmoves ⟨.white, 0⟩ ⟨1, 1⟩
  rw [hm] at himage
  exact ⟨htakes, hp, himage, _, rfl, hsearch .white 2 true⟩

end Position

end FairyChess
