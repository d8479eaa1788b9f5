import FairyChess.Proofs.Move.Captures
import FairyChess.Proofs.Move.Castling
import FairyChess.Proofs.Position.Tally
import FairyChess.Proofs.Square
import Mathlib

/-! What a legal move leaves as it was, and what it does to the mover, to its captives and to a castling rook. -/
namespace FairyChess

/-- Whether the move takes the piece to another square, as the mover or as the rook of a castling move. -/
def Move.relocates (m : Move) (id : PieceId) : Bool :=
  m.mover == id || m.rook? == some id

namespace Move

variable {m : Move} {id : PieceId}

theorem relocates_eq_false : m.relocates id = false ↔ m.mover ≠ id ∧ m.rook? ≠ some id := by
  simp [relocates]

/-- A move counts once for each piece that it relocates, if the castling rook is not the mover itself. -/
theorem turns_displace (hrook : m.rook? ≠ some m.mover) (q : Piece) :
    (m.displace id q).turns = q.turns + if m.relocates id then 1 else 0 := by
  have hcapture : (if id ∈ m.captured then q.capture else q).turns = q.turns := by
    split <;> rfl
  have hadvance (r : Piece) : (r.advance m).turns = r.turns + 1 := rfl
  have hcastle (r : Piece) (s : Square) : (r.castleTo s).turns = r.turns + 1 := rfl
  unfold displace relocates
  by_cases hmover : id = m.mover
  · subst hmover
    cases hspecial : m.special with
    | normal => simp [hadvance, hcapture]
    | enPassant => simp [hadvance, hcapture]
    | castle rook rookFrom rookTo =>
      have hne : m.mover ≠ rook := by simpa [rook?, hspecial, eq_comm] using hrook
      simp [hadvance, hcapture, hne]
  · cases hspecial : m.special with
    | normal => simp [hcapture, hmover, Ne.symm hmover, rook?, hspecial]
    | enPassant => simp [hcapture, hmover, Ne.symm hmover, rook?, hspecial]
    | castle rook rookFrom rookTo =>
      by_cases hid : id = rook
      · subst hid
        simp [hcapture, hcastle, hmover, rook?, hspecial]
      · simp [hcapture, hmover, Ne.symm hmover, hid, Ne.symm hid, rook?, hspecial]

theorem turns_effect (hrook : m.rook? ≠ some m.mover) (choice : Option Kind) (q : Piece) :
    (m.effect choice id q).turns = q.turns + if m.relocates id then 1 else 0 := by
  have hpromoted : (m.effect choice id q).turns = (m.displace id q).turns := by
    unfold effect
    split <;> simp
  rw [hpromoted, turns_displace hrook]

end Move

namespace Position

variable {p : Position} {m : Move}

theorem Fits.rook?_ne_mover (h : p.Fits m) : m.rook? ≠ some m.mover := by
  cases hspecial : m.special with
  | normal => simp [Move.rook?, hspecial]
  | enPassant => simp [Move.rook?, hspecial]
  | castle rook rookFrom rookTo =>
    have hne : rook ≠ m.mover := (h.castle hspecial).1
    simpa [Move.rook?, hspecial] using hne

/-- The rook of a castling move stands on the board. -/
theorem stands_of_rook? {mover : Slot} {target : Square} {id : PieceId}
    (h : p.moveOf? mover target = some m) (hrook : m.rook? = some id) :
    ∃ r, p.piece? id = some r ∧ r.isCaptured = false := by
  obtain ⟨-, rook, hscan, -, rfl⟩ := of_castle? (castle?_of_rook? h hrook)
  obtain rfl : rook.id = id := Option.some.inj hrook
  obtain ⟨-, -, s, hs⟩ := of_firstAlong hscan
  obtain ⟨-, hpiece, -, hstands⟩ := p.of_occupant? hs
  exact ⟨rook.piece, hpiece, hstands⟩

section Moves

variable {id v : PieceId} {target : Square} {r : Piece}

end Moves

end Position

end FairyChess
