import FairyChess.Proofs.Variant.Placement
import Mathlib

/-! New games: where their pieces stand, and when they are over before they begin. -/
namespace FairyChess

namespace Game

/-- Nobody has won while every king stands. -/
theorem winner?_eq_none_iff {g : Game} : g.winner? = none ↔
    ∀ id q, g.position.piece? id = some q → q.isKing = true → q.isCaptured = false := by
  have hlost : g.winner? = none ↔ ∀ side, g.position.hasLost side = false := by
    unfold winner?
    constructor
    · intro h side
      split at h
      · cases h
      split at h
      · cases h
      · next hwhite hblack =>
        cases side
        · exact Bool.eq_false_iff.mpr hwhite
        · exact Bool.eq_false_iff.mpr hblack
    · intro h
      rw [h .white, h .black]
      rfl
  rw [hlost]
  constructor
  · intro h id q hq hking
    rw [Bool.eq_false_iff]
    intro hcaptured
    have hside := (g.position.hasLost_iff).mpr ⟨id, q, rfl, hq, hking, hcaptured⟩
    rw [h id.side] at hside
    cases hside
  · intro h side
    rw [Bool.eq_false_iff]
    intro hside
    obtain ⟨id, q, -, hq, hking, hcaptured⟩ := (g.position.hasLost_iff).mp hside
    rw [h id q hq hking] at hcaptured
    cases hcaptured

end Game

namespace Variant

variable {source : String} {v : Variant}

theorem stands_of_read (h : Variant.read source = .ok v) (hbox : .box ∉ v.bounds) {id : PieceId}
    {q : Piece} (hq : v.position.piece? id = some q) : q.isCaptured = false := by
  obtain ⟨t, hmem, -⟩ := spawned_of_read h hq
  have hne : q.square ≠ .box := fun hsquare => hbox (hsquare ▸ hmem)
  simpa [Piece.isCaptured] using hne

/--
The pieces of a new game are on the board, and each that is not set up on the box can be found on its
square. The game is over from the start if and only if a king is set up on the box. So on a board
without that square all pieces stand, and the game is open.
-/
theorem newGame_of_read (h : Variant.read source = .ok v) :
    (∀ id q, v.position.piece? id = some q → q.square ∈ v.bounds ∧
      (q.square ≠ .box → q.isCaptured = false ∧ v.position.occupant? q.square = some ⟨id, q⟩)) ∧
    (v.newGame.winner? = none ↔
      ∀ id q, v.position.piece? id = some q → q.isKing = true → q.square ≠ .box) ∧
    (.box ∉ v.bounds → (∀ id q, v.position.piece? id = some q →
      q.isCaptured = false ∧ v.position.occupant? q.square = some ⟨id, q⟩) ∧
        v.newGame.winner? = none) := by
  obtain ⟨-, hregular⟩ := regular_of_read h
  have hmem {id : PieceId} {q : Piece} (hq : v.position.piece? id = some q) : q.square ∈ v.bounds := by
    obtain ⟨t, hsquare, -⟩ := spawned_of_read h hq
    exact hsquare
  have hfound {id : PieceId} {q : Piece} (hq : v.position.piece? id = some q) (hbox : q.square ≠ .box) :
      q.isCaptured = false ∧ v.position.occupant? q.square = some ⟨id, q⟩ := by
    have hstands : q.isCaptured = false := beq_false_of_ne hbox
    exact ⟨hstands, hregular.occupant?_eq ⟨id, q⟩ hq hstands⟩
  have hopen : v.newGame.winner? = none ↔
      ∀ id q, v.position.piece? id = some q → q.isKing = true → q.square ≠ .box := by
    rw [Game.winner?_eq_none_iff]
    simp only [Piece.isCaptured, beq_eq_false_iff_ne]
    rfl
  refine ⟨fun id q hq => ⟨hmem hq, hfound hq⟩, hopen, fun hboard => ?_⟩
  have hbox {id : PieceId} {q : Piece} (hq : v.position.piece? id = some q) : q.square ≠ .box :=
    fun hsquare => hboard (hsquare ▸ hmem hq)
  exact ⟨fun id q hq => hfound hq (hbox hq), hopen.mpr fun id q hq _ => hbox hq⟩

theorem newGame_of_read_offset :
    ∃ v, Variant.read "Duel\n1,1,-2,0\n2\nKing,K,k,1000,k1*\nRook,R,r,5,n+\nR1k" = .ok v ∧
      (∀ id q, v.position.piece? id = some q →
        q.isCaptured = false ∧ v.position.occupant? q.square = some ⟨id, q⟩) ∧
      v.newGame.winner? = none := by
  refine ⟨_, rfl, ?_⟩
  have hstart := @newGame_of_read "Duel\n1,1,-2,0\n2\nKing,K,k,1000,k1*\nRook,R,r,5,n+\nR1k" _ rfl
  exact hstart.2.2 (by decide)

/-- A king in the corner square that is the box counts as captured before the first move. -/
theorem king_set_up_on_box :
    ∃ v, Variant.read "Corner\n0,0,-1,-1\n1\nKing,K,k,1000,k1*\nK" = .ok v ∧
      ∃ king, v.position.piece? ⟨.white, 0⟩ = some king ∧ king.isCaptured = true ∧
        v.position.occupant? king.square = none ∧ v.newGame.winner? = some .black :=
  ⟨_, rfl, _, rfl, by decide +kernel, by decide +kernel, by decide +kernel⟩

end Variant

end FairyChess
