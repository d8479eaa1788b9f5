import FairyChess.Proofs.Game.Run
import FairyChess.Proofs.Move.Footprint
import FairyChess.Proofs.Variant.Placement
import Mathlib

/-!
Turn counts in games. The turns of a piece are the moves of the history that took it to another square,
so castling is left to pieces that none of them has moved.
-/
namespace FairyChess

namespace Position

variable {p : Position} {m : Move}

/-- Castling takes a king and a rook that have no turns yet. -/
theorem turns_of_castling {id rook : PieceId} {target : Square} (h : p.move? id target = some m)
    (hrook : m.rook? = some rook) :
    (∃ k, p.piece? id = some k ∧ k.turns = 0) ∧ ∃ r, p.piece? rook = some r ∧ r.turns = 0 := by
  obtain ⟨k, hk, hmove⟩ := of_move? h
  obtain ⟨⟨-, hking, -⟩, slot, hslot, ⟨-, -, hturns, -⟩, rfl⟩ := of_castle? (castle?_of_rook? hmove hrook)
  have hid : slot.id = rook := Option.some.inj hrook
  obtain ⟨-, -, s, hs⟩ := of_firstAlong hslot
  obtain ⟨-, hpiece, -, -⟩ := p.of_occupant? hs
  exact ⟨⟨k, hk, hking⟩, slot.piece, hid ▸ hpiece, hturns⟩

end Position

namespace Game

variable {g : Game} {m : Move}

/-- Every piece has as many turns as there are moves in the history that have relocated it. -/
def CountsTurns (g : Game) : Prop :=
  ∀ id q, g.position.piece? id = some q → q.turns = g.history.countP (·.move.relocates id)

theorem CountsTurns.make (h : g.CountsTurns) (hp : g.position.Regular) (hm : g.Allows m)
    (answer : Option Kind) : (g.make m answer).game.CountsTurns := by
  intro id q' hq'
  have hafter : (g.position.after m answer).piece? id = some q' := hq'
  rw [Position.piece?_after] at hafter
  obtain ⟨q, hq, rfl⟩ := Option.map_eq_some_iff.mp hafter
  have hrook : m.rook? ≠ some m.mover := (hp.fits hm.offers).rook?_ne_mover
  calc (m.effect answer id q).turns
      = q.turns + if m.relocates id then 1 else 0 := Move.turns_effect hrook answer q
    _ = g.history.countP (·.move.relocates id) + if m.relocates id then 1 else 0 := by rw [h id q hq]
    _ = ((g.make m answer).record :: g.history).countP (·.move.relocates id) := by
      rw [List.countP_cons]
      rfl

/-- Before the first move no piece has a turn. -/
theorem countsTurns_newGame {source : String} {v : Variant} (h : Variant.read source = .ok v) :
    v.newGame.CountsTurns := by
  intro id q hq
  obtain ⟨t, -, hspawn⟩ := Variant.spawned_of_read h hq
  have hturns : q.turns = 0 := by
    rw [hspawn]
    rfl
  exact hturns

theorem CountsTurns.eq_zero_iff (h : g.CountsTurns) {id : PieceId} {q : Piece}
    (hq : g.position.piece? id = some q) :
    q.turns = 0 ↔ ∀ r ∈ g.history, r.move.relocates id = false := by
  rw [h id q hq, List.countP_eq_zero]
  simp only [Bool.not_eq_true]

theorem countsTurns_run {source : String} {v : Variant} (h : Variant.read source = .ok v)
    (calls : List Call) : (v.newGame.run calls).CountsTurns := by
  obtain ⟨-, hregular⟩ := Variant.regular_of_read h
  exact run_induction_of_regular rfl hregular (countsTurns_newGame h)
    (fun _ _ answer hp _ hcounts hm => hcounts.make hp hm answer) calls

/--
However a game is played and taken back, the turns of each piece are the moves in the history that it has
made or castled in as the rook. So neither piece of a legal castling move has been in any of them.
-/
theorem turns_run {source : String} {v : Variant} (h : Variant.read source = .ok v)
    (calls : List Call) :
    let g := v.newGame.run calls
    (∀ id q, g.position.piece? id = some q →
      q.turns = g.history.countP fun r => r.move.mover = id ∨ r.move.rook? = some id) ∧
    ∀ id target m rook rookFrom rookTo, g.position.move? id target = some m →
      m.special = .castle rook rookFrom rookTo → ∀ r ∈ g.history,
        (r.move.mover ≠ id ∧ r.move.rook? ≠ some id) ∧ r.move.mover ≠ rook ∧ r.move.rook? ≠ some rook := by
  intro g
  have hcounts : g.CountsTurns := countsTurns_run h calls
  constructor
  · intro id q hq
    have hmoves (r : Record) :
        r.move.relocates id = decide (r.move.mover = id ∨ r.move.rook? = some id) := by
      rw [Bool.eq_iff_iff]
      simp [Move.relocates]
    simp only [← hmoves]
    exact hcounts id q hq
  · intro id target m rook rookFrom rookTo hm hspecial r hr
    have hrook : m.rook? = some rook := by simp [Move.rook?, hspecial]
    obtain ⟨⟨k, hk, hking⟩, q, hq, hturns⟩ := Position.turns_of_castling hm hrook
    have hidle := (hcounts.eq_zero_iff hk).mp hking r hr
    have hidleRook := (hcounts.eq_zero_iff hq).mp hturns r hr
    exact ⟨Move.relocates_eq_false.mp hidle, Move.relocates_eq_false.mp hidleRook⟩

/-- White has castled, and Black still may: a rook's move was taken back. -/
theorem turns_run_castled :
    let board : Bounds := { left := 0, right := 4, bottom := 0, top := 3 }
    let king : Template :=
      ⟨"King", .king, 'K', 'k', 1000, { castleRole := some .king }, Kind.kingGrammar⟩
    let rook : Template :=
      ⟨"Rook", .rook, 'R', 'r', 5, { castleRole := some .rook }, Kind.sliderGrammar "n+" .orthogonal⟩
    let wall : Template := ⟨"Wall", .custom, 'W', 'w', 1, {},
      ⟨"d", [{ source := "d", pattern := .step { dummy := true }, dummy := true }]⟩⟩
    let v : Variant := {
      title := "Castles"
      bounds := board
      templates := [king, rook, wall]
      position := [rook.spawn ⟨0, 2⟩ .black board, king.spawn ⟨3, 2⟩ .black board,
        wall.spawn ⟨2, 1⟩ .black board, rook.spawn ⟨0, 0⟩ .white board,
        king.spawn ⟨3, 0⟩ .white board].foldl Position.add { bounds := board } }
    let calls : List Call := [.play ⟨3, 0⟩ ⟨1, 0⟩ none, .play ⟨0, 2⟩ ⟨0, 1⟩ none, .undo]
    Variant.read
        "Castles\n4,3,0,0\n3\nKing,K,k,1000,k1*\nRook,R,r,5,n+\nWall,W,w,1,d\nr2k/2w1/R2K" = .ok v ∧
      (∃ r, (v.newGame.run calls).position.piece? ⟨.white, 0⟩ = some r ∧ r.turns = 1 ∧
        r.turns = (v.newGame.run calls).history.countP fun r =>
          r.move.mover = ⟨.white, 0⟩ ∨ r.move.rook? = some ⟨.white, 0⟩) ∧
      ∃ m, (v.newGame.run calls).position.move? ⟨.black, 1⟩ ⟨1, 2⟩ = some m ∧
        m.special = .castle ⟨.black, 0⟩ ⟨0, 2⟩ ⟨2, 2⟩ ∧
        ∃ r ∈ (v.newGame.run calls).history, r.move.mover ≠ ⟨.black, 1⟩ ∧ r.move.mover ≠ ⟨.black, 0⟩ := by
  intro board king rook wall v calls
  have hread : Variant.read
      "Castles\n4,3,0,0\n3\nKing,K,k,1000,k1*\nRook,R,r,5,n+\nWall,W,w,1,d\nr2k/2w1/R2K" = .ok v := rfl
  obtain ⟨hcounts, hidle⟩ := turns_run hread calls
  have hturns : ((v.newGame.run calls).position.piece? ⟨.white, 0⟩).map (·.turns) = some 1 := by cbv
  have hspecial : ((v.newGame.run calls).position.move? ⟨.black, 1⟩ ⟨1, 2⟩).map (·.special) =
      some (.castle ⟨.black, 0⟩ ⟨0, 2⟩ ⟨2, 2⟩) := by cbv
  have hplayed : (v.newGame.run calls).history ≠ [] := by
    have hlength : (v.newGame.run calls).history.length = 1 := by cbv
    exact List.ne_nil_of_length_eq_add_one hlength
  obtain ⟨r, hr, hone⟩ := Option.map_eq_some_iff.mp hturns
  obtain ⟨m, hm, hcastle⟩ := Option.map_eq_some_iff.mp hspecial
  obtain ⟨first, hfirst⟩ := List.exists_mem_of_ne_nil _ hplayed
  obtain ⟨⟨hking, -⟩, hrook, -⟩ := hidle _ _ m _ _ _ hm hcastle first hfirst
  exact ⟨hread, ⟨r, hr, hone, hcounts _ r hr⟩, m, hm, hcastle, first, hfirst, hking, hrook⟩

end Game

end FairyChess
