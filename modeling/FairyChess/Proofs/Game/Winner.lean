import FairyChess.Proofs.Game.Run
import FairyChess.Proofs.Move.Captures
import FairyChess.Proofs.Variant.Start
import Mathlib

/-!
Won games. Only the move that was made last can have captured a king, since nothing is played once one is
captured. On a board without the box no piece comes to count as captured in any other way.
-/
namespace FairyChess

/-- The move captures a king of a position. -/
def Move.TakesKing (m : Move) (p : Position) : Prop :=
  ∃ id ∈ m.captured, ∃ king, p.piece? id = some king ∧ king.isKing = true

namespace Position

variable {p : Position} {m : Move}

theorem Regular.piece?_after_of_captured (hp : p.Regular) {id v : PieceId} {target : Square}
    (h : p.move? id target = some m) (hv : v ∈ m.captured) {q : Piece} (hq : p.piece? v = some q)
    (choice : Option Kind) : (p.after m choice).piece? v = some q.capture := by
  rw [p.piece?_after, hq, Option.map_some, effect_of_captured (fun _ _ hq => hp.filed hq) h hv]

/-- On a board without the box a piece is captured after a move if it was before, or if the move captured
it. -/
theorem Fits.of_isCaptured_effect (hm : p.Fits m) (hbox : .box ∉ p.bounds) {id : PieceId} {q : Piece}
    {choice : Option Kind} (h : (m.effect choice id q).isCaptured = true) :
    id ∈ m.captured ∨ m.effect choice id q = q := by
  have hsquare : (m.effect choice id q).square = .box := by simpa [Piece.isCaptured] using h
  rcases m.effect_cases choice id q with
    ⟨-, htarget⟩ | ⟨-, rookFrom, rookTo, hspecial, hrook⟩ | ⟨hcaptured, -⟩ | ⟨-, hsame⟩
  · have hmem := hm.target_mem
    rw [← htarget, hsquare] at hmem
    exact absurd hmem hbox
  · have hmem := (hm.castle hspecial).2.1
    rw [← hrook, hsquare] at hmem
    exact absurd hmem hbox
  · exact .inl hcaptured
  · exact .inr hsame

end Position

namespace Game

variable {g : Game} {m : Move}

/-- A move loses the game for the other side if and only if it captures a king. -/
theorem Allows.hasLost_make (hm : g.Allows m) (hp : g.position.Regular) (hbox : .box ∉ g.position.bounds)
    (answer : Option Kind) (side : Side) :
    (g.make m answer).game.position.hasLost side = true ↔
      m.mover.side ≠ side ∧ m.TakesKing (g.make m answer).game.position := by
  have hfits : g.position.Fits m := hp.fits hm.offers
  have hafter : (g.make m answer).game.position = g.position.after m answer := rfl
  obtain ⟨mover, hmover, hmove⟩ := Position.of_move? hm.legal
  have henemy : ∀ id ∈ m.captured, id.side ≠ m.mover.side := fun id hid =>
    Position.enemy_of_mem_captured hmove (hp.filed hmover) hid
  rw [Position.hasLost_iff, hafter]
  constructor
  · rintro ⟨id, q', rfl, hq', hking, hcaptured⟩
    have hcaptures : id ∈ m.captured := by
      obtain ⟨q, hq, heffect⟩ := Option.map_eq_some_iff.mp ((g.position.piece?_after ..).symm.trans hq')
      rw [← heffect] at hcaptured
      refine (hfits.of_isCaptured_effect hbox hcaptured).resolve_right fun hsame => ?_
      -- A king that was captured before the move would have ended the game.
      rw [hsame] at heffect hcaptured
      rw [← heffect] at hking
      have hstands := winner?_eq_none_iff.mp hm.winner id q hq hking
      rw [hstands] at hcaptured
      cases hcaptured
    exact ⟨(henemy id hcaptures).symm, id, hcaptures, q', hq', hking⟩
  · rintro ⟨hside, id, hcaptures, king, hking, hisKing⟩
    obtain ⟨q, hq, -⟩ := Option.map_eq_some_iff.mp ((g.position.piece?_after ..).symm.trans hking)
    have hcaptured : king = q.capture := by
      have hpiece := hp.piece?_after_of_captured hm.legal hcaptures hq answer
      exact Option.some.inj (hking.symm.trans hpiece)
    have hid : id.side = side := by
      have hne := henemy id hcaptures
      revert hne hside
      cases id.side <;> cases m.mover.side <;> cases side <;> simp
    exact ⟨id, king, hid, hking, hisKing, by rw [hcaptured]; rfl⟩

/-- A side has lost if and only if the other side has made the last move and captured a king with it. -/
def LostByLast (g : Game) : Prop :=
  ∀ side, g.position.hasLost side = true ↔
    ∃ r rest, g.history = r :: rest ∧ r.move.mover.side ≠ side ∧ r.move.TakesKing g.position

theorem lostByLast_run {source : String} {v : Variant} (h : Variant.read source = .ok v)
    (hbox : .box ∉ v.bounds) (calls : List Call) : (v.newGame.run calls).LostByLast := by
  obtain ⟨hbounds, hregular⟩ := Variant.regular_of_read h
  refine run_induction_of_regular rfl hregular ?_ ?_ calls
  · intro side
    constructor
    · intro hlost
      obtain ⟨id, q, -, hq, -, hcaptured⟩ := (Position.hasLost_iff _).mp hlost
      rw [Variant.stands_of_read h hbox hq] at hcaptured
      cases hcaptured
    · rintro ⟨r, rest, hhistory, -⟩
      cases hhistory
  · intro g m answer hp hsame _ hm side
    have hboard : .box ∉ g.position.bounds := by rwa [hsame, Variant.newGame, hbounds]
    rw [hm.hasLost_make hp hboard answer side]
    constructor
    · intro htaken
      exact ⟨_, g.history, rfl, htaken⟩
    · rintro ⟨r, rest, hhistory, htaken⟩
      obtain ⟨rfl, -⟩ := List.cons.inj hhistory
      exact htaken

theorem LostByLast.not_both (h : g.LostByLast) :
    ¬(g.position.hasLost .white = true ∧ g.position.hasLost .black = true) := by
  rintro ⟨hwhite, hblack⟩
  obtain ⟨r, rest, hr, hnotWhite, -⟩ := (h .white).mp hwhite
  obtain ⟨r', rest', hr', hnotBlack, -⟩ := (h .black).mp hblack
  obtain ⟨rfl, -⟩ := List.cons.inj (hr.symm.trans hr')
  revert hnotWhite hnotBlack
  cases r.move.mover.side <;> simp

theorem LostByLast.winner?_eq_some_iff (h : g.LostByLast) {side : Side} :
    g.winner? = some side ↔ g.position.hasLost side.opposite = true := by
  have hboth := h.not_both
  unfold winner?
  cases side <;> cases hwhite : g.position.hasLost .white <;> cases hblack : g.position.hasLost .black <;>
    simp_all [Side.opposite]

/-- Nothing is played in a game that is over. -/
theorem not_played_of_winner? (h : g.winner?.isSome = true) (answer : Option Kind) :
    (∀ origin target, g.play? origin target answer = none) ∧
      ∀ depth, g.playBest depth answer = .ok none := by
  constructor
  · intro origin target
    simp [play?, h]
  · intro depth
    simp [playBest, bestMove, h, Except.map]

/--
On a board without the box, a game is won if and only if its last move has captured a king, and then by the
side that made it. The sides never both lose, and once one has nothing is played any more.
-/
theorem winner?_run {source : String} {v : Variant} (h : Variant.read source = .ok v)
    (hbox : .box ∉ v.bounds) (calls : List Call) :
    let g := v.newGame.run calls
    (∀ side, g.winner? = some side ↔
      ∃ r rest, g.history = r :: rest ∧ r.move.mover.side = side ∧
        ∃ id ∈ r.move.captured, ∃ king, g.position.piece? id = some king ∧ king.isKing = true) ∧
    ¬(g.position.hasLost .white = true ∧ g.position.hasLost .black = true) ∧
    (g.winner?.isSome = true → ∀ answer,
      (∀ origin target, g.play? origin target answer = none) ∧
        ∀ depth, g.playBest depth answer = .ok none) := by
  intro g
  have hlast : g.LostByLast := lostByLast_run h hbox calls
  refine ⟨fun side => ?_, hlast.not_both, not_played_of_winner?⟩
  rw [hlast.winner?_eq_some_iff, hlast side.opposite]
  have hside (other : Side) : other ≠ side.opposite ↔ other = side := by
    cases other <;> cases side <;> simp [Side.opposite]
  simp only [hside]
  rfl

/-- The rook captures the king after another move of it was taken back. -/
theorem winner?_run_rook :
    let board : Bounds := { left := 0, right := 3, bottom := 0, top := 1 }
    let king : Template :=
      ⟨"King", .king, 'K', 'k', 1000, { castleRole := some .king }, Kind.kingGrammar⟩
    let rook : Template :=
      ⟨"Rook", .rook, 'R', 'r', 5, { castleRole := some .rook }, Kind.sliderGrammar "n+" .orthogonal⟩
    let v : Variant := {
      title := "Hunt"
      bounds := board
      templates := [king, rook]
      position := [rook.spawn ⟨0, 0⟩ .white board, king.spawn ⟨2, 0⟩ .black board].foldl
        Position.add { bounds := board } }
    let calls : List Call := [.play ⟨0, 0⟩ ⟨1, 0⟩ none, .undo, .play ⟨0, 0⟩ ⟨2, 0⟩ none]
    Variant.read "Hunt\n3,1,0,0\n2\nKing,K,k,1000,k1*\nRook,R,r,5,n+\nR1k" = .ok v ∧ .box ∉ v.bounds ∧
      (v.newGame.run calls).winner? = some .white ∧
      (∃ r rest, (v.newGame.run calls).history = r :: rest ∧ r.move.mover.side = .white ∧
        ∃ id ∈ r.move.captured, ∃ king,
          (v.newGame.run calls).position.piece? id = some king ∧ king.isKing = true) ∧
      (v.newGame.run calls).playBest 1 none = .ok none := by
  intro board king rook v calls
  have hread : Variant.read "Hunt\n3,1,0,0\n2\nKing,K,k,1000,k1*\nRook,R,r,5,n+\nR1k" = .ok v := rfl
  have hbox : .box ∉ v.bounds := by decide
  have hwinner : (v.newGame.run calls).winner? = some .white := by cbv
  obtain ⟨hlast, -, hover⟩ := winner?_run hread hbox calls
  have hdecided : (v.newGame.run calls).winner?.isSome = true := by rw [hwinner]; rfl
  exact ⟨hread, hbox, hwinner, (hlast .white).mp hwinner, (hover hdecided none).2 1⟩

end Game

end FairyChess
