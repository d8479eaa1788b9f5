import FairyChess.Proofs.Game.Turns
import FairyChess.Proofs.Move.Captures
import FairyChess.Proofs.Position.Material
import Mathlib

/-!
En passant in games. The flag of a piece outlives the move that set it, but only the piece that moved last
is captured en passant, and the last record says how it moved.
-/
namespace FairyChess

theorem Kind.isSome_template?_of_mem_promotions {kind : Kind} (h : kind ∈ promotions) :
    kind.template?.isSome = true := by
  simp only [promotions, List.mem_cons, List.not_mem_nil, or_false] at h
  rcases h with rfl | rfl | rfl | rfl | rfl <;> rfl

/-- A piece that has the flag after its move has not promoted. -/
theorem Piece.promotion?_of_enPassant {q : Piece} {choice : Option Kind}
    (h : (q.promoted choice).enPassant = true) : q.promotion? choice = none := by
  cases hpromotion : q.promotion? choice with
  | none => rfl
  | some kind =>
    have hkind : kind.template?.isSome = true :=
      Kind.isSome_template?_of_mem_promotions (q.promotion?_mem_promotions choice hpromotion)
    obtain ⟨t, ht⟩ := Option.isSome_iff_exists.mp hkind
    simp [promoted, hpromotion, promote?, ht, Template.spawn] at h

theorem Move.enPassant_displace_mover (m : Move) (q : Piece) :
    (m.displace m.mover q).enPassant =
      (q.behavior.pawnLike && (m.target.rank - m.origin.rank) * q.direction == 2) := by
  unfold displace
  cases m.special <;> simp only [if_true, Piece.advance] <;> split_ifs <;> rfl

namespace Position

variable {p : Position}

theorem Regular.direction_eq (hp : p.Regular) {id : PieceId} {q : Piece} (hq : p.piece? id = some q) :
    q.direction = id.side.direction := by
  rw [← hp.filed hq]
  rcases hp.upright hq with h | h <;> rw [Piece.side, h] <;> rfl

/-- The step of an en passant capture is one rank forward. -/
theorem rank_of_enPassantStep {frame : Frame} {a b : Square}
    (hupright : frame.direction = 1 ∨ frame.direction = -1)
    (h : enPassantStep.allows frame a b = true) : b.rank = a.rank + frame.direction := by
  simp only [enPassantStep, Step.allows, Shape.admits, Heading.admits, Distance.admits, Span.admits,
    Bool.and_eq_true, Bool.or_eq_true, beq_iff_eq, decide_eq_true_eq] at h
  obtain ⟨-, ⟨⟨hdiagonal, hforward⟩, -⟩, hlength⟩ := h
  have hrank : (b.rank - a.rank).natAbs = 1 := by omega
  have hahead : 0 < (b.rank - a.rank) * frame.direction := by simpa using hforward
  rcases hupright with hdirection | hdirection <;> rw [hdirection] at hahead ⊢ <;> omega

end Position

/-- The record is of the move that led to the position. It tells where the last moved piece stands, and if
this has the flag, that it came there by a double step and without promoting. -/
structure Record.Explains (r : Record) (p : Position) : Prop where
  lastMoved : p.lastMoved = some r.move.mover
  square {q : Piece} (hq : p.piece? r.move.mover = some q) : q.square = r.move.target
  doubleStep {q : Piece} (hq : p.piece? r.move.mover = some q) (hflag : q.enPassant = true) :
    r.promotion = none ∧ (r.move.target.rank - r.move.origin.rank) * q.direction = 2

namespace Position

variable {p : Position}

theorem Regular.explains_record (hp : p.Regular) (m : Move) (choice : Option Kind) :
    (p.record m choice).Explains (p.after m choice) := by
  have hmover {q' : Piece} (hq' : (p.after m choice).piece? m.mover = some q') :
      ∃ q, p.piece? m.mover = some q ∧ m.effect choice m.mover q = q' := by
    rw [piece?_after] at hq'
    exact Option.map_eq_some_iff.mp hq'
  refine ⟨p.lastMoved_after m choice, fun hq' => ?_, fun hq' hflag => ?_⟩
  · obtain ⟨q, -, rfl⟩ := hmover hq'
    have hsquare : (m.displace m.mover q).square = m.target := by simp [Move.displace, Piece.advance]
    rw [Move.effect, if_pos rfl, Piece.square_promoted]
    exact hsquare
  · obtain ⟨q, hq, rfl⟩ := hmover hq'
    rw [Move.direction_effect m choice _ (hp.upright hq)]
    rw [Move.effect, if_pos rfl] at hflag
    have hpromotion : (m.displace m.mover q).promotion? choice = none :=
      Piece.promotion?_of_enPassant hflag
    have hdisplaced : (m.displace m.mover q).enPassant = true := by
      simpa [Piece.promoted, hpromotion] using hflag
    rw [Move.enPassant_displace_mover, Bool.and_eq_true, beq_iff_eq] at hdisplaced
    exact ⟨(p.promotion?_eq hq choice).trans hpromotion, hdisplaced.2⟩

/-- What is captured en passant has moved once, last of all and with the flag, and stands one rank behind
the target as it faces. -/
theorem Regular.of_enPassant (hp : p.Regular) {id victim : PieceId} {target : Square} {m : Move}
    (h : p.move? id target = some m) (hspecial : m.special = .enPassant) (hvictim : victim ∈ m.captured) :
    ∃ v, p.piece? victim = some v ∧ p.lastMoved = some victim ∧ v.turns = 1 ∧ v.enPassant = true ∧
      target = ⟨v.square.file, v.square.rank - v.direction⟩ := by
  obtain ⟨q, hq, hmove⟩ := of_move? h
  have hplain : p.plainMove? ⟨id, q⟩ target = some m := plainMove?_of_captures hmove hvictim
  obtain ⟨-, -, henPassant⟩ := (plainMove?_cases hplain).resolve_left fun h => h.1 hspecial
  obtain ⟨-, slot, hslot, ⟨hside, -, hflag, hturns, hlast, -, hstep⟩, rfl⟩ := of_enPassant? henPassant
  obtain rfl := List.mem_singleton.mp hvictim
  obtain ⟨-, hpiece, hsquare, -⟩ := p.of_occupant? hslot
  have hopposite : slot.piece.direction = -q.direction := by
    rw [hp.direction_eq hpiece, hp.direction_eq hq]
    revert hside
    cases slot.id.side <;> cases id.side <;> simp [Side.direction]
  have hrank : target.rank = q.square.rank + q.direction := rank_of_enPassantStep (hp.upright hq) hstep
  refine ⟨slot.piece, hpiece, hlast, hturns, hflag, ?_⟩
  rw [hsquare, hopposite, sub_neg_eq_add, ← hrank]

end Position

namespace Game

variable {g : Game} {m : Move}

/-- Nothing has moved yet, or the last record explains the position. -/
def ExplainsLast (g : Game) : Prop :=
  (g.history = [] ∧ g.position.lastMoved = none) ∨
    ∃ r rest, g.history = r :: rest ∧ r.Explains g.position

theorem explainsLast_run {start : Game} (hhistory : start.history = [])
    (hlast : start.position.lastMoved = none) (hregular : start.position.Regular) (calls : List Call) :
    (start.run calls).ExplainsLast := by
  refine run_induction_of_regular hhistory hregular (.inl ⟨hhistory, hlast⟩) ?_ calls
  intro g m answer hp _ _ _
  exact .inr ⟨_, g.history, rfl, hp.explains_record m answer⟩

/-- Nothing has moved in a new game. -/
theorem lastMoved_newGame {source : String} {v : Variant} (h : Variant.read source = .ok v) :
    v.newGame.position.lastMoved = none := by
  obtain ⟨s, text, -, hposition⟩ := Variant.of_read h
  obtain ⟨qs, hqs, -⟩ := Setup.of_readPlacement hposition
  change v.position.lastMoved = none
  simp [hqs]

/--
However a game is played and taken back, en passant only answers a double step: the piece it captures
made the last move, two ranks forward and without promoting, and no other move of the history was its own
or castled it as the rook. The capture is made from behind it.
-/
theorem enPassant_run {source : String} {v : Variant} (h : Variant.read source = .ok v)
    (calls : List Call) {id victim : PieceId} {target : Square} {m : Move}
    (hm : (v.newGame.run calls).position.move? id target = some m) (hspecial : m.special = .enPassant)
    (hvictim : victim ∈ m.captured) :
    ∃ r rest q, (v.newGame.run calls).history = r :: rest ∧
      (v.newGame.run calls).position.piece? victim = some q ∧
      q.direction = victim.side.direction ∧
      r.move.mover = victim ∧ r.move.target = q.square ∧ r.promotion = none ∧
      r.move.target.rank = r.move.origin.rank + 2 * q.direction ∧
      (∀ r' ∈ rest, r'.move.mover ≠ victim ∧ r'.move.rook? ≠ some victim) ∧
      target = ⟨q.square.file, q.square.rank - q.direction⟩ := by
  obtain ⟨-, hregular⟩ := Variant.regular_of_read h
  have hcounts : (v.newGame.run calls).CountsTurns := countsTurns_run h calls
  have hexplains : (v.newGame.run calls).ExplainsLast :=
    explainsLast_run rfl (lastMoved_newGame h) hregular calls
  have hp : (v.newGame.run calls).position.Regular := run_regular rfl hregular calls
  generalize v.newGame.run calls = g at *
  obtain ⟨q, hq, hlast, hturns, hflag, htarget⟩ := hp.of_enPassant hm hspecial hvictim
  rcases hexplains with ⟨-, hnone⟩ | ⟨r, rest, hhistory, hr⟩
  · rw [hnone] at hlast
    cases hlast
  obtain rfl : r.move.mover = victim := Option.some.inj (hr.lastMoved.symm.trans hlast)
  obtain ⟨hpromotion, hdouble⟩ := hr.doubleStep hq hflag
  have hupright : q.direction = 1 ∨ q.direction = -1 := hp.upright hq
  have hrank : r.move.target.rank = r.move.origin.rank + 2 * q.direction := by
    rcases hupright with hdirection | hdirection <;> rw [hdirection] at hdouble ⊢ <;> omega
  have hrest : ∀ r' ∈ rest, r'.move.mover ≠ r.move.mover ∧ r'.move.rook? ≠ some r.move.mover := by
    -- The last record counts for the only turn, so none of the others does.
    have hcount := hcounts r.move.mover q hq
    have hself : r.move.relocates r.move.mover = true := by simp [Move.relocates]
    rw [hturns, hhistory, List.countP_cons, if_pos hself] at hcount
    have hzero : rest.countP (·.move.relocates r.move.mover) = 0 := by omega
    intro r' hr'
    rw [← Move.relocates_eq_false, Bool.eq_false_iff]
    exact List.countP_eq_zero.mp hzero r' hr'
  exact ⟨r, rest, q, hhistory, hq, hp.direction_eq hq, rfl, (hr.square hq).symm, hpromotion, hrank, hrest,
    htarget⟩

theorem enPassant_run_pawns :
    let board : Bounds := { left := 0, right := 2, bottom := 0, top := 4 }
    let pawn : Template := ⟨"Pawn", .pawn, 'P', 'p', 1, { pawnLike := true }, Kind.pawnGrammar⟩
    let v : Variant := {
      title := "Pawns"
      bounds := board
      templates := [pawn]
      position := [pawn.spawn ⟨1, 2⟩ .black board, pawn.spawn ⟨0, 0⟩ .white board].foldl
        Position.add { bounds := board } }
    let calls : List Call := [.play ⟨0, 0⟩ ⟨0, 1⟩ none, .undo, .play ⟨0, 0⟩ ⟨0, 2⟩ none]
    let m : Move := { mover := ⟨.black, 0⟩, origin := ⟨1, 2⟩, target := ⟨0, 1⟩,
                      captured := [⟨.white, 0⟩], special := .enPassant }
    Variant.read "Pawns\n2,4,0,0\n1\nPawn,P,p,1,o1>+, c1x>, oi2>+\n2/1p/2/P1" = .ok v ∧
      (v.newGame.run calls).position.move? ⟨.black, 0⟩ ⟨0, 1⟩ = some m ∧
      ∃ r, (v.newGame.run calls).history = [r] ∧ r.move.mover = ⟨.white, 0⟩ ∧ r.promotion = none ∧
        r.move.target.rank = r.move.origin.rank + 2 := by
  intro board pawn v calls m
  have hread :
      Variant.read "Pawns\n2,4,0,0\n1\nPawn,P,p,1,o1>+, c1x>, oi2>+\n2/1p/2/P1" = .ok v := rfl
  have hm : (v.newGame.run calls).position.move? ⟨.black, 0⟩ ⟨0, 1⟩ = some m := by cbv
  have hlength : (v.newGame.run calls).history.length = 1 := by cbv
  obtain ⟨r, rest, q, hhistory, -, hdirection, hmover, -, hpromotion, hrank, -⟩ :=
    enPassant_run hread calls hm rfl List.mem_cons_self
  have hrest : rest = [] := by simpa [hhistory] using hlength
  rw [hdirection] at hrank
  exact ⟨hread, hm, r, hrest ▸ hhistory, hmover, hpromotion, hrank⟩

end Game

end FairyChess
