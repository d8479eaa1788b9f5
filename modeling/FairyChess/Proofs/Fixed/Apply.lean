import FairyChess.Fixed.Apply
import FairyChess.Proofs.Fixed.Move
import FairyChess.Proofs.Move.Footprint
import Mathlib

/-!
Making moves in numbers of 32 bits. Where the pieces lie in a region to compute in and those that a move takes to
other squares have a turn to spare, every build makes the move that the rules make.
-/
namespace FairyChess

/-- The pieces that the move takes to other squares can be counted a turn more. -/
def Position.CanCount (p : Position) (move : Move) : Prop :=
  ∀ v r, move.relocates v = true → p.piece? v = some r → r.turns + 1 < 4294967296

namespace Move

variable {move : Move} {id : PieceId}

end Move

namespace Bounds.Computes

variable {z : Bounds} {direction : ℤ}

/-- What is computed for a direction can be computed for any that is not steeper. -/
theorem of_abs_le (h : z.Computes direction) {other : ℤ} (hother : |other| ≤ max 1 |direction|) :
    z.Computes other := by
  have hfactor : max 1 |other| ≤ max 1 |direction| := max_le (le_max_left ..) hother
  have hpos : 0 ≤ max 1 |other| := (zero_le_one' ℤ).trans (le_max_left ..)
  have hspan {n : ℤ} (hn : n * max 1 |direction| < 2147483648) : n * max 1 |other| < 2147483648 := by
    rcases le_total n 0 with hneg | hnonneg
    · have hle : n * max 1 |other| ≤ 0 := mul_nonpos_of_nonpos_of_nonneg hneg hpos
      omega
    · exact (mul_le_mul_of_nonneg_left hfactor hnonneg).trans_lt hn
  exact ⟨h.left, h.right, h.bottom, h.top, hspan h.across, hspan h.along⟩

end Bounds.Computes

namespace Piece.LiesIn

variable {q : Piece} {z : Bounds}

theorem relocated (h : q.LiesIn z) {r : Piece} (hsquare : r.square ∈ z) (hbounds : r.bounds = q.bounds)
    (hdirection : |r.direction| ≤ max 1 |q.direction|) : r.LiesIn z where
  square := hsquare
  board := hbounds ▸ h.board
  computes := h.computes.of_abs_le hdirection

end Piece.LiesIn

theorem Piece.abs_direction_promoted_le (choice : Option Kind) (q : Piece) :
    |(q.promoted choice).direction| ≤ max 1 |q.direction| := by
  rcases q.promoted_cases choice with h | ⟨t, h⟩ <;> rw [h]
  · exact le_max_right ..
  · change |q.side.direction| ≤ _
    cases q.side <;> exact le_max_left ..

theorem Move.abs_direction_effect_le (move : Move) (choice : Option Kind) (id : PieceId) (q : Piece) :
    |(move.effect choice id q).direction| ≤ max 1 |q.direction| := by
  unfold Move.effect
  split
  · have hle := (move.displace id q).abs_direction_promoted_le choice
    rwa [Move.direction_displace] at hle
  · rw [Move.direction_displace]
    exact le_max_right ..

/-- A legal move leaves the pieces that stand in their region. -/
theorem Position.LiesIn.after {p : Position} {z : Bounds} (h : p.LiesIn z) (hp : p.WellFormed) {move : Move}
    {id : PieceId} {target : Square} (hlegal : p.move? id target = some move) (choice : Option Kind) :
    (p.after move choice).LiesIn z := by
  have hfits : p.Fits move := hp.fits (.legal hlegal)
  obtain ⟨mover, hmover, hmove⟩ := of_move? hlegal
  obtain ⟨hid, -, -⟩ := ends_of_moveOf? hmove
  intro v r' hr' hstands'
  rw [piece?_after] at hr'
  obtain ⟨r, hr, rfl⟩ := Option.map_eq_some_iff.mp hr'
  have hboard (hstands : r.isCaptured = false) {s : Square} (hs : s ∈ p.bounds) : s ∈ z := by
    rw [← hp.bounds hr] at hs
    exact (h v r hr hstands).board s hs
  have hlies (hstands : r.isCaptured = false) (hsquare : (move.effect choice v r).square ∈ z) :
      (move.effect choice v r).LiesIn z :=
    (h v r hr hstands).relocated hsquare (move.bounds_effect choice v r)
      (move.abs_direction_effect_le choice v r)
  rcases effect_stands move choice hstands' with
    ⟨rfl, hsquare⟩ | ⟨rookFrom, rookTo, hspecial, hsquare⟩ | ⟨-, hsame⟩
  · rw [hid, hmover] at hr
    have hstands : r.isCaptured = false := Option.some.inj hr ▸ (stands_of_moveOf? hmove).1
    exact hlies hstands (hsquare ▸ hboard hstands hfits.target_mem)
  · have hrook : move.rook? = some v := by rw [Move.rook?, hspecial]
    obtain ⟨rook, hpiece, hstands⟩ := stands_of_rook? hmove hrook
    rw [← Option.some.inj (hr.symm.trans hpiece)] at hstands
    exact hlies hstands (hsquare ▸ hboard hstands (hfits.castle hspecial).2.1)
  · rw [hsame] at hstands' ⊢
    exact h v r hr hstands'

namespace Position

variable {p : Position} {id : PieceId}

theorem modify_congr {f g : Piece → Piece} (h : ∀ q, p.piece? id = some q → f q = g q) :
    p.modify id f = p.modify id g := by
  refine ext_piece? (by simp) (fun other => ?_) (by simp)
  rw [piece?_modify, piece?_modify]
  refine Option.map_congr fun q hq => ?_
  split
  · next hother => exact h q (hother ▸ hq)
  · rfl

theorem modify_of_none (h : p.piece? id = none) (f : Piece → Piece) : p.modify id f = p := by
  refine ext_piece? (by simp) (fun other => ?_) (by simp)
  by_cases hother : other = id
  · rw [hother, piece?_modify_self, h, Option.map_none]
  · exact p.piece?_modify_of_ne hother f

end Position

namespace Fixed

variable {m : Type → Type} [Build m] [LawfulMonad m] {p : Position} {z : Bounds} {move : Move}

section Pieces

variable {q : Piece}

/-- A piece is changed as it is computed for the one that is there. -/
theorem modify_eq {id : PieceId} {f : Piece → m Piece} {g : Piece → Piece}
    (h : ∀ q, p.piece? id = some q → f q = pure (g q)) :
    (modify p id f : m Position) = pure (p.modify id g) := by
  unfold modify
  cases hq : p.piece? id with
  | none => rw [Position.modify_of_none hq]
  | some q =>
    dsimp only
    rw [h q hq, pure_bind, Position.restore]
    refine congrArg pure (Position.modify_congr fun r hr => ?_)
    rw [Option.some.inj (hq.symm.trans hr)]

theorem doubleStep_eq (halong : InRange (move.target.rank - move.origin.rank))
    (hahead : InRange ((move.target.rank - move.origin.rank) * q.direction)) :
    (doubleStep move q : m Bool) =
      pure (q.behavior.pawnLike && (move.target.rank - move.origin.rank) * q.direction == 2) := by
  rw [doubleStep, word_of_inRange halong, pure_bind, word_of_inRange hahead, pure_bind]
  cases q.behavior.pawnLike <;> rfl

theorem advancePiece_eq (hturns : q.turns + 1 < 4294967296)
    (halong : InRange (move.target.rank - move.origin.rank))
    (hahead : InRange ((move.target.rank - move.origin.rank) * q.direction)) :
    (advancePiece move q : m Piece) = pure (q.advance move) := by
  rw [advancePiece, count_of_lt hturns, pure_bind, doubleStep_eq halong hahead, pure_bind, Piece.advance]

theorem castlePiece_eq (s : Square) (hturns : q.turns + 1 < 4294967296) :
    (castlePiece s q : m Piece) = pure (q.castleTo s) := by
  rw [castlePiece, count_of_lt hturns, pure_bind, Piece.castleTo]

/-- The last rank of a board can be computed where there is a square on it. -/
theorem inRange_top (h : q.LiesIn z) (hhome : q.square ∈ q.bounds) : InRange (q.bounds.top - 1) := by
  obtain ⟨hfile, hbottom, htop⟩ := hhome
  have hmem : (⟨q.square.file, q.bounds.top - 1⟩ : Square) ∈ q.bounds := by
    refine ⟨hfile, ?_, ?_⟩ <;> dsimp only <;> omega
  exact (h.computes.held (h.board _ hmem)).rank

theorem onFarRank_eq (htop : InRange (q.bounds.top - 1)) :
    (onFarRank q : m Bool) = pure q.onFarRank := by
  rw [onFarRank, word_of_inRange htop, pure_bind, Piece.onFarRank]
  cases q.isCaptured with
  | true => rfl
  | false => exact (apply_ite pure ..).symm

theorem promotion?_eq (htop : InRange (q.bounds.top - 1)) (choice : Option Kind) :
    (promotion? q choice : m (Option Kind)) = pure (q.promotion? choice) := by
  rw [promotion?, onFarRank_eq htop, pure_andM_pure, pure_bind, Piece.promotion?, Piece.promotes]
  exact (apply_ite pure ..).symm

end Pieces

section Moves

/-- What a move makes of its mover and of a castling rook is computed from the pieces before it. -/
theorem advance_eq (hcounts : p.CanCount move) (hrook : move.rook? ≠ some move.mover)
    (hahead : ∀ r, p.piece? move.mover = some r → InRange (move.target.rank - move.origin.rank) ∧
      InRange ((move.target.rank - move.origin.rank) * r.direction)) :
    (advance p move : m Position) = pure (p.advance move) := by
  have hcaptured {v : PieceId} {q : Piece} (hq : (p.captureAll move.captured).piece? v = some q) :
      ∃ r, p.piece? v = some r ∧ q.turns = r.turns ∧ q.direction = r.direction := by
    rw [Position.piece?_captureAll] at hq
    obtain ⟨r, hr, rfl⟩ := Option.map_eq_some_iff.mp hq
    refine ⟨r, hr, ?_⟩
    split <;> exact ⟨rfl, rfl⟩
  have hmoved {c : Position} (hc : c.piece? move.mover = (p.captureAll move.captured).piece? move.mover) :
      (modify c move.mover (advancePiece move) : m Position) =
        pure (c.modify move.mover (Piece.advance move)) := by
    refine modify_eq fun q hq => ?_
    rw [hc] at hq
    obtain ⟨r, hr, hturns, hdirection⟩ := hcaptured hq
    obtain ⟨halong, hahead⟩ := hahead r hr
    have hcount := hcounts move.mover r (by simp [Move.relocates]) hr
    exact advancePiece_eq (hturns ▸ hcount) halong (hdirection ▸ hahead)
  unfold advance Position.advance castleRook
  cases hspecial : move.special with
  | normal => simp only [pure_bind, hmoved rfl]
  | enPassant => simp only [pure_bind, hmoved rfl]
  | castle rook rookFrom rookTo =>
    have hne : move.mover ≠ rook := by
      rintro rfl
      exact hrook (by rw [Move.rook?, hspecial])
    have hcastled : (modify (p.captureAll move.captured) rook (castlePiece rookTo) : m Position) =
        pure ((p.captureAll move.captured).modify rook (Piece.castleTo rookTo)) := by
      refine modify_eq fun q hq => ?_
      obtain ⟨r, hr, hturns, -⟩ := hcaptured hq
      have hcount := hcounts rook r (by simp [Move.relocates, Move.rook?, hspecial]) hr
      exact castlePiece_eq rookTo (hturns ▸ hcount)
    have hstays := (p.captureAll move.captured).piece?_modify_of_ne hne (Piece.castleTo rookTo)
    simp only [hcastled, pure_bind, hmoved hstays]

/-- A legal move of a well-formed position is made in every build as it is by the rules. -/
theorem make_eq (h : p.LiesIn z) (hp : p.WellFormed) {id : PieceId} {target : Square}
    (hlegal : p.move? id target = some move) (hcounts : p.CanCount move) (choice : Option Kind) :
    (make p move choice : m Made) = pure (p.make move choice) := by
  have hfits : p.Fits move := hp.fits (.legal hlegal)
  obtain ⟨mover, hmover, hmove⟩ := Position.of_move? hlegal
  obtain ⟨hid, horigin, htarget⟩ := Position.ends_of_moveOf? hmove
  obtain ⟨hstands, hboard⟩ := Position.stands_of_moveOf? hmove
  obtain ⟨hhome, hlies, hcomputes⟩ := h id mover hmover hstands
  have hmem : move.target ∈ z := hlies _ (htarget ▸ hboard)
  have hadvance : (advance p move : m Position) = pure (p.advance move) := by
    refine advance_eq hcounts hfits.rook?_ne_mover fun r hr => ?_
    rw [hid, hmover] at hr
    obtain rfl := Option.some.inj hr
    rw [horigin]
    exact ⟨(hcomputes.near hhome hmem).along, hcomputes.ahead hhome hmem⟩
  have hmoved : (p.advance move).piece? move.mover = some (move.displace move.mover mover) := by
    rw [p.piece?_advance, hid, hmover, Option.map_some]
  have hsquare : (move.displace move.mover mover).square = move.target := by
    simp [Move.displace, Piece.advance]
  have hdisplaced : (move.displace move.mover mover).LiesIn z := by
    refine (h id mover hmover hstands).relocated (hsquare ▸ hmem) (Move.bounds_displace ..) ?_
    rw [Move.direction_displace]
    exact le_max_right ..
  have htop : InRange ((move.displace move.mover mover).bounds.top - 1) := by
    refine inRange_top hdisplaced ?_
    rw [hsquare, Move.bounds_displace]
    exact htarget ▸ hboard
  rw [make, hadvance, pure_bind]
  dsimp only
  have hpromotes : (if ((move.displace move.mover mover).promotion? choice).isSome then
      some (move.displace move.mover mover) else none) =
      (some (move.displace move.mover mover)).filter Piece.promotes := by
    rw [Option.filter_some, Piece.promotion?]
    split <;> rfl
  rw [hmoved, promotionOf?, promotion?_eq htop, pure_bind, hpromotes]
  cases hpromotion : (move.displace move.mover mover).promotion? choice <;>
    simp only [Position.make, Position.after, Position.record, Position.promotion?, Position.promoting?, hmoved,
      Option.bind_some, hpromotion]

end Moves

section Full

end Full

end Fixed

end FairyChess
