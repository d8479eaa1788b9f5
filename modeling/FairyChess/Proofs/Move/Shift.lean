import FairyChess.Proofs.Position.Shift

/-!
Moves on shifted boards. A legal move has the same effect on a shifted board: the position after it is
shifted, and so are its record and what is announced, with the same captures and the same promotion.
-/
namespace FairyChess

variable (v : Offset)

def Record.shift (r : Record) : Record :=
  { r with
    move := r.move.shift v
    saved := r.saved.map (Slot.shift v) }

def Event.shift : Event → Event
  | .before m => .before (m.shift v)
  | .promotion mover => .promotion (mover.shift v)
  | .after record mover => .after (record.shift v) (mover.shift v)
  | .turn side => .turn side
  | .threatened king attackers => .threatened (king.shift v) attackers

def Made.shift (made : Made) : Made :=
  ⟨made.position.shift v, made.record.shift v, made.events.map (Event.shift v)⟩

namespace Piece

variable {v} {q : Piece}

theorem capture_shift (q : Piece) : (q.shift v).capture = q.capture.shift v := by
  simp [shift, capture, relocate, isCaptured]

theorem castleTo_shift {s : Square} (hs : s ≠ .box) (q : Piece) :
    (q.shift v).castleTo (s.shift v) = (q.castleTo s).shift v := by
  simp [shift, castleTo, relocate, isCaptured, hs]

/-- A double step goes two ranks wherever the board is. -/
theorem advance_shift {m : Move} (htarget : m.target ≠ .box) (q : Piece) :
    (q.shift v).advance (m.shift v) = (q.advance m).shift v := by
  have hranks : (m.shift v).target.rank - (m.shift v).origin.rank = m.target.rank - m.origin.rank := by
    simp only [Move.shift, Square.shift]
    ring
  simp only [advance, hranks]
  simp [shift, Move.shift, isCaptured, htarget]

theorem promotes_shift (hcaptured : (q.shift v).isCaptured = q.isCaptured) :
    (q.shift v).promotes = q.promotes := by
  have hfar : (q.shift v).onFarRank = q.onFarRank := by
    unfold onFarRank
    rw [hcaptured]
    cases hstands : q.isCaptured with
    | true => rfl
    | false =>
      have htop : (q.square.rank + v.ranks == q.bounds.top + v.ranks - 1) =
          (q.square.rank == q.bounds.top - 1) := by
        rw [Bool.eq_iff_iff, beq_iff_eq, beq_iff_eq]
        omega
      have hbottom : (q.square.rank + v.ranks == q.bounds.bottom + v.ranks) =
          (q.square.rank == q.bounds.bottom) := by
        rw [Bool.eq_iff_iff, beq_iff_eq, beq_iff_eq]
        omega
      simp only [shift, hstands, Square.shift, Bounds.shift, Bool.false_eq_true, if_false, htop, hbottom]
  rw [promotes, hfar, promotes]
  rfl

theorem promotion?_shift (hcaptured : (q.shift v).isCaptured = q.isCaptured) (choice : Option Kind) :
    (q.shift v).promotion? choice = q.promotion? choice := by
  rw [promotion?, promotes_shift hcaptured, promotion?]

theorem promoted_shift (hcaptured : (q.shift v).isCaptured = q.isCaptured) (choice : Option Kind) :
    (q.shift v).promoted choice = (q.promoted choice).shift v := by
  unfold promoted
  rw [promotion?_shift hcaptured]
  cases q.promotion? choice with
  | none => rfl
  | some kind =>
    simp only [promote?]
    cases kind.template? with
    | none => rfl
    | some t => simp [shift, Template.spawn, isCaptured, side]

end Piece

namespace Position

variable {v} {p : Position} {m : Move}

namespace Shifts

variable (h : p.Shifts v)
include h

theorem lands {id : PieceId} {target : Square} (hm : p.move? id target = some m) : p.Lands m := by
  obtain ⟨q, hq, hmove⟩ := of_move? hm
  obtain ⟨-, -, htarget⟩ := ends_of_moveOf? hmove
  rcases of_moveOf? hmove with hplain | hcastle
  · obtain ⟨-, hmem, -⟩ := of_plainMove? hplain
    refine ⟨htarget ▸ h.bounds hq ▸ hmem, fun hspecial => ?_⟩
    rcases special_of_plainMove? hplain with hnormal | henPassant <;> simp_all
  · obtain ⟨⟨-, -, -, hmem, -⟩, rook, hrook, -, rfl⟩ := of_castle? hcastle
    refine ⟨h.bounds hq ▸ hmem, fun hspecial => ?_⟩
    obtain ⟨-, -, rfl⟩ := Special.castle.inj hspecial
    exact h.bounds hq ▸ (of_firstAlong hrook).1

theorem lands_of_mem_moves {side : Side} (hm : m ∈ p.moves side) : p.Lands m :=
  h.lands (mem_moves.mp hm).2

theorem displace_shift (hm : p.Lands m) (id : PieceId) (q : Piece) :
    (m.shift v).displace id (q.shift v) = (m.displace id q).shift v := by
  have htarget : m.target ≠ .box := (h.ne_box hm.target_mem).1
  have hcapture : (if id ∈ m.captured then (q.shift v).capture else q.shift v) =
      (if id ∈ m.captured then q.capture else q).shift v := by
    split
    · exact q.capture_shift
    · rfl
  have hmover (r : Piece) : (if id = m.mover then (r.shift v).advance (m.shift v) else r.shift v) =
      (if id = m.mover then r.advance m else r).shift v := by
    split
    · exact r.advance_shift htarget
    · rfl
  unfold Move.displace
  cases hspecial : m.special with
  | normal =>
    have himage : (m.shift v).special = .normal := congrArg (Special.shift v) hspecial
    simp only [himage]
    rw [← hmover, ← hcapture]
    rfl
  | enPassant =>
    have himage : (m.shift v).special = .enPassant := congrArg (Special.shift v) hspecial
    simp only [himage]
    rw [← hmover, ← hcapture]
    rfl
  | castle rook rookFrom rookTo =>
    have himage : (m.shift v).special = .castle rook (rookFrom.shift v) (rookTo.shift v) :=
      congrArg (Special.shift v) hspecial
    have hrook (r : Piece) : (if id = rook then (r.shift v).castleTo (rookTo.shift v) else r.shift v) =
        (if id = rook then r.castleTo rookTo else r).shift v := by
      split
      · exact r.castleTo_shift (h.ne_box (hm.rook_mem hspecial)).1
      · rfl
    simp only [himage]
    rw [← hmover, ← hrook, ← hcapture]
    rfl

/-- The mover stands on its target when its promotion is due. -/
theorem isCaptured_displace_mover (hm : p.Lands m) (q : Piece) :
    ((m.displace m.mover q).shift v).isCaptured = (m.displace m.mover q).isCaptured := by
  have hsquare : (m.displace m.mover q).square = m.target := by simp [Move.displace, Piece.advance]
  obtain ⟨htarget, himage⟩ := h.ne_box hm.target_mem
  simp [Piece.shift, Piece.isCaptured, hsquare, htarget, himage]

theorem effect_shift (hm : p.Lands m) (choice : Option Kind) (id : PieceId) (q : Piece) :
    (m.shift v).effect choice id (q.shift v) = (m.effect choice id q).shift v := by
  have hmover : id = (m.shift v).mover ↔ id = m.mover := Iff.rfl
  unfold Move.effect
  simp only [hmover, h.displace_shift hm]
  split
  · next hid =>
    subst hid
    exact Piece.promoted_shift (h.isCaptured_displace_mover hm q) choice
  · rfl

theorem advance_shift (hm : p.Lands m) : (p.advance m).shift v = (p.shift v).advance (m.shift v) := by
  refine ext_piece? (by simp) (fun id => ?_) rfl
  rw [piece?_shift, piece?_advance, piece?_advance, piece?_shift, Option.map_map, Option.map_map]
  congr 1
  funext q
  exact (h.displace_shift hm id q).symm

theorem after_shift (hm : p.Lands m) (choice : Option Kind) :
    (p.after m choice).shift v = (p.shift v).after (m.shift v) choice := by
  refine ext_piece? (by simp) (fun id => ?_) ?_
  · rw [piece?_shift, piece?_after, piece?_after, piece?_shift, Option.map_map, Option.map_map]
    congr 1
    funext q
    exact (h.effect_shift hm choice id q).symm
  · rw [lastMoved_shift, lastMoved_after, lastMoved_after]
    rfl

/-- The position after a move can be shifted too. -/
theorem after (hm : p.Lands m) (choice : Option Kind) : (p.after m choice).Shifts v where
  bounds {id q'} hq' := by
    rw [piece?_after] at hq'
    obtain ⟨q, hq, rfl⟩ := Option.map_eq_some_iff.mp hq'
    rw [Move.bounds_effect, bounds_after, h.bounds hq]
  onBoard {id q'} hq' hstands := by
    rw [bounds_after]
    exact hm.onBoard_after h.onBoard hq' hstands
  box := by rw [bounds_after]; exact h.box
  box_shift := by rw [bounds_after]; exact h.box_shift

omit h in
theorem captureAll_shift (ids : List PieceId) :
    (p.shift v).captureAll ids = (p.captureAll ids).shift v := by
  induction ids generalizing p with
  | nil => rfl
  | cons id ids ih =>
    have hcapture : (p.shift v).modify id Piece.capture = (p.modify id Piece.capture).shift v := by
      rw [← v.symmetry_position]
      exact (v.symmetry.position_modify v.symmetry.piece_capture).symm
    exact (congrArg (captureAll · ids) hcapture).trans ih

/-- The mover stands where it did, but for the shift, when its promotion is due. -/
theorem piece?_mover_shift (hm : p.Lands m) :
    ((p.shift v).advance (m.shift v)).piece? m.mover =
      ((p.advance m).piece? m.mover).map (Piece.shift v) := by
  rw [← h.advance_shift hm, piece?_shift]

theorem isCaptured_mover (hm : p.Lands m) {q : Piece} (hq : (p.advance m).piece? m.mover = some q) :
    (q.shift v).isCaptured = q.isCaptured := by
  rw [piece?_advance] at hq
  obtain ⟨r, -, rfl⟩ := Option.map_eq_some_iff.mp hq
  exact h.isCaptured_displace_mover hm r

theorem promotion?_shift (hm : p.Lands m) (choice : Option Kind) :
    (p.shift v).promotion? (m.shift v) choice = p.promotion? m choice := by
  have hmover : (m.shift v).mover = m.mover := rfl
  rw [promotion?, hmover, h.piece?_mover_shift hm, promotion?]
  cases hq : (p.advance m).piece? m.mover with
  | none => rfl
  | some q => exact Piece.promotion?_shift (h.isCaptured_mover hm hq) choice

theorem promoting?_shift (hm : p.Lands m) :
    (p.shift v).promoting? (m.shift v) = (p.promoting? m).map (Piece.shift v) := by
  have hmover : (m.shift v).mover = m.mover := rfl
  rw [promoting?, hmover, h.piece?_mover_shift hm, promoting?]
  cases hq : (p.advance m).piece? m.mover with
  | none => rfl
  | some q =>
    have hpromotes := Piece.promotes_shift (h.isCaptured_mover hm hq)
    rw [Option.map_some, Option.filter_some, Option.filter_some, hpromotes]
    split <;> rfl

theorem record_shift (hm : p.Lands m) (choice : Option Kind) :
    (p.shift v).record (m.shift v) choice = (p.record m choice).shift v := by
  have hrook : (m.shift v).rook? = m.rook? := by
    cases hspecial : m.special <;> simp [Move.rook?, Move.shift, Special.shift, hspecial]
  have hslots (p : Position) : (p.shift v).slot? = Option.map (Slot.shift v) ∘ p.slot? :=
    funext fun id => slot?_shift id
  have hsaved : ((p.shift v).record (m.shift v) choice).saved =
      (p.record m choice).saved.map (Slot.shift v) := by
    simp only [record, hrook]
    rw [hslots, captureAll_shift, hslots, List.map_append, List.map_filterMap, List.map_filterMap]
    rfl
  have hpromotion : ((p.shift v).record (m.shift v) choice).promotion = (p.record m choice).promotion :=
    h.promotion?_shift hm choice
  rw [Record.shift, ← hsaved, ← hpromotion]
  rfl

/-- A move is made as on the board before the shift, with the same promotion. -/
theorem make_shift (hm : p.Lands m) (choice : Option Kind) :
    (p.shift v).make (m.shift v) choice = (p.make m choice).shift v := by
  have hmover : (m.shift v).mover = m.mover := rfl
  rw [make, ← h.after_shift hm, h.record_shift hm, h.promoting?_shift hm, hmover, piece?_shift, make]
  cases p.promoting? m <;> cases (p.after m choice).piece? m.mover <;> rfl

end Shifts

end Position

end FairyChess
