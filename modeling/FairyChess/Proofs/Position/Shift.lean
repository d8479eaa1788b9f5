import FairyChess.Proofs.Move.Symmetry

/-!
Shifted boards. When a board and all that stands on it are shifted, the rules stay as they were: legal
moves are shifted along in their order, and threats, checks and lost material are the same.
-/
namespace FairyChess

/-- How far a board is shifted. -/
structure Offset where
  files : ℤ
  ranks : ℤ
  deriving DecidableEq, Repr

variable (v : Offset)

def Square.shift (s : Square) : Square :=
  ⟨s.file + v.files, s.rank + v.ranks⟩

def Bounds.shift (b : Bounds) : Bounds :=
  ⟨b.left + v.files, b.right + v.files, b.bottom + v.ranks, b.top + v.ranks⟩

/-- Captured pieces stay where they are put. -/
def Piece.shift (q : Piece) : Piece :=
  { q with
    square := if q.isCaptured then .box else q.square.shift v
    bounds := q.bounds.shift v }

def Slot.shift (s : Slot) : Slot :=
  { s with piece := s.piece.shift v }

def Position.shift (p : Position) : Position :=
  { p with
    bounds := p.bounds.shift v
    white := p.white.map (Piece.shift v)
    black := p.black.map (Piece.shift v) }

def Special.shift : Special → Special
  | .castle rook rookFrom rookTo => .castle rook (rookFrom.shift v) (rookTo.shift v)
  | other => other

def Move.shift (m : Move) : Move :=
  { m with
    origin := m.origin.shift v
    target := m.target.shift v
    special := m.special.shift v }

namespace Offset

/-- A shift as one of the symmetries of the rules. -/
def symmetry : Symmetry where
  files := v.files
  ranks := v.ranks

theorem symmetry_square : v.symmetry.square = Square.shift v := by
  funext s
  simp [Symmetry.square, Symmetry.sign, symmetry, Square.shift]

theorem symmetry_bounds : v.symmetry.bounds = Bounds.shift v := rfl

theorem symmetry_pieceId : v.symmetry.pieceId = id := rfl

theorem symmetry_piece : v.symmetry.piece = Piece.shift v := by
  funext q
  have hdirection : v.symmetry.sign * q.direction = q.direction := one_mul q.direction
  rw [Symmetry.piece, hdirection, symmetry_square, symmetry_bounds, Piece.shift]

theorem symmetry_slot : v.symmetry.slot = Slot.shift v := by
  funext s
  rw [Symmetry.slot, symmetry_piece, symmetry_pieceId]
  rfl

theorem symmetry_position : v.symmetry.position = Position.shift v := by
  funext p
  have hlast : p.lastMoved.map (id : PieceId → PieceId) = p.lastMoved := Option.map_id_apply
  rw [Symmetry.position, symmetry_piece, symmetry_pieceId, hlast]
  rfl

theorem symmetry_move : v.symmetry.move = Move.shift v := by
  funext m
  have hspecial : v.symmetry.special m.special = m.special.shift v := by
    cases m.special <;> simp only [Symmetry.special, Special.shift, symmetry_square, symmetry_pieceId, id_eq]
  rw [Symmetry.move, hspecial, symmetry_square, symmetry_pieceId, List.map_id, Move.shift]
  rfl

end Offset

namespace Position

variable {v} {p : Position}

@[simp] theorem bounds_shift : (p.shift v).bounds = p.bounds.shift v := rfl

@[simp] theorem lastMoved_shift : (p.shift v).lastMoved = p.lastMoved := rfl

theorem pieces_shift (side : Side) : (p.shift v).pieces side = (p.pieces side).map (Piece.shift v) := by
  cases side <;> rfl

theorem piece?_shift (id : PieceId) : (p.shift v).piece? id = (p.piece? id).map (Piece.shift v) := by
  rw [piece?, pieces_shift, List.getElem?_map, piece?]

theorem slot?_shift (id : PieceId) : (p.shift v).slot? id = (p.slot? id).map (Slot.shift v) := by
  rw [slot?, piece?_shift, slot?, Option.map_map, Option.map_map]
  rfl

theorem slots_shift (side : Side) : (p.shift v).slots side = (p.slots side).map (Slot.shift v) :=
  p.slots_eq_map piece?_shift side

/-- The pieces know the board and stand on it, and neither the board nor its image has the square of
captured pieces. -/
structure Shifts (v : Offset) (p : Position) : Prop where
  bounds {id : PieceId} {q : Piece} (hq : p.piece? id = some q) : q.bounds = p.bounds
  onBoard {id : PieceId} {q : Piece} (hq : p.piece? id = some q) (hstands : q.isCaptured = false) :
    q.square ∈ p.bounds
  box : .box ∉ p.bounds
  box_shift : .box ∉ p.bounds.shift v

namespace Shifts

variable (h : p.Shifts v)
include h

theorem carries : v.symmetry.Carries p where
  bounds := h.bounds
  onBoard := h.onBoard
  box := h.box
  box_image := h.box_shift
  upright := nofun
  distinct := nofun
  locust := nofun

theorem ne_box {s : Square} (hs : s ∈ p.bounds) : s ≠ .box ∧ s.shift v ≠ .box := by
  rw [← v.symmetry_square]
  exact h.carries.square_ne_box hs

theorem isCaptured_shift {id : PieceId} {q : Piece} (hq : p.piece? id = some q) :
    (q.shift v).isCaptured = q.isCaptured := by
  rw [← v.symmetry_piece]
  exact h.carries.isCaptured_piece hq

theorem isCaptured_shift_of_mem {side : Side} {q : Piece} (hq : q ∈ p.pieces side) :
    (q.shift v).isCaptured = q.isCaptured := by
  obtain ⟨i, hi⟩ := List.mem_iff_getElem?.mp hq
  have hpiece : p.piece? ⟨side, i⟩ = some q := hi
  exact h.isCaptured_shift hpiece

theorem alive_shift (side : Side) : (p.shift v).alive side = (p.alive side).map (Slot.shift v) := by
  rw [← v.symmetry_position, ← v.symmetry_slot]
  exact h.carries.alive_position side

theorem move?_shift (id : PieceId) (target : Square) :
    (p.shift v).move? id (target.shift v) = (p.move? id target).map (Move.shift v) := by
  rw [← v.symmetry_position, ← v.symmetry_square, ← v.symmetry_move]
  exact h.carries.move?_position id target

theorem movesOf_shift {mover : Slot} (hmover : p.piece? mover.id = some mover.piece) :
    (p.shift v).movesOf (mover.shift v) = (p.movesOf mover).map (Move.shift v) := by
  have hcaptured : (mover.shift v).piece.isCaptured = mover.piece.isCaptured := h.isCaptured_shift hmover
  have hsquares : (mover.shift v).piece.bounds.squares =
      mover.piece.bounds.squares.map (Square.shift v) := by
    rw [← v.symmetry_square]
    exact v.symmetry.squares_eq rfl mover.piece.bounds
  have hmove (target : Square) : (p.shift v).moveOf? (mover.shift v) (target.shift v) =
      (p.moveOf? mover target).map (Move.shift v) := by
    rw [← v.symmetry_position, ← v.symmetry_slot, ← v.symmetry_square, ← v.symmetry_move]
    exact h.carries.moveOf?_position hmover target
  rw [movesOf, hcaptured, hsquares, movesOf]
  split
  · rfl
  · rw [List.filterMap_map, List.map_filterMap]
    exact congrArg (List.filterMap · _) (funext hmove)

/-- The legal moves of a side are shifted in their order. -/
theorem moves_shift (side : Side) : (p.shift v).moves side = (p.moves side).map (Move.shift v) := by
  rw [moves, h.alive_shift, moves, List.map_flatMap, List.flatMap_map]
  refine List.flatMap_congr fun mover hmover => ?_
  exact h.movesOf_shift (p.mem_alive.mp hmover).2.1

theorem threats_shift (s : Square) (side : Side) :
    (p.shift v).threats (s.shift v) side = p.threats s side := by
  have hthreats := h.carries.threats_position s side
  rwa [v.symmetry_position, v.symmetry_square, v.symmetry_pieceId, List.map_id] at hthreats

omit h in
theorem kings_shift (side : Side) : (p.shift v).kings side = (p.kings side).map (Slot.shift v) := by
  rw [kings, slots_shift, List.filter_map, kings]
  rfl

theorem hasLost_shift (side : Side) : (p.shift v).hasLost side = p.hasLost side := by
  rw [hasLost, kings_shift, List.any_map, hasLost, Bool.eq_iff_iff, List.any_eq_true, List.any_eq_true]
  refine exists_congr fun king => and_congr_right fun hking => ?_
  obtain ⟨-, hpiece, -⟩ := p.mem_kings.mp hking
  have hcaptured : (king.shift v).piece.isCaptured = king.piece.isCaptured := h.isCaptured_shift hpiece
  rw [Function.comp_apply, hcaptured]

theorem checkStatus_shift (side : Side) : (p.shift v).checkStatus side = p.checkStatus side := by
  rw [checkStatus, h.hasLost_shift, checkStatus]
  cases hlost : p.hasLost side with
  | true => rfl
  | false =>
    have hattackers : ((p.shift v).kings side).flatMap
        (fun king => (p.shift v).threats king.piece.square side) =
          (p.kings side).flatMap fun king => p.threats king.piece.square side := by
      rw [kings_shift, List.flatMap_map]
      refine List.flatMap_congr fun king hking => ?_
      -- No king is captured, or the side would have lost.
      have hstands : king.piece.isCaptured = false := by
        rw [hasLost, List.any_eq_false] at hlost
        simpa using hlost king hking
      have hsquare : (king.shift v).piece.square = king.piece.square.shift v := by
        simp [Slot.shift, Piece.shift, hstands]
      rw [hsquare, h.threats_shift]
    rw [hattackers]

theorem materialScore_shift (side : Side) : (p.shift v).materialScore side = p.materialScore side := by
  have hlost (side : Side) : (p.shift v).materialLost side = p.materialLost side := by
    rw [materialLost, pieces_shift, List.filter_map, List.foldr_map, materialLost]
    have hfilter : (p.pieces side).filter ((·.isCaptured) ∘ Piece.shift v) =
        (p.pieces side).filter (·.isCaptured) :=
      List.filter_congr fun q hq => h.isCaptured_shift_of_mem hq
    rw [hfilter]
    rfl
  rw [materialScore, hlost, hlost, materialScore]

end Shifts

end Position

end FairyChess
