import FairyChess.Proofs.Movement.Symmetry
import FairyChess.Proofs.Position.Lookup

/-!
Symmetries of positions. A shift takes every piece along with the board, and a half turn also exchanges the
sides. Captured pieces stay where they are put, off the board and its image.
-/
namespace FairyChess.Symmetry

def side (e : Symmetry) (s : Side) : Side :=
  if e.turned then s.opposite else s

def pieceId (e : Symmetry) (id : PieceId) : PieceId :=
  ⟨e.side id.side, id.index⟩

def piece (e : Symmetry) (q : Piece) : Piece :=
  { q with
    square := if q.isCaptured then .box else e.square q.square
    direction := e.sign * q.direction
    bounds := e.bounds q.bounds }

def slot (e : Symmetry) (s : Slot) : Slot :=
  ⟨e.pieceId s.id, e.piece s.piece⟩

/-- The image of a position. A half turn gives each side the pieces of the other. -/
def position (e : Symmetry) (p : Position) : Position where
  bounds := e.bounds p.bounds
  white := (p.pieces (e.side .white)).map e.piece
  black := (p.pieces (e.side .black)).map e.piece
  lastMoved := p.lastMoved.map e.pieceId

variable (e : Symmetry)

@[simp] theorem side_side (s : Side) : e.side (e.side s) = s := by
  cases h : e.turned <;> cases s <;> simp [side, h, Side.opposite]

theorem side_injective : Function.Injective e.side :=
  Function.LeftInverse.injective e.side_side

@[simp] theorem side_inj {s t : Side} : e.side s = e.side t ↔ s = t :=
  e.side_injective.eq_iff

theorem side_opposite (s : Side) : e.side s.opposite = (e.side s).opposite := by
  cases h : e.turned <;> simp [side, h]

theorem direction_side (s : Side) : (e.side s).direction = e.sign * s.direction := by
  cases h : e.turned <;> cases s <;> simp [side, sign, h, Side.opposite, Side.direction]

@[simp] theorem pieceId_pieceId (id : PieceId) : e.pieceId (e.pieceId id) = id := by
  simp [pieceId]

theorem pieceId_injective : Function.Injective e.pieceId :=
  Function.LeftInverse.injective e.pieceId_pieceId

@[simp] theorem pieceId_inj {id other : PieceId} : e.pieceId id = e.pieceId other ↔ id = other :=
  e.pieceId_injective.eq_iff

section Pieces

variable (id : PieceId) (s : Slot) (q : Piece)

@[simp] theorem side_pieceId : (e.pieceId id).side = e.side id.side := rfl

@[simp] theorem id_slot : (e.slot s).id = e.pieceId s.id := rfl

@[simp] theorem piece_slot : (e.slot s).piece = e.piece s.piece := rfl

@[simp] theorem bounds_piece : (e.piece q).bounds = e.bounds q.bounds := rfl

@[simp] theorem frame_piece : (e.piece q).frame = e.frame q.frame := rfl

@[simp] theorem behavior_piece : (e.piece q).behavior = q.behavior := rfl

@[simp] theorem grammar_piece : (e.piece q).grammar = q.grammar := rfl

@[simp] theorem isDummy_piece : (e.piece q).isDummy = q.isDummy := rfl

@[simp] theorem turns_piece : (e.piece q).turns = q.turns := rfl

@[simp] theorem enPassant_piece : (e.piece q).enPassant = q.enPassant := rfl

end Pieces

theorem square_piece_of_captured {q : Piece} (hcaptured : q.isCaptured = true) :
    (e.piece q).square = .box := by
  simp [piece, hcaptured]

theorem square_piece {q : Piece} (hstands : q.isCaptured = false) :
    (e.piece q).square = e.square q.square := by
  simp [piece, hstands]

theorem pieces_position (p : Position) (s : Side) :
    (e.position p).pieces (e.side s) = (p.pieces s).map e.piece := by
  cases h : e.turned <;> cases s <;> simp [position, Position.pieces, side, h, Side.opposite]

theorem nextId_position (p : Position) (s : Side) :
    (e.position p).nextId (e.side s) = e.pieceId (p.nextId s) := by
  simp [Position.nextId, pieceId, pieces_position]

theorem piece?_position (p : Position) (id : PieceId) :
    (e.position p).piece? (e.pieceId id) = (p.piece? id).map e.piece := by
  simp only [Position.piece?, pieceId, pieces_position, List.getElem?_map]

theorem piece_relocate (q : Piece) {s : Square} (hs : s ≠ .box) :
    e.piece (q.relocate s) = (e.piece q).relocate (e.square s) := by
  simp [piece, Piece.relocate, Piece.isCaptured, hs]

theorem piece_capture (q : Piece) : e.piece q.capture = (e.piece q).capture := by
  simp [piece, Piece.capture, Piece.relocate, Piece.isCaptured]

theorem piece_phantom {s : Square} (hs : s ≠ .box) (side : Side) (b : Bounds) :
    e.piece (.phantom s side b) = .phantom (e.square s) (e.side side) (e.bounds b) := by
  simp [piece, Piece.phantom, Piece.isCaptured, hs, direction_side]

/-- The image of a changed position is the image with the image of the piece changed. -/
theorem position_modify {p : Position} {id : PieceId} {f g : Piece → Piece}
    (hf : ∀ q, e.piece (f q) = g (e.piece q)) :
    e.position (p.modify id f) = (e.position p).modify (e.pieceId id) g := by
  apply Position.ext_piece?
  · simp [position]
  · intro other
    obtain ⟨other, rfl⟩ : ∃ id, e.pieceId id = other := ⟨e.pieceId other, e.pieceId_pieceId other⟩
    simp only [piece?_position, Position.piece?_modify, Option.map_map, e.pieceId_injective.eq_iff]
    congr 1
    funext q
    by_cases hid : other = id <;> simp [hid, hf]
  · simp [position]

theorem position_add {p : Position} {q : Piece} (hside : (e.piece q).side = e.side q.side) :
    e.position (p.add q) = (e.position p).add (e.piece q) := by
  have hpieces (s : Side) :
      (e.position (p.add q)).pieces (e.side s) = ((e.position p).add (e.piece q)).pieces (e.side s) := by
    rw [pieces_position, Position.add, Position.add, Position.pieces_setPieces,
      Position.pieces_setPieces, hside, pieces_position, pieces_position]
    by_cases hs : s = q.side
    · simp [hs]
    · simp [hs, e.side_injective.ne hs]
  apply Position.ext_piece?
  · simp [position]
  · intro id
    have himage := hpieces (e.side id.side)
    rw [side_side] at himage
    rw [Position.piece?, Position.piece?, himage]
  · simp [position]

/--
What a symmetry can be applied to: the pieces know the board and stand on it, and neither the board nor its
image has the square of captured pieces. For a half turn the pieces must face up or down, since they take
the other side, must stand on squares of their own, since the lists are looked through in the other order,
and must have no locusts, since so are the routes.
-/
structure Carries (p : Position) : Prop where
  bounds {id : PieceId} {q : Piece} (hq : p.piece? id = some q) : q.bounds = p.bounds
  onBoard {id : PieceId} {q : Piece} (hq : p.piece? id = some q) (hstands : q.isCaptured = false) :
    q.square ∈ p.bounds
  box : .box ∉ p.bounds
  box_image : .box ∉ e.bounds p.bounds
  upright (h : e.turned = true) {id : PieceId} {q : Piece} (hq : p.piece? id = some q) :
    q.direction = 1 ∨ q.direction = -1
  distinct (h : e.turned = true) {a b : PieceId} {q r : Piece} (hq : p.piece? a = some q)
    (hr : p.piece? b = some r) (hqstands : q.isCaptured = false) (hrstands : r.isCaptured = false)
    (hsquare : q.square = r.square) : a = b
  locust (h : e.turned = true) {id : PieceId} {q : Piece} (hq : p.piece? id = some q) :
    q.grammar.hasLocust = false

namespace Carries

variable {e : Symmetry} {p : Position} (h : e.Carries p)
include h

theorem square_ne_box {s : Square} (hs : s ∈ p.bounds) : s ≠ .box ∧ e.square s ≠ .box := by
  constructor
  · rintro rfl
    exact h.box hs
  · intro hbox
    have himage : e.square s ∈ e.bounds p.bounds := e.square_mem_bounds.mpr hs
    rw [hbox] at himage
    exact h.box_image himage

theorem isCaptured_piece {id : PieceId} {q : Piece} (hq : p.piece? id = some q) :
    (e.piece q).isCaptured = q.isCaptured := by
  cases hcaptured : q.isCaptured with
  | true => simp [Piece.isCaptured, e.square_piece_of_captured hcaptured]
  | false =>
    have hne : e.square q.square ≠ .box := (h.square_ne_box (h.onBoard hq hcaptured)).2
    rw [Piece.isCaptured, e.square_piece hcaptured]
    simpa using hne

/-- The image of a piece faces as the image of its side. -/
theorem side_piece {id : PieceId} {q : Piece} (hq : p.piece? id = some q) :
    (e.piece q).side = e.side q.side := by
  cases hturned : e.turned with
  | false => simp [piece, Piece.side, sign, side, hturned]
  | true =>
    rcases h.upright hturned hq with hdirection | hdirection <;>
      simp [piece, Piece.side, sign, side, hturned, hdirection, Side.ofDirection, Side.opposite]

omit h in
theorem standingOn_image {s : Square} {qs : List Piece}
    (hqs : ∀ q ∈ qs, (e.piece q).isCaptured = q.isCaptured) (side : Side) (n : ℕ) :
    Position.standingOn (e.square s) (e.side side) n (qs.map e.piece) =
      (Position.standingOn s side n qs).map e.slot := by
  induction qs generalizing n with
  | nil => rfl
  | cons q qs ih =>
    obtain ⟨hq, hrest⟩ := List.forall_mem_cons.mp hqs
    rw [List.map_cons, Position.standingOn, Position.standingOn, hq, ih hrest]
    cases hcaptured : q.isCaptured with
    | true => simp
    | false =>
      simp only [e.square_piece hcaptured, e.square_injective.eq_iff]
      by_cases hsquare : q.square = s
      · simp [hsquare, slot, pieceId]
      · simp [hsquare]

/-- No square holds a piece of either side at once, so that it does not matter which side is asked first. -/
theorem or_standingOn_comm (hturned : e.turned = true) (s : Square) :
    (Position.standingOn s .black 0 p.black).or (Position.standingOn s .white 0 p.white) =
      (Position.standingOn s .white 0 p.white).or (Position.standingOn s .black 0 p.black) := by
  have hstanding (side : Side) {slot : Slot}
      (hslot : Position.standingOn s side 0 (p.pieces side) = some slot) :
      slot.id.side = side ∧ p.piece? slot.id = some slot.piece ∧ slot.piece.isCaptured = false ∧
        slot.piece.square = s := by
    rw [Position.standingOn_eq_find?] at hslot
    obtain ⟨hside, hpiece, hstands⟩ := p.mem_alive.mp (List.mem_of_find?_eq_some hslot)
    exact ⟨hside, hpiece, hstands, by simpa using List.find?_some hslot⟩
  cases hwhite : Position.standingOn s .white 0 p.white with
  | none => simp
  | some white =>
    cases hblack : Position.standingOn s .black 0 p.black with
    | none => simp
    | some black =>
      obtain ⟨hside, hpiece, hstands, hsquare⟩ := hstanding .white hwhite
      obtain ⟨hside', hpiece', hstands', hsquare'⟩ := hstanding .black hblack
      have hid : white.id = black.id :=
        h.distinct hturned hpiece hpiece' hstands hstands' (hsquare.trans hsquare'.symm)
      rw [hid, hside'] at hside
      cases hside

/-- The piece on the image of a square is the image of the piece on it. -/
theorem occupant?_position (s : Square) :
    (e.position p).occupant? (e.square s) = (p.occupant? s).map e.slot := by
  have hstanding (side : Side) : Position.standingOn (e.square s) side 0 ((e.position p).pieces side) =
      (Position.standingOn s (e.side side) 0 (p.pieces (e.side side))).map e.slot := by
    have hcaptured : ∀ q ∈ p.pieces (e.side side), (e.piece q).isCaptured = q.isCaptured := by
      intro q hq
      obtain ⟨i, hi⟩ := List.mem_iff_getElem?.mp hq
      have hpiece : p.piece? ⟨e.side side, i⟩ = some q := hi
      exact h.isCaptured_piece hpiece
    have himage := standingOn_image hcaptured (s := s) (e.side side) 0
    rwa [← e.pieces_position, side_side] at himage
  unfold Position.occupant?
  have hmem : e.square s ∈ (e.position p).bounds ↔ s ∈ p.bounds := e.square_mem_bounds
  by_cases hs : s ∈ p.bounds
  swap
  · rw [if_neg hs, if_neg (mt hmem.mp hs), Option.map_none]
  have hwhite := hstanding .white
  have hblack := hstanding .black
  simp only [Position.pieces] at hwhite hblack
  rw [if_pos hs, if_pos (hmem.mpr hs), hwhite, hblack, ← Option.map_or]
  cases hturned : e.turned with
  | false => simp [side, hturned]
  | true =>
    simp only [side, hturned, if_true, Side.opposite]
    rw [h.or_standingOn_comm hturned]

theorem isEmpty_position (s : Square) : (e.position p).isEmpty (e.square s) = p.isEmpty s := by
  rw [Position.isEmpty, h.occupant?_position, Option.isNone_map, Position.isEmpty]

/-- The pieces still standing are listed in the same order. -/
theorem alive_position (side : Side) :
    (e.position p).alive (e.side side) = (p.alive side).map e.slot := by
  have hslots (n : ℕ) (qs : List Piece) : Position.slotsFrom (e.side side) n (qs.map e.piece) =
      (Position.slotsFrom side n qs).map e.slot := by
    induction qs generalizing n with
    | nil => rfl
    | cons q qs ih => simp only [List.map_cons, Position.slotsFrom, ih, slot, pieceId]
  rw [Position.alive, Position.slots, pieces_position, hslots, List.filter_map, Position.alive]
  refine congrArg _ (List.filter_congr fun slot hslot => ?_)
  exact congrArg (!·) (h.isCaptured_piece (p.mem_slots.mp hslot).2)

section Operations

/-- A piece can be changed if it stays on the board, faces as before and, before a half turn, shares
its square with no other. -/
theorem modify {id : PieceId} {f : Piece → Piece}
    (hframe : ∀ q, (f q).bounds = q.bounds ∧ (f q).direction = q.direction ∧ (f q).grammar = q.grammar)
    (hsquare : ∀ q, p.piece? id = some q → (f q).isCaptured = false → (f q).square ∈ p.bounds)
    (hfree : e.turned = true → ∀ q, p.piece? id = some q → (f q).isCaptured = false →
      ∀ other r, p.piece? other = some r → r.isCaptured = false → r.square = (f q).square → other = id) :
    e.Carries (p.modify id f) := by
  have hpiece {other : PieceId} {r : Piece} (hr : (p.modify id f).piece? other = some r) :
      (other = id ∧ ∃ q, p.piece? id = some q ∧ r = f q) ∨ p.piece? other = some r := by
    by_cases hid : other = id
    · subst hid
      rw [Position.piece?_modify_self] at hr
      obtain ⟨q, hq, rfl⟩ := Option.map_eq_some_iff.mp hr
      exact .inl ⟨rfl, q, hq, rfl⟩
    · rw [Position.piece?_modify_of_ne _ hid] at hr
      exact .inr hr
  refine {
    bounds := fun hr => ?_
    onBoard := fun hr hstands => ?_
    box := ?_
    box_image := ?_
    upright := fun hturned _ _ hr => ?_
    distinct := fun hturned _ _ _ _ hr hr' hstands hstands' hsame => ?_
    locust := fun hturned _ _ hr => ?_ }
  · rw [Position.bounds_modify]
    rcases hpiece hr with ⟨-, q, hq, rfl⟩ | hr
    · rw [(hframe q).1, h.bounds hq]
    · exact h.bounds hr
  · rw [Position.bounds_modify]
    rcases hpiece hr with ⟨-, q, hq, rfl⟩ | hr
    · exact hsquare q hq hstands
    · exact h.onBoard hr hstands
  · rw [Position.bounds_modify]
    exact h.box
  · rw [Position.bounds_modify]
    exact h.box_image
  · rcases hpiece hr with ⟨-, q, hq, rfl⟩ | hr
    · rw [(hframe q).2.1]
      exact h.upright hturned hq
    · exact h.upright hturned hr
  · rcases hpiece hr with ⟨ha, q, hq, rfl⟩ | hr
    · rcases hpiece hr' with ⟨hb, -⟩ | hr'
      · rw [ha, hb]
      · rw [ha, hfree hturned q hq hstands _ _ hr' hstands' hsame.symm]
    · rcases hpiece hr' with ⟨hb, q, hq, rfl⟩ | hr'
      · rw [hb, hfree hturned q hq hstands' _ _ hr hstands hsame]
      · exact h.distinct hturned hr hr' hstands hstands' hsame
  · rcases hpiece hr with ⟨-, q, hq, rfl⟩ | hr
    · rw [(hframe q).2.2]
      exact h.locust hturned hq
    · exact h.locust hturned hr

theorem relocate {id : PieceId} {s : Square} (hs : s ∈ p.bounds)
    (hfree : e.turned = true → ∀ other r, p.piece? other = some r → r.isCaptured = false →
      r.square = s → other = id) :
    e.Carries (p.modify id (Piece.relocate s)) :=
  h.modify (fun _ => ⟨rfl, rfl, rfl⟩) (fun _ _ _ => hs) fun hturned _ _ _ => hfree hturned

theorem capture (id : PieceId) : e.Carries (p.modify id Piece.capture) :=
  h.modify (fun _ => ⟨rfl, rfl, rfl⟩) (fun _ _ hstands => by cases hstands)
    fun _ _ _ hstands => by cases hstands

/-- A phantom can be put on the board, on a free square before a half turn. -/
theorem add_phantom {s : Square} (hs : s ∈ p.bounds) (side : Side)
    (hfree : e.turned = true → ∀ other r, p.piece? other = some r → r.isCaptured = false →
      r.square ≠ s) :
    e.Carries (p.add (.phantom s side p.bounds)) := by
  have hbounds : (p.add (.phantom s side p.bounds)).bounds = p.bounds := p.bounds_add _
  refine {
    bounds := fun hr => ?_
    onBoard := fun hr hstands => ?_
    box := by rw [hbounds]; exact h.box
    box_image := by rw [hbounds]; exact h.box_image
    upright := fun hturned _ _ hr => ?_
    distinct := fun hturned _ _ _ _ hr hr' hstands hstands' hsame => ?_
    locust := fun hturned _ _ hr => ?_ }
  · rw [hbounds]
    rcases p.of_piece?_add hr with hr | ⟨-, rfl⟩
    · exact h.bounds hr
    · rfl
  · rw [hbounds]
    rcases p.of_piece?_add hr with hr | ⟨-, rfl⟩
    · exact h.onBoard hr hstands
    · exact hs
  · rcases p.of_piece?_add hr with hr | ⟨-, rfl⟩
    · exact h.upright hturned hr
    · cases side <;> simp [Piece.phantom, Side.direction]
  · rcases p.of_piece?_add hr with hr | ⟨ha, rfl⟩
    · rcases p.of_piece?_add hr' with hr' | ⟨-, rfl⟩
      · exact h.distinct hturned hr hr' hstands hstands' hsame
      · exact absurd hsame (hfree hturned _ _ hr hstands)
    · rcases p.of_piece?_add hr' with hr' | ⟨hb, -⟩
      · exact absurd hsame.symm (hfree hturned _ _ hr' hstands')
      · rw [ha, hb]
  · rcases p.of_piece?_add hr with hr | ⟨-, rfl⟩
    · exact h.locust hturned hr
    · rfl

end Operations

end Carries

end FairyChess.Symmetry
