import FairyChess.Proofs.Move.Threat
import FairyChess.Proofs.Position.Symmetry

/-!
Symmetries of the legal moves. What blocks a piece, what it captures on its way and what threatens a
square are taken along with the board, and so are the moves that these allow.
-/
namespace FairyChess.Symmetry

def special (e : Symmetry) : Special → Special
  | .castle rook rookFrom rookTo => .castle (e.pieceId rook) (e.square rookFrom) (e.square rookTo)
  | other => other

def move (e : Symmetry) (m : Move) : Move where
  mover := e.pieceId m.mover
  origin := e.square m.origin
  target := e.square m.target
  captured := m.captured.map e.pieceId
  special := e.special m.special

/-- Repeated entries stay repeated under an injection, and no others come to be. -/
theorem eraseDups_map {α β : Type} [DecidableEq α] [DecidableEq β] {f : α → β}
    (hf : Function.Injective f) (xs : List α) : (xs.map f).eraseDups = xs.eraseDups.map f := by
  match xs with
  | [] => rfl
  | x :: xs =>
    have hfilter : (xs.map f).filter (fun y => !y == f x) = (xs.filter fun y => !y == x).map f := by
      rw [List.filter_map]
      refine congrArg _ (List.filter_congr fun y _ => ?_)
      have hbeq : (f y == f x) = (y == x) := by
        rw [Bool.eq_iff_iff, beq_iff_eq, beq_iff_eq]
        exact hf.eq_iff
      simp [hbeq]
    rw [List.map_cons, List.eraseDups_cons, List.eraseDups_cons, hfilter, eraseDups_map hf, List.map_cons]
termination_by xs.length
decreasing_by
  have hshorter := List.length_filter_le (fun y => !y == x) xs
  simp only [List.length_cons]
  omega

/-- Where all answers are the same, it does not matter in which order they are looked for. -/
theorem findSome?_perm {α β : Type} {f : α → Option β} {x : β} {xs ys : List α} (hperm : xs.Perm ys)
    (hf : ∀ a ∈ xs, ∀ y, f a = some y → y = x) : xs.findSome? f = ys.findSome? f := by
  have hanswer {zs : List α} (hzs : zs ⊆ xs) {y : β} (hy : zs.findSome? f = some y) : y = x := by
    obtain ⟨a, ha, hfa⟩ := List.exists_of_findSome?_eq_some hy
    exact hf a (hzs ha) y hfa
  cases hx : xs.findSome? f with
  | none =>
    rw [List.findSome?_eq_none_iff] at hx
    exact (List.findSome?_eq_none_iff.mpr fun a ha => hx a (hperm.mem_iff.mpr ha)).symm
  | some y =>
    obtain ⟨a, ha, hfa⟩ := List.exists_of_findSome?_eq_some hx
    obtain ⟨z, hz⟩ : ∃ z, ys.findSome? f = some z := by
      rw [← Option.isSome_iff_exists, List.findSome?_isSome_iff]
      exact ⟨a, hperm.mem_iff.mp ha, by simp [hfa]⟩
    rw [hz, hanswer (List.Subset.refl xs) hx, hanswer hperm.symm.subset hz]

namespace Carries

variable {e : Symmetry} {p : Position} (h : e.Carries p)

section Passage

variable {id : PieceId} {mover : Piece}
include h

theorem blocks_position (hstands : mover.isCaptured = false) (s : Square) :
    (e.position p).blocks (e.piece mover) (e.square s) = p.blocks mover s := by
  rw [Position.blocks, e.square_piece hstands, square_bne, h.isEmpty_position, Position.blocks]

theorem jumped?_position (hmover : p.piece? id = some mover) (squares : List Square) :
    (e.position p).jumped? (e.piece mover) (squares.map e.square) =
      (p.jumped? mover squares).map (List.map e.pieceId) := by
  unfold Position.jumped?
  induction squares with
  | nil => rfl
  | cons s squares ih =>
    rw [List.map_cons, List.mapM_cons, List.mapM_cons, ih, h.occupant?_position, h.side_piece hmover]
    cases p.occupant? s with
    | none => rfl
    | some slot =>
      simp only [Option.map_some, Option.bind_eq_bind, Option.bind_some, id_slot, side_pieceId, side_inj,
        piece_slot, isDummy_piece]
      split
      · rfl
      · simp only [Option.bind_some, Option.pure_def, Option.map_bind, Option.bind_map]
        rfl

theorem passed?_position (hmover : p.piece? id = some mover) (hstands : mover.isCaptured = false)
    (leaper : Bool) (step : Segment) :
    (e.position p).passed? (e.piece mover) leaper (e.segment step) =
      (p.passed? mover leaper step).map (List.map e.pieceId) := by
  have hbetween : (e.segment step).start.between (e.segment step).finish =
      (step.start.between step.finish).map e.square := e.between_square ..
  have hgait : (e.segment step).gait = step.gait := rfl
  have hblocks : (e.position p).blocks (e.piece mover) ∘ e.square = p.blocks mover :=
    funext fun s => h.blocks_position hstands s
  simp only [Position.passed?, Position.cleared?, hbetween, hgait, List.isEmpty_map, List.any_map, hblocks,
    h.jumped?_position hmover]
  split
  · split <;> rfl
  · split <;> rfl

theorem passedBy?_position (hmover : p.piece? id = some mover) (hstands : mover.isCaptured = false)
    (leaper : Bool) (route : Route) :
    (e.position p).passedBy? (e.piece mover) leaper (e.route route) =
      (p.passedBy? mover leaper route).map (List.map e.pieceId) := by
  induction route with
  | nil => rfl
  | cons step rest ih =>
    have hroute : e.route (step :: rest) = e.segment step :: e.route rest := rfl
    have hrest : (e.route rest).isEmpty = rest.isEmpty := List.isEmpty_map
    have hfinish : (e.position p).blocks (e.piece mover) (e.segment step).finish =
        p.blocks mover step.finish := h.blocks_position hstands _
    rw [hroute, Position.passedBy?, Position.passedBy?, hrest, hfinish, ih,
      h.passed?_position hmover hstands]
    cases p.passed? mover leaper step with
    | none => rfl
    | some here =>
      simp only [Option.map_some, Option.bind_eq_bind, Option.bind_some]
      split
      · rfl
      · simp [Option.bind_map, Option.map_bind]

/--
What a clause captures on the way is found at its first open route. A shift keeps the order of the routes.
A half turn does not, but then there are no locusts, and all open routes capture the same: nothing.
-/
theorem clausePasses?_position (hmover : p.piece? id = some mover) (hstands : mover.isCaptured = false)
    (target : Square) {c : Clause} (hc : c ∈ mover.grammar.clauses) :
    (e.position p).clausePasses? (e.piece mover) (e.square target) c =
      (p.clausePasses? mover target c).map (List.map e.pieceId) := by
  have hpassed : (e.position p).passedBy? (e.piece mover) c.leaper ∘ e.route =
      Option.map (List.map e.pieceId) ∘ p.passedBy? mover c.leaper :=
    funext fun route => h.passedBy?_position hmover hstands c.leaper route
  rw [Position.clausePasses?_eq_findSome?, Position.clausePasses?_eq_findSome?, List.map_findSome?,
    ← hpassed, ← List.findSome?_map, frame_piece, e.square_piece hstands]
  cases hturned : e.turned with
  | false => rw [e.routes_eq _ _ _ _ _ hturned]
  | true =>
    have hlocust : c.pattern.hasLocust = false := by
      have hgrammar := h.locust hturned hmover
      rw [Grammar.hasLocust, List.any_eq_false] at hgrammar
      simpa using hgrammar c hc
    refine findSome?_perm (x := []) (e.routes_perm ..) fun route hroute passed hpasses => ?_
    rw [List.eq_nil_iff_forall_not_mem]
    intro captured hcaptured
    obtain ⟨⟨step, hstep, hgait⟩, -⟩ := Position.of_mem_passedBy? hpasses hcaptured
    have hpattern := Pattern.locust_of_mem_routes hroute hstep hgait
    rw [hlocust] at hpattern
    simp at hpattern

end Passage

section Plain

variable {mover : Slot}
include h

theorem grammarMove?_position (hmover : p.piece? mover.id = some mover.piece)
    (hstands : mover.piece.isCaptured = false) (target : Square) (occupant : Option Slot) :
    (e.position p).grammarMove? (e.slot mover) (e.square target) (occupant.map e.slot) =
      (p.grammarMove? mover target occupant).map e.move := by
  rw [Position.grammarMove?, Position.grammarMove?, List.map_findSome?]
  refine Position.findSome?_congr fun c hc => ?_
  have hpermits : c.permits (e.piece mover.piece) = c.permits mover.piece := rfl
  have hoccupant : ((occupant.map e.slot).map (·.id)).toList =
      (occupant.map (·.id)).toList.map e.pieceId := by
    cases occupant <;> rfl
  simp only [Function.comp_apply, piece_slot, hpermits, Option.isSome_map, hoccupant,
    h.clausePasses?_position hmover hstands target hc]
  split
  · rw [Option.map_map, Option.map_map]
    congr 1
    funext passed
    simp only [Function.comp_apply, move, special, id_slot, e.square_piece hstands, ← List.map_append,
      eraseDups_map e.pieceId_injective]
  · rfl

theorem enPassant?_position (hstands : mover.piece.isCaptured = false) (target : Square) :
    (e.position p).enPassant? (e.slot mover) (e.square target) =
      (p.enPassant? mover target).map e.move := by
  have hsquare : Square.mk (e.square target).file (e.square mover.piece.square).rank =
      e.square ⟨target.file, mover.piece.square.rank⟩ := rfl
  simp only [Position.enPassant?, piece_slot, behavior_piece, e.square_piece hstands, hsquare,
    h.occupant?_position]
  split
  · cases p.occupant? ⟨target.file, mover.piece.square.rank⟩ with
    | none => rfl
    | some victim =>
      have hlast : (e.position p).lastMoved = some (e.pieceId victim.id) ↔
          p.lastMoved = some victim.id := by
        cases hlast : p.lastMoved <;> simp [position, hlast]
      simp only [Option.map_some, Option.bind_eq_bind, Option.bind_some, id_slot, side_pieceId, ne_eq,
        side_inj, piece_slot, behavior_piece, enPassant_piece, turns_piece, hlast, isDummy_piece,
        frame_piece, allows_square]
      split <;> rfl
  · rfl

theorem plainMove?_position (hmover : p.piece? mover.id = some mover.piece) (target : Square) :
    (e.position p).plainMove? (e.slot mover) (e.square target) =
      (p.plainMove? mover target).map e.move := by
  have hcaptured : (e.slot mover).piece.isCaptured = mover.piece.isCaptured := h.isCaptured_piece hmover
  have hmem : decide (e.square target ∈ (e.slot mover).piece.bounds) =
      decide (target ∈ mover.piece.bounds) := decide_eq_decide.mpr e.square_mem_bounds
  rw [Position.plainMove?, Position.plainMove?, hcaptured, hmem, h.occupant?_position]
  split
  · rfl
  next hfree =>
  have hstands : mover.piece.isCaptured = false := by simp_all
  cases p.occupant? target with
  | none =>
    have hgrammar := h.grammarMove?_position hmover hstands target none
    simp only [Option.map_none] at hgrammar
    simp only [Option.map_none, Option.map_or, hgrammar, h.enPassant?_position hstands]
  | some other =>
    have hgrammar := h.grammarMove?_position hmover hstands target (some other)
    simp only [Option.map_some] at hgrammar
    simp only [Option.map_some, id_slot, side_pieceId, side_inj, piece_slot, isDummy_piece, hgrammar]
    split <;> rfl

end Plain

section Threats
include h

theorem canCapture_position {attacker : Slot} (hattacker : p.piece? attacker.id = some attacker.piece)
    (s : Square) (victim : PieceId) :
    (e.position p).canCapture (e.slot attacker) (e.square s) (e.pieceId victim) =
      p.canCapture attacker s victim := by
  have hmoves (target : Square) := h.plainMove?_position hattacker target
  rw [Bool.eq_iff_iff, Position.canCapture_iff_plainMove?, Position.canCapture_iff_plainMove?]
  constructor
  · rintro ⟨image, m', himage, hcaptured, hreach⟩
    obtain ⟨target, rfl⟩ := e.square_surjective image
    rw [hmoves] at himage
    obtain ⟨m, hm, rfl⟩ := Option.map_eq_some_iff.mp himage
    have hmem : victim ∈ m.captured := (List.mem_map_of_injective e.pieceId_injective).mp hcaptured
    exact ⟨target, m, hm, hmem, hreach.imp_right fun hsquare => e.square_injective hsquare⟩
  · rintro ⟨target, m, hm, hcaptured, hreach⟩
    have himage : (e.position p).plainMove? (e.slot attacker) (e.square target) = some (e.move m) := by
      rw [hmoves, hm, Option.map_some]
    exact ⟨e.square target, e.move m, himage, List.mem_map_of_mem hcaptured,
      hreach.imp_right (congrArg e.square)⟩

theorem position_add_phantom {s : Square} (hs : s ∈ p.bounds) (side : Side) :
    e.position (p.add (.phantom s side p.bounds)) =
      (e.position p).add (.phantom (e.square s) (e.side side) (e.position p).bounds) := by
  have himage := e.piece_phantom (h.square_ne_box hs).1 side p.bounds
  have hside : (e.piece (.phantom s side p.bounds)).side =
      e.side (Piece.phantom s side p.bounds).side := by
    rw [himage, Piece.side_phantom, Piece.side_phantom]
  rw [e.position_add hside, himage]
  rfl

/-- The position in which a square is probed can be carried along, with the piece that is probed. -/
theorem probe_position {s : Square} (hs : s ∈ p.bounds) (side : Side) :
    e.Carries (p.probe s side).1 ∧ (e.position p).probe (e.square s) (e.side side) =
      (e.position (p.probe s side).1, e.pieceId (p.probe s side).2) := by
  unfold Position.probe
  rw [h.occupant?_position]
  cases hoccupant : p.occupant? s with
  | none =>
    have hfree := (p.occupant?_eq_none hs).mp hoccupant
    refine ⟨h.add_phantom hs side fun _ => hfree, ?_⟩
    simp only [Option.map_none, nextId_position, h.position_add_phantom hs]
  | some slot =>
    simp only [Option.map_some, id_slot, side_pieceId, side_inj]
    split
    · exact ⟨h, rfl⟩
    · have hcaptured : e.Carries (p.modify slot.id Piece.capture) := h.capture slot.id
      have himage : e.position (p.modify slot.id Piece.capture) =
          (e.position p).modify (e.pieceId slot.id) Piece.capture := e.position_modify e.piece_capture
      have hmem : s ∈ (p.modify slot.id Piece.capture).bounds := by rwa [Position.bounds_modify]
      refine ⟨hcaptured.add_phantom hmem side fun hturned other r hr hstands hsquare => ?_, ?_⟩
      -- Nobody else stands on the square of the enemy that the phantom takes the place of.
      · obtain ⟨-, hslot, hslotSquare, hslotStands⟩ := p.of_occupant? hoccupant
        by_cases hid : other = slot.id
        · rw [hid, Position.piece?_modify_self, hslot] at hr
          rw [← Option.some.inj hr] at hstands
          cases hstands
        · rw [Position.piece?_modify_of_ne _ hid] at hr
          exact hid (h.distinct hturned hr hslot hstands hslotStands (hsquare.trans hslotSquare.symm))
      · simp only [hcaptured.position_add_phantom hmem, ← nextId_position, himage]

/-- The threats to the image of a square come from the images of those who threaten it. -/
theorem threats_position (s : Square) (side : Side) :
    (e.position p).threats (e.square s) (e.side side) = (p.threats s side).map e.pieceId := by
  unfold Position.threats
  have hmem : e.square s ∈ (e.position p).bounds ↔ s ∈ p.bounds := e.square_mem_bounds
  by_cases hs : s ∈ p.bounds
  swap
  · rw [if_neg hs, if_neg (mt hmem.mp hs), List.map_nil]
  obtain ⟨hprobe, himage⟩ := h.probe_position hs side
  rw [if_pos hs, if_pos (hmem.mpr hs), himage]
  dsimp only
  rw [← side_opposite, hprobe.alive_position, List.filter_map, List.map_map, List.map_map]
  refine congrArg _ (List.filter_congr fun attacker hattacker => ?_)
  obtain ⟨-, hpiece, -⟩ := (Position.mem_alive _).mp hattacker
  exact hprobe.canCapture_position hpiece s _

end Threats

section Castling

variable {king : Slot}
include h

theorem firstAlong_position (b : Bounds) (step : ℤ) (n : ℕ) (s : Square) :
    (e.position p).firstAlong (e.bounds b) (e.sign * step) n (e.square s) =
      (p.firstAlong b step n s).map e.slot := by
  induction n generalizing s with
  | zero => rfl
  | succ n ih =>
    have hmem : e.square s ∈ e.bounds b ↔ s ∈ b := e.square_mem_bounds
    rw [Position.firstAlong, Position.firstAlong, square_beside, ih, h.occupant?_position, ← Option.map_or]
    by_cases hs : s ∈ b
    · rw [if_pos hs, if_pos (hmem.mpr hs)]
    · rw [if_neg hs, if_neg (mt hmem.mp hs), Option.map_none]

/-- A square on which only the king may stand is safe for the king when its image is. -/
theorem threats_relocated {s : Square} (hs : s ∈ p.bounds)
    (hfree : e.turned = true → ∀ other r, p.piece? other = some r → r.isCaptured = false →
      r.square = s → other = king.id) :
    (((e.position p).modify (e.pieceId king.id) (Piece.relocate (e.square s))).threats (e.square s)
        (e.side king.id.side)).isEmpty =
      ((p.modify king.id (Piece.relocate s)).threats s king.id.side).isEmpty := by
  have himage : e.position (p.modify king.id (Piece.relocate s)) =
      (e.position p).modify (e.pieceId king.id) (Piece.relocate (e.square s)) :=
    e.position_modify fun q => e.piece_relocate q (h.square_ne_box hs).1
  have hthreats := (h.relocate hs hfree).threats_position s king.id.side
  rw [himage] at hthreats
  exact (congrArg List.isEmpty hthreats).trans List.isEmpty_map

/-- The squares that a castling king starts from, passes and reaches are as safe as their images. -/
theorem threats_castling (hking : p.piece? king.id = some king.piece)
    (hstands : king.piece.isCaptured = false) {target : Square} (htarget : target ∈ p.bounds)
    (hempty : p.isEmpty target = true) {step : ℤ} (hstep : step.natAbs = 1) {n : ℕ} {rook : Slot}
    (hrook : p.firstAlong king.piece.bounds step n
      ⟨king.piece.square.file + step, king.piece.square.rank⟩ = some rook)
    (hdistance : 3 ≤ (rook.piece.square.file - king.piece.square.file).natAbs) :
    ∀ s ∈ [king.piece.square, ⟨king.piece.square.file + step, king.piece.square.rank⟩, target],
      (((e.position p).modify (e.pieceId king.id) (Piece.relocate (e.square s))).threats (e.square s)
          (e.side king.id.side)).isEmpty =
        ((p.modify king.id (Piece.relocate s)).threats s king.id.side).isEmpty := by
  have hfree {s : Square} (hs : s ∈ p.bounds) (hnobody : p.occupant? s = none) (other : PieceId)
      (r : Piece) (hr : p.piece? other = some r) (hrstands : r.isCaptured = false)
      (hsquare : r.square = s) : other = king.id :=
    absurd hsquare ((p.occupant?_eq_none hs).mp hnobody other r hr hrstands)
  obtain ⟨hpassed, -⟩ := Position.of_firstAlong hrook
  have hnobody := Position.occupant?_eq_none_of_firstAlong hrook (by omega)
  rw [h.bounds hking] at hpassed
  simp only [List.forall_mem_cons]
  refine ⟨?_, ?_, ?_, nofun⟩
  · refine h.threats_relocated (h.onBoard hking hstands) fun hturned other r hr hrstands hsquare => ?_
    exact h.distinct hturned hr hking hrstands hstands hsquare
  · exact h.threats_relocated hpassed fun _ => hfree hpassed hnobody
  · exact h.threats_relocated htarget fun _ => hfree htarget (p.isEmpty_iff.mp hempty)

theorem castle?_position (hking : p.piece? king.id = some king.piece) (target : Square) :
    (e.position p).castle? (e.slot king) (e.square target) = (p.castle? king target).map e.move := by
  cases hstands : king.piece.isCaptured with
  | true => simp [Position.castle?, h.isCaptured_piece hking, hstands]
  | false =>
  have hmem : e.square target ∈ e.bounds king.piece.bounds ↔ target ∈ king.piece.bounds :=
    e.square_mem_bounds
  unfold Position.castle?
  simp only [piece_slot, behavior_piece, turns_piece, h.isCaptured_piece hking, e.square_piece hstands,
    bounds_piece, hmem, file_sub, sign_sign_mul, natAbs_sign_mul, square_beside, h.isEmpty_position,
    rank_square]
  split
  · next hallowed =>
    obtain ⟨-, -, -, htarget, hempty, -, hfar⟩ := hallowed
    rw [h.bounds hking] at htarget
    rw [width_bounds, h.firstAlong_position]
    cases hrook : p.firstAlong king.piece.bounds (target.file - king.piece.square.file).sign
        (king.piece.bounds.right - king.piece.bounds.left).toNat
        ⟨king.piece.square.file + (target.file - king.piece.square.file).sign,
          king.piece.square.rank⟩ with
    | none => rfl
    | some rook =>
      obtain ⟨-, -, s, hs⟩ := Position.of_firstAlong hrook
      obtain ⟨-, -, -, hrookStands⟩ := p.of_occupant? hs
      simp only [Option.map_some, Option.bind_eq_bind, Option.bind_some, id_slot, side_pieceId, side_inj,
        piece_slot, behavior_piece, turns_piece, e.square_piece hrookStands, file_sub, natAbs_sign_mul]
      -- A near rook may stand on the square that the king passes, but then no threats are asked for.
      by_cases hdistance : 3 ≤ (rook.piece.square.file - king.piece.square.file).natAbs
      · have hstep : (target.file - king.piece.square.file).sign.natAbs = 1 :=
          Int.natAbs_sign_of_ne_zero (by omega)
        have hsafe := h.threats_castling hking hstands htarget hempty hstep hrook hdistance
        simp only [List.forall_mem_cons] at hsafe
        obtain ⟨hstart, hpassed, htargetSafe, -⟩ := hsafe
        simp only [hstart, hpassed, htargetSafe]
        split <;> rfl
      · simp only [hdistance, false_and, and_false, if_false, Option.map_none]
  · rfl

theorem moveOf?_position {mover : Slot} (hmover : p.piece? mover.id = some mover.piece)
    (target : Square) :
    (e.position p).moveOf? (e.slot mover) (e.square target) = (p.moveOf? mover target).map e.move := by
  rw [Position.moveOf?, Position.moveOf?, h.plainMove?_position hmover, h.castle?_position hmover,
    Option.map_or]

/-- The legal move of the image of a piece to the image of a square is the image of the move. -/
theorem move?_position (id : PieceId) (target : Square) :
    (e.position p).move? (e.pieceId id) (e.square target) = (p.move? id target).map e.move := by
  unfold Position.move? Position.slot?
  rw [e.piece?_position]
  cases hpiece : p.piece? id with
  | none => rfl
  | some q =>
    have hmover : p.piece? (Slot.mk id q).id = some (Slot.mk id q).piece := hpiece
    exact h.moveOf?_position hmover target

end Castling

end Carries

end FairyChess.Symmetry
