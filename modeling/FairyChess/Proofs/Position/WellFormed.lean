import FairyChess.Proofs.Move.Effect
import FairyChess.Proofs.Move.Undo

/-! Well-formed positions, and that the moves a position offers keep them well formed. -/
namespace FairyChess

namespace Position

/-- Pieces know the board they are on, those not captured stand on it, and no two on one square. -/
structure WellFormed (p : Position) : Prop where
  bounds {id : PieceId} {q : Piece} (hq : p.piece? id = some q) : q.bounds = p.bounds
  onBoard {id : PieceId} {q : Piece} (hq : p.piece? id = some q) (hstands : q.isCaptured = false) :
    q.square ∈ p.bounds
  distinct {a b : PieceId} {q r : Piece} (hq : p.piece? a = some q) (hr : p.piece? b = some r)
    (hqstands : q.isCaptured = false) (hrstands : r.isCaptured = false)
    (hsquare : q.square = r.square) : a = b

/-- A well-formed position whose pieces face up or down, as the side that lists them. -/
structure Regular (p : Position) : Prop extends WellFormed p where
  filed {id : PieceId} {q : Piece} (hq : p.piece? id = some q) : q.side = id.side
  upright {id : PieceId} {q : Piece} (hq : p.piece? id = some q) :
    q.direction = 1 ∨ q.direction = -1

/-- A move to a square of the board that captures whoever stands there. A castling rook is another
piece and goes to a free square. -/
structure Fits (p : Position) (m : Move) : Prop where
  target_mem : m.target ∈ p.bounds
  captures {id : PieceId} {q : Piece} (hq : p.piece? id = some q) (hstands : q.isCaptured = false)
    (hsquare : q.square = m.target) : id ∈ m.captured
  castle {rook : PieceId} {rookFrom rookTo : Square}
    (hspecial : m.special = .castle rook rookFrom rookTo) :
    rook ≠ m.mover ∧ rookTo ∈ p.bounds ∧ rookTo ≠ m.target ∧ p.occupant? rookTo = none

/-- The squares that a move takes pieces to are on the board. -/
structure Lands (p : Position) (m : Move) : Prop where
  target_mem : m.target ∈ p.bounds
  rook_mem {rook : PieceId} {rookFrom rookTo : Square}
    (hspecial : m.special = .castle rook rookFrom rookTo) : rookTo ∈ p.bounds

variable {p : Position} {m : Move}

/-- A piece of a well-formed position is the one that its square holds. -/
theorem WellFormed.occupant?_eq (hp : p.WellFormed) (slot : Slot)
    (hslot : p.piece? slot.id = some slot.piece) (hstands : slot.piece.isCaptured = false) :
    p.occupant? slot.piece.square = some slot := by
  have hmem := hp.onBoard hslot hstands
  cases hoccupant : p.occupant? slot.piece.square with
  | none => exact absurd rfl ((p.occupant?_eq_none hmem).mp hoccupant _ _ hslot hstands)
  | some other =>
    obtain ⟨-, hother, hsquare, hotherStands⟩ := p.of_occupant? hoccupant
    have hid : other.id = slot.id := hp.distinct hother hslot hotherStands hstands hsquare
    rw [hid, hslot] at hother
    obtain ⟨id, piece⟩ := slot
    cases other
    simp_all

/-- The pieces of an empty board to which some are added. -/
theorem piece?_foldl_add (b : Bounds) (qs : List Piece) (id : PieceId) :
    (qs.foldl add { bounds := b } : Position).piece? id =
      (qs.filter (·.side = id.side))[id.index]? := by
  rw [piece?, pieces_foldl_add]
  cases id.side <;> rfl

theorem mem_of_piece?_foldl_add {b : Bounds} {qs : List Piece} {id : PieceId} {q : Piece}
    (hq : (qs.foldl add { bounds := b } : Position).piece? id = some q) :
    q ∈ qs ∧ q.side = id.side := by
  rw [piece?_foldl_add] at hq
  simpa using List.mem_filter.mp (List.mem_of_getElem? hq)

/-- Pieces of one board on squares of their own make a regular position. -/
theorem regular_foldl_add {b : Bounds} {qs : List Piece} (hbounds : ∀ q ∈ qs, q.bounds = b)
    (hmem : ∀ q ∈ qs, q.square ∈ b) (hupright : ∀ q ∈ qs, q.direction = 1 ∨ q.direction = -1)
    (hnodup : (qs.map (·.square)).Nodup) :
    (qs.foldl add { bounds := b } : Position).Regular := by
  refine {
    bounds := fun hq => by rw [hbounds _ (mem_of_piece?_foldl_add hq).1, bounds_foldl_add]
    onBoard := fun hq _ => by rw [bounds_foldl_add]; exact hmem _ (mem_of_piece?_foldl_add hq).1
    distinct := fun {a c q r} hq hr _ _ hsquare => ?_
    filed := fun hq => (mem_of_piece?_foldl_add hq).2
    upright := fun hq => hupright _ (mem_of_piece?_foldl_add hq).1 }
  obtain ⟨hqmem, hqside⟩ := mem_of_piece?_foldl_add hq
  obtain ⟨hrmem, hrside⟩ := mem_of_piece?_foldl_add hr
  have hsame : q = r := List.inj_on_of_nodup_map hnodup hqmem hrmem hsquare
  have hside : a.side = c.side := by rw [← hqside, ← hrside, hsame]
  rw [piece?_foldl_add] at hq hr
  have hsub : ((qs.filter (·.side = a.side)).map (·.square)).Nodup :=
    hnodup.sublist (List.filter_sublist.map _)
  have hlt := (List.getElem?_eq_some_iff.mp hq).1
  have hindex : a.index = c.index := by
    refine (List.getElem?_inj hlt (List.Nodup.of_map _ hsub)).mp ?_
    rw [hq, hside, hr, hsame]
  cases a
  cases c
  simp_all

/-- Where a piece that is not captured stands after a move. -/
theorem effect_stands (m : Move) (choice : Option Kind) {id : PieceId} {q : Piece}
    (hstands : (m.effect choice id q).isCaptured = false) :
    (id = m.mover ∧ (m.effect choice id q).square = m.target) ∨
      (∃ rookFrom rookTo, m.special = .castle id rookFrom rookTo ∧
        (m.effect choice id q).square = rookTo) ∨
      (id ∉ m.captured ∧ m.effect choice id q = q) := by
  rcases m.effect_cases choice id q with hmover | ⟨-, hrook⟩ | ⟨-, hcaptured⟩ | ⟨huntouched, hsame⟩
  · exact .inl hmover
  · exact .inr (.inl hrook)
  · rw [hcaptured] at hstands
    cases hstands
  · exact .inr (.inr ⟨mt Move.touched_of_captured huntouched, hsame⟩)

theorem Fits.lands (hm : p.Fits m) : p.Lands m :=
  ⟨hm.target_mem, fun hspecial => (hm.castle hspecial).2.1⟩

/-- Pieces that stand on the board do so after a move. -/
theorem Lands.onBoard_after (hm : p.Lands m)
    (hp : ∀ {id q}, p.piece? id = some q → q.isCaptured = false → q.square ∈ p.bounds)
    {choice : Option Kind} {id : PieceId} {q' : Piece} (hq' : (p.after m choice).piece? id = some q')
    (hstands : q'.isCaptured = false) : q'.square ∈ p.bounds := by
  rw [piece?_after] at hq'
  obtain ⟨q, hq, rfl⟩ := Option.map_eq_some_iff.mp hq'
  rcases effect_stands m choice hstands with
    ⟨-, hsquare⟩ | ⟨rookFrom, rookTo, hspecial, hsquare⟩ | ⟨-, hsame⟩
  · rw [hsquare]
    exact hm.target_mem
  · rw [hsquare]
    exact hm.rook_mem hspecial
  · rw [hsame] at hstands ⊢
    exact hp hq hstands

/-- Two pieces do not come to stand on one square if one of them was there already. -/
theorem Fits.square_ne (hm : p.Fits m) {a b : PieceId} {r : Piece} {s : Square}
    (hs : (a = m.mover ∧ s = m.target) ∨ ∃ rookFrom, m.special = .castle a rookFrom s)
    (hr : p.piece? b = some r) (hstands : r.isCaptured = false) (hfree : b ∉ m.captured) :
    s ≠ r.square := by
  rintro rfl
  rcases hs with ⟨-, htarget⟩ | ⟨rookFrom, hspecial⟩
  · exact hfree (hm.captures hr hstands htarget)
  · obtain ⟨-, hmem, -, hempty⟩ := hm.castle hspecial
    exact (p.occupant?_eq_none hmem).mp hempty b r hr hstands rfl

theorem WellFormed.after (hp : p.WellFormed) (hm : p.Fits m) (choice : Option Kind) :
    (p.after m choice).WellFormed where
  bounds {id q'} hq' := by
    rw [piece?_after] at hq'
    obtain ⟨q, hq, rfl⟩ := Option.map_eq_some_iff.mp hq'
    rw [Move.bounds_effect, bounds_after, hp.bounds hq]
  onBoard {id q'} hq' hstands := by
    rw [bounds_after]
    exact hm.lands.onBoard_after hp.onBoard hq' hstands
  distinct {a b q' r'} hq' hr' hqstands hrstands hsquare := by
    rw [piece?_after] at hq' hr'
    obtain ⟨q, hq, rfl⟩ := Option.map_eq_some_iff.mp hq'
    obtain ⟨r, hr, rfl⟩ := Option.map_eq_some_iff.mp hr'
    rcases effect_stands m choice hqstands with
      ⟨ha, hqsquare⟩ | ⟨qFrom, qTo, hqspecial, hqsquare⟩ | ⟨hqfree, hqsame⟩
    · rcases effect_stands m choice hrstands with
        ⟨hb, -⟩ | ⟨rFrom, rTo, hrspecial, hrsquare⟩ | ⟨hrfree, hrsame⟩
      · rw [ha, hb]
      · exact absurd (hrsquare.symm.trans (hsquare.symm.trans hqsquare)) (hm.castle hrspecial).2.2.1
      · rw [hrsame] at hrstands hsquare
        exact absurd hsquare (hm.square_ne (.inl ⟨ha, hqsquare⟩) hr hrstands hrfree)
    · rcases effect_stands m choice hrstands with
        ⟨-, hrsquare⟩ | ⟨rFrom, rTo, hrspecial, -⟩ | ⟨hrfree, hrsame⟩
      · exact absurd (hqsquare.symm.trans (hsquare.trans hrsquare)) (hm.castle hqspecial).2.2.1
      · exact (Special.castle.inj (hqspecial.symm.trans hrspecial)).1
      · rw [hrsame] at hrstands hsquare
        exact absurd hsquare (hm.square_ne (.inr ⟨qFrom, hqsquare ▸ hqspecial⟩) hr hrstands hrfree)
    · rw [hqsame] at hqstands hsquare
      rcases effect_stands m choice hrstands with
        ⟨hb, hrsquare⟩ | ⟨rFrom, rTo, hrspecial, hrsquare⟩ | ⟨-, hrsame⟩
      · exact absurd hsquare.symm (hm.square_ne (.inl ⟨hb, hrsquare⟩) hq hqstands hqfree)
      · exact absurd hsquare.symm
          (hm.square_ne (.inr ⟨rFrom, hrsquare ▸ hrspecial⟩) hq hqstands hqfree)
      · rw [hrsame] at hrstands hsquare
        exact hp.distinct hq hr hqstands hrstands hsquare

theorem Regular.after (hp : p.Regular) (hm : p.Fits m) (choice : Option Kind) :
    (p.after m choice).Regular where
  toWellFormed := hp.toWellFormed.after hm choice
  filed {id q'} hq' := by
    rw [piece?_after] at hq'
    obtain ⟨q, hq, rfl⟩ := Option.map_eq_some_iff.mp hq'
    rw [Piece.side, Move.direction_effect m choice id (hp.upright hq)]
    exact hp.filed hq
  upright {id q'} hq' := by
    rw [piece?_after] at hq'
    obtain ⟨q, hq, rfl⟩ := Option.map_eq_some_iff.mp hq'
    rw [Move.direction_effect m choice id (hp.upright hq)]
    exact hp.upright hq

/-- The scan for a castling rook passes free squares only, and ends on a piece. -/
theorem of_firstAlong {bounds : Bounds} {step : ℤ} {n : ℕ} {s : Square} {slot : Slot}
    (h : p.firstAlong bounds step n s = some slot) :
    s ∈ bounds ∧ (p.occupant? s = some slot ∨ p.occupant? s = none) ∧
      ∃ s', p.occupant? s' = some slot := by
  induction n generalizing s with
  | zero => cases h
  | succ n ih =>
    unfold firstAlong at h
    split at h
    · next hs =>
      rcases Option.or_eq_some_iff.mp h with hfound | ⟨hfree, hlater⟩
      · exact ⟨hs, .inl hfound, s, hfound⟩
      · exact ⟨hs, .inr hfree, (ih hlater).2.2⟩
    · cases h

/-- The first square of a scan is free if the piece that is found stands farther away. -/
theorem occupant?_eq_none_of_firstAlong {bounds : Bounds} {step : ℤ} {n : ℕ} {home : Square} {slot : Slot}
    (h : p.firstAlong bounds step n ⟨home.file + step, home.rank⟩ = some slot)
    (hfar : step.natAbs < (slot.piece.square.file - home.file).natAbs) :
    p.occupant? ⟨home.file + step, home.rank⟩ = none := by
  obtain ⟨-, hfound, -⟩ := of_firstAlong h
  refine hfound.resolve_left fun hnear => ?_
  obtain ⟨-, -, hsquare, -⟩ := p.of_occupant? hnear
  rw [hsquare] at hfar
  dsimp only at hfar
  omega

theorem fits_of_empty (htarget : m.target ∈ p.bounds) (hempty : p.occupant? m.target = none)
    (hcastle : ∀ rook rookFrom rookTo, m.special = .castle rook rookFrom rookTo →
      rook ≠ m.mover ∧ rookTo ∈ p.bounds ∧ rookTo ≠ m.target ∧ p.occupant? rookTo = none) :
    p.Fits m where
  target_mem := htarget
  captures {id q} hq hstands hsquare :=
    absurd hsquare ((p.occupant?_eq_none htarget).mp hempty id q hq hstands)
  castle {rook rookFrom rookTo} := hcastle rook rookFrom rookTo

theorem WellFormed.fits_plainMove? (hp : p.WellFormed) {mover : Slot} {target : Square}
    (hmover : p.piece? mover.id = some mover.piece) (h : p.plainMove? mover target = some m) :
    p.Fits m := by
  obtain ⟨-, htarget, hcases⟩ := of_plainMove? h
  rw [hp.bounds hmover] at htarget
  rcases hcases with ⟨other, hother, -, -, hmove⟩ | ⟨hempty, hmove | hmove⟩
  · obtain ⟨c, -, -, passed, -, rfl⟩ := of_grammarMove? hmove
    obtain ⟨-, hpiece, hsquare, hotherStands⟩ := p.of_occupant? hother
    refine ⟨htarget, fun hq hstands hqsquare => ?_, fun hspecial => by cases hspecial⟩
    have hid := hp.distinct hq hpiece hstands hotherStands (hqsquare.trans hsquare.symm)
    simp [List.mem_eraseDups, hid]
  · obtain ⟨c, -, -, passed, -, rfl⟩ := of_grammarMove? hmove
    exact fits_of_empty htarget hempty nofun
  · obtain ⟨-, victim, -, -, rfl⟩ := of_enPassant? hmove
    exact fits_of_empty htarget hempty nofun

theorem WellFormed.fits_castle? (hp : p.WellFormed) {king : Slot} {target : Square}
    (hking : p.piece? king.id = some king.piece) (h : p.castle? king target = some m) :
    p.Fits m := by
  obtain ⟨⟨-, -, -, htarget, hempty, hrank, hfar⟩, rook, hrook, ⟨-, -, -, hdistance, -⟩, rfl⟩ :=
    of_castle? h
  rw [hp.bounds hking] at htarget hrook
  obtain ⟨hmem, -, s, hs⟩ := of_firstAlong hrook
  obtain ⟨-, hpiece, -, -⟩ := p.of_occupant? hs
  have hstep : (target.file - king.piece.square.file).sign.natAbs = 1 :=
    Int.natAbs_sign_of_ne_zero (by omega)
  have hpassed := occupant?_eq_none_of_firstAlong hrook (by omega)
  refine fits_of_empty htarget (p.isEmpty_iff.mp hempty) fun _ _ _ hspecial => ?_
  obtain ⟨rfl, -, rfl⟩ := Special.castle.inj hspecial
  -- The rook comes from three files away or more and lands on the first square of the scan.
  refine ⟨fun hid => ?_, hmem, fun hsquare => ?_, hpassed⟩
  · have hsame : rook.piece = king.piece := by
      rw [hid, hking] at hpiece
      exact (Option.some.inj hpiece).symm
    simp [hsame] at hdistance
  · have hfile := congrArg Square.file hsquare
    dsimp only at hfile
    omega

/-- Whatever a well-formed position offers fits it. -/
theorem WellFormed.fits (hp : p.WellFormed) (h : p.Offers m) : p.Fits m := by
  cases h with
  | legal h =>
    obtain ⟨q, hq, hmove⟩ := of_move? h
    rcases of_moveOf? hmove with hplain | hcastle
    · exact hp.fits_plainMove? hq hplain
    · exact hp.fits_castle? hq hcastle
  | forced h =>
    obtain ⟨q, hq, -, htarget, hempty, rfl⟩ := of_forcedMove? h
    rw [hp.bounds hq] at htarget
    exact fits_of_empty htarget hempty nofun
  | @forcedCapture id victim _ h =>
    obtain ⟨q, v, -, hv, -, hstands, -, rfl⟩ := of_forcedCapture? h
    refine ⟨hp.onBoard hv hstands, fun hr hrstands hsquare => ?_, fun hspecial => by cases hspecial⟩
    exact List.mem_singleton.mpr (hp.distinct hr hv hrstands hstands hsquare)

end Position

namespace Line

variable {start : Position} {l : Line}

theorem Stands.bounds (h : Stands start l) : l.position.bounds = start.bounds := by
  induction h with
  | start => rfl
  | play choice _ hm ih => exact (Position.bounds_after ..).trans ih

theorem Stands.length_pieces (h : Stands start l) (side : Side) :
    (l.position.pieces side).length = (start.pieces side).length := by
  induction h with
  | start => rfl
  | play choice _ hm ih => exact (Position.length_pieces_after ..).trans ih

theorem Stands.regular (h : Stands start l) (hstart : start.Regular) : l.position.Regular := by
  induction h with
  | start => exact hstart
  | play choice _ hm ih => exact ih.after (ih.fits hm) choice

end Line

end FairyChess
