import FairyChess.Move.Apply
import FairyChess.Proofs.Position.Lookup

/-! What a move makes of each piece. -/
namespace FairyChess

/-- The piece after a promotion that is due where it stands. -/
def Piece.promoted (choice : Option Kind) (q : Piece) : Piece :=
  match q.promotion? choice with
  | some kind => (q.promote? kind).getD q
  | none => q

namespace Piece

variable (choice : Option Kind) (q : Piece)

@[simp] theorem isCaptured_capture : q.capture.isCaptured = true := rfl

/-- A promotion keeps the square, the side and the bounds, and how often the piece has moved. -/
theorem promoted_cases : q.promoted choice = q ∨
    ∃ t : Template, q.promoted choice = { t.spawn q.square q.side q.bounds with turns := q.turns } := by
  unfold promoted
  split
  · next kind _ =>
    unfold promote?
    cases kind.template? with
    | none => exact .inl rfl
    | some t => exact .inr ⟨t, rfl⟩
  · exact .inl rfl

@[simp] theorem square_promoted : (q.promoted choice).square = q.square := by
  rcases q.promoted_cases choice with h | ⟨t, h⟩ <;> rw [h]
  rfl

@[simp] theorem bounds_promoted : (q.promoted choice).bounds = q.bounds := by
  rcases q.promoted_cases choice with h | ⟨t, h⟩ <;> rw [h]
  rfl

@[simp] theorem turns_promoted : (q.promoted choice).turns = q.turns := by
  rcases q.promoted_cases choice with h | ⟨t, h⟩ <;> rw [h]

theorem direction_promoted (h : q.direction = 1 ∨ q.direction = -1) :
    (q.promoted choice).direction = q.direction := by
  rcases q.promoted_cases choice with hp | ⟨t, hp⟩ <;> rw [hp]
  rcases h with h | h <;> simp [Template.spawn, side, Side.ofDirection, Side.direction, h]

end Piece

namespace Move

/-- What becomes of the piece with an id before any promotion. -/
def displace (m : Move) (id : PieceId) (q : Piece) : Piece :=
  let q := if id ∈ m.captured then q.capture else q
  let q := match m.special with
    | .castle rook _ rookTo => if id = rook then q.castleTo rookTo else q
    | _ => q
  if id = m.mover then q.advance m else q

/-- What becomes of the piece with an id. -/
def effect (m : Move) (choice : Option Kind) (id : PieceId) (q : Piece) : Piece :=
  if id = m.mover then (m.displace id q).promoted choice else m.displace id q

variable {m : Move} {id : PieceId}

theorem touched_of_captured (h : id ∈ m.captured) : id ∈ m.touched := by
  simp [touched, h]

@[simp] theorem bounds_displace (m : Move) (id : PieceId) (q : Piece) :
    (m.displace id q).bounds = q.bounds := by
  unfold displace
  cases m.special <;> dsimp only <;> split_ifs <;> rfl

@[simp] theorem direction_displace (m : Move) (id : PieceId) (q : Piece) :
    (m.displace id q).direction = q.direction := by
  unfold displace
  cases m.special <;> dsimp only <;> split_ifs <;> rfl

@[simp] theorem grammar_displace (m : Move) (id : PieceId) (q : Piece) :
    (m.displace id q).grammar = q.grammar := by
  unfold displace
  cases m.special <;> dsimp only <;> split_ifs <;> rfl

@[simp] theorem behavior_displace (m : Move) (id : PieceId) (q : Piece) :
    (m.displace id q).behavior = q.behavior := by
  unfold displace
  cases m.special <;> dsimp only <;> split_ifs <;> rfl

@[simp] theorem bounds_effect (m : Move) (choice : Option Kind) (id : PieceId) (q : Piece) :
    (m.effect choice id q).bounds = q.bounds := by
  unfold effect
  split_ifs <;> simp

theorem direction_effect (m : Move) (choice : Option Kind) (id : PieceId) {q : Piece}
    (h : q.direction = 1 ∨ q.direction = -1) : (m.effect choice id q).direction = q.direction := by
  unfold effect
  split_ifs
  · rw [Piece.direction_promoted choice _ (by simpa using h), direction_displace]
  · rw [direction_displace]

theorem effect_of_not_touched (h : id ∉ m.touched) (choice : Option Kind) (q : Piece) :
    m.effect choice id q = q := by
  simp only [touched, List.mem_append, List.mem_cons, not_or] at h
  obtain ⟨⟨hmover, hcaptured⟩, hrook⟩ := h
  simp only [effect, displace, hcaptured, hmover, if_false]
  cases hspecial : m.special with
  | normal => rfl
  | enPassant => rfl
  | castle rook rookFrom rookTo =>
    have hne : id ≠ rook := by
      rintro rfl
      simp [rook?, hspecial] at hrook
    simp [hne]

/-- A piece moves, castles, is captured or stays as it is. -/
theorem effect_cases (m : Move) (choice : Option Kind) (id : PieceId) (q : Piece) :
    (id = m.mover ∧ (m.effect choice id q).square = m.target) ∨
      (id ≠ m.mover ∧ ∃ rookFrom rookTo, m.special = .castle id rookFrom rookTo ∧
        (m.effect choice id q).square = rookTo) ∨
      (id ∈ m.captured ∧ m.effect choice id q = q.capture) ∨
      (id ∉ m.touched ∧ m.effect choice id q = q) := by
  by_cases hmover : id = m.mover
  · refine .inl ⟨hmover, ?_⟩
    simp [effect, displace, hmover, Piece.square_promoted, Piece.advance]
  by_cases hrook : m.rook? = some id
  · refine .inr (.inl ⟨hmover, ?_⟩)
    cases hspecial : m.special with
    | normal => simp [rook?, hspecial] at hrook
    | enPassant => simp [rook?, hspecial] at hrook
    | castle rook rookFrom rookTo =>
      obtain rfl : rook = id := by simpa [rook?, hspecial] using hrook
      exact ⟨rookFrom, rookTo, rfl, by
        simp [effect, displace, hmover, hspecial, Piece.castleTo, Piece.relocate]⟩
  have hstays (r : Piece) : (match m.special with
      | .castle rook _ rookTo => if id = rook then r.castleTo rookTo else r
      | _ => r) = r := by
    cases hspecial : m.special with
    | normal => rfl
    | enPassant => rfl
    | castle rook rookFrom rookTo =>
      have hne : id ≠ rook := fun h => hrook (by simp [rook?, hspecial, h])
      simp [hne]
  by_cases hcaptured : id ∈ m.captured
  · refine .inr (.inr (.inl ⟨hcaptured, ?_⟩))
    simp only [effect, displace, hmover, hcaptured, hstays, if_true, if_false]
  · have htouched : id ∉ m.touched := by
      simp [touched, hmover, hcaptured, hrook]
    exact .inr (.inr (.inr ⟨htouched, effect_of_not_touched htouched choice q⟩))

end Move

namespace Position

variable (p : Position)

@[simp] theorem bounds_captureAll (ids : List PieceId) : (p.captureAll ids).bounds = p.bounds := by
  induction ids generalizing p with
  | nil => rfl
  | cons id ids ih => exact (ih (p.modify id Piece.capture)).trans (p.bounds_modify id _)

theorem piece?_captureAll (ids : List PieceId) (id : PieceId) :
    (p.captureAll ids).piece? id =
      (p.piece? id).map fun q => if id ∈ ids then q.capture else q := by
  induction ids generalizing p with
  | nil => simp [captureAll]
  | cons first ids ih =>
    have hstep : p.captureAll (first :: ids) = (p.modify first Piece.capture).captureAll ids := rfl
    rw [hstep, ih, piece?_modify, Option.map_map]
    congr 1
    funext q
    by_cases hfirst : id = first <;> by_cases hid : id ∈ ids <;>
      simp [hfirst, hid, Piece.capture, Piece.relocate]

theorem alive_captureAll (ids : List PieceId) (side : Side) :
    (p.captureAll ids).alive side = (p.alive side).filter (·.id ∉ ids) := by
  rw [alive, slots_eq_map p (p.piece?_captureAll ids), alive]
  induction p.slots side with
  | nil => rfl
  | cons slot slots ih =>
    rw [List.map_cons, List.filter_cons, ih, List.filter_cons]
    by_cases hid : slot.id ∈ ids
    · cases hcaptured : slot.piece.isCaptured <;> simp [hid]
    · cases hcaptured : slot.piece.isCaptured <;> simp [hid, hcaptured]

theorem allAlive_captureAll (ids : List PieceId) :
    (p.captureAll ids).allAlive = p.allAlive.filter (·.id ∉ ids) := by
  rw [allAlive, alive_captureAll, alive_captureAll, ← List.filter_append, allAlive]

/-- Captures elsewhere leave what a square holds. -/
theorem occupant?_captureAll {ids : List PieceId} {s : Square}
    (h : ∀ id ∈ ids, ∀ q, p.piece? id = some q → q.square ≠ s) :
    (p.captureAll ids).occupant? s = p.occupant? s := by
  have hfind : (p.captureAll ids).allAlive.find? (·.piece.square = s) =
      p.allAlive.find? (·.piece.square = s) := by
    rw [allAlive_captureAll, List.find?_filter]
    apply List.find?_congr
    intro slot hslot
    obtain ⟨hpiece, -⟩ := p.mem_allAlive.mp hslot
    by_cases hid : slot.id ∈ ids
    · simp [hid, h slot.id hid slot.piece hpiece]
    · simp [hid]
  rw [occupant?_eq_find?, bounds_captureAll, hfind, ← occupant?_eq_find?]

theorem occupant?_captureAll_eq_none {ids : List PieceId} {s : Square} (h : p.occupant? s = none) :
    (p.captureAll ids).occupant? s = none := by
  rw [occupant?_eq_find?, bounds_captureAll, allAlive_captureAll]
  rw [occupant?_eq_find?] at h
  split at h
  · next hboard =>
    rw [List.find?_eq_none] at h
    rw [if_pos hboard, List.find?_eq_none]
    intro slot hslot
    exact h slot (List.mem_filter.mp hslot).1
  · next hboard => rw [if_neg hboard]

theorem piece?_advance (m : Move) (id : PieceId) :
    (p.advance m).piece? id = (p.piece? id).map (m.displace id) := by
  have hmoved (q : Position) :
      ({ q.modify m.mover (Piece.advance m) with lastMoved := some m.mover } : Position).piece? id =
        (q.modify m.mover (Piece.advance m)).piece? id := by
    cases id with
    | mk side index => cases side <;> rfl
  unfold advance Move.displace
  dsimp only
  rw [hmoved, piece?_modify]
  cases m.special <;>
    simp only [piece?_modify, piece?_captureAll, Option.map_map, Function.comp_def]

@[simp] theorem bounds_advance (m : Move) : (p.advance m).bounds = p.bounds := by
  unfold advance
  split <;> simp

@[simp] theorem bounds_after (m : Move) (choice : Option Kind) :
    (p.after m choice).bounds = p.bounds := by
  unfold after
  dsimp only
  split <;> simp

@[simp] theorem lastMoved_advance (m : Move) : (p.advance m).lastMoved = some m.mover := rfl

@[simp] theorem lastMoved_after (m : Move) (choice : Option Kind) :
    (p.after m choice).lastMoved = some m.mover := by
  unfold after
  dsimp only
  split <;> simp

/-- A move changes each piece by its own effect on it. -/
theorem piece?_after (m : Move) (choice : Option Kind) (id : PieceId) :
    (p.after m choice).piece? id = (p.piece? id).map (m.effect choice id) := by
  have hmover := p.piece?_advance m m.mover
  have hadvance := p.piece?_advance m id
  unfold after Move.effect
  dsimp only
  by_cases h : id = m.mover
  · subst h
    cases hq : p.piece? m.mover with
    | none => simp [hmover, hq]
    | some q =>
      rw [hq] at hmover
      simp only [hmover, Option.map_some, Option.bind_some, Piece.promoted]
      cases (m.displace m.mover q).promotion? choice <;> simp [piece?_modify, hmover]
  · split <;> simp [piece?_modify, h, hadvance, Function.comp_def]

/-- A move leaves every piece that it does not touch as it is. -/
theorem piece?_after_of_not_touched {m : Move} {id : PieceId} (h : id ∉ m.touched)
    (choice : Option Kind) : (p.after m choice).piece? id = p.piece? id := by
  rw [piece?_after]
  cases p.piece? id with
  | none => rfl
  | some q => exact congrArg some (Move.effect_of_not_touched h choice q)

theorem promotion?_eq {m : Move} {q : Piece} (hq : p.piece? m.mover = some q) (choice : Option Kind) :
    p.promotion? m choice = (m.displace m.mover q).promotion? choice := by
  rw [promotion?, piece?_advance, hq, Option.map_some, Option.bind_some]

theorem pieces_after (m : Move) (choice : Option Kind) (side : Side) :
    (p.after m choice).pieces side =
      (p.pieces side).mapIdx fun i q => m.effect choice ⟨side, i⟩ q := by
  refine List.ext_getElem? fun i => ?_
  rw [List.getElem?_mapIdx]
  exact p.piece?_after m choice ⟨side, i⟩

@[simp] theorem length_pieces_after (m : Move) (choice : Option Kind) (side : Side) :
    ((p.after m choice).pieces side).length = (p.pieces side).length := by
  rw [pieces_after, List.length_mapIdx]

end Position

end FairyChess
