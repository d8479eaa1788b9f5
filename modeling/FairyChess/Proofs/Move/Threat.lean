import FairyChess.Proofs.Bounds
import FairyChess.Proofs.Move.Passage
import FairyChess.Proofs.Position.WellFormed
import Mathlib

/-! Threats and legal moves: who is said to threaten a piece, and who can capture it. -/
namespace FairyChess

theorem Side.opposite_ne (side : Side) : side.opposite ≠ side := by
  cases side <;> decide

@[simp] theorem Piece.side_phantom (s : Square) (side : Side) (b : Bounds) :
    (Piece.phantom s side b).side = side := by
  cases side <;> rfl

namespace Position

variable {p : Position}

theorem mem_plainMoves {mover : Slot} {m : Move} :
    m ∈ p.plainMoves mover ↔ ∃ target, p.plainMove? mover target = some m := by
  unfold plainMoves
  constructor
  · intro h
    split at h
    · cases h
    · obtain ⟨target, -, hmove⟩ := List.mem_filterMap.mp h
      exact ⟨target, hmove⟩
  · rintro ⟨target, hmove⟩
    obtain ⟨hstands, htarget, -⟩ := of_plainMove? hmove
    rw [if_neg (Bool.eq_false_iff.mp hstands)]
    exact List.mem_filterMap.mpr ⟨target, Bounds.mem_squares.mpr htarget, hmove⟩

/-- Castling captures nothing. -/
theorem mem_movesOf_of_captures {mover : Slot} {m : Move} {id : PieceId} (hid : id ∈ m.captured) :
    m ∈ p.movesOf mover ↔ ∃ target, p.plainMove? mover target = some m := by
  rw [mem_movesOf]
  constructor
  · rintro ⟨target, hmove⟩
    exact ⟨target, plainMove?_of_captures hmove hid⟩
  · rintro ⟨target, hmove⟩
    exact ⟨target, by rw [moveOf?, hmove, Option.some_or]⟩

/-- A threat is a capturing move to the square itself, or by a piece with a locust to any square. -/
theorem canCapture_iff_plainMove? {a : Slot} {s : Square} {id : PieceId} :
    p.canCapture a s id = true ↔ ∃ target m, p.plainMove? a target = some m ∧ id ∈ m.captured ∧
      (a.piece.grammar.hasLocust = true ∨ target = s) := by
  unfold canCapture
  split
  · next hlocust =>
    simp only [List.any_eq_true, mem_plainMoves, List.contains_iff_mem, hlocust, true_or, and_true]
    constructor
    · rintro ⟨m, ⟨target, hmove⟩, hid⟩
      exact ⟨target, m, hmove, hid⟩
    · rintro ⟨target, m, hmove, hid⟩
      exact ⟨m, ⟨target, hmove⟩, hid⟩
  · next hlocust =>
    simp only [Option.any_eq_true, List.contains_iff_mem, hlocust, Bool.false_eq_true, false_or]
    constructor
    · rintro ⟨m, hmove, hid⟩
      exact ⟨s, m, hmove, hid, rfl⟩
    · rintro ⟨target, m, hmove, hid, rfl⟩
      exact ⟨m, hmove, hid⟩

/-- A square that holds a piece of the side is threatened as that piece is. -/
theorem threats_of_occupant? {s : Square} {slot : Slot} (h : p.occupant? s = some slot) :
    p.threats s slot.id.side =
      ((p.alive slot.id.side.opposite).filter (p.canCapture · s slot.id)).map (·.id) := by
  have hprobe : p.probe s slot.id.side = (p, slot.id) := by
    unfold probe
    rw [h]
    exact if_pos rfl
  rw [threats, if_pos (p.of_occupant? h).1, hprobe]

theorem mem_threats {s : Square} {slot : Slot} (h : p.occupant? s = some slot) {id : PieceId} :
    id ∈ p.threats s slot.id.side ↔
      ∃ a ∈ p.alive slot.id.side.opposite, p.canCapture a s slot.id = true ∧ a.id = id := by
  rw [threats_of_occupant? h]
  simp only [List.mem_map, List.mem_filter, and_assoc]

/-- Nothing threatens the place of captured pieces, also where it is a square of the board. -/
theorem threats_box (p : Position) (side : Side) : p.threats .box side = [] := by
  have hprobe : p.probe .box side = (p.add (.phantom .box side p.bounds), p.nextId side) := by
    unfold probe
    cases hoccupant : p.occupant? .box with
    | none => rfl
    | some slot =>
      obtain ⟨-, -, hsquare, hstands⟩ := p.of_occupant? hoccupant
      rw [Piece.isCaptured, hsquare] at hstands
      cases hstands
  have hphantom := p.piece?_add_nextId (.phantom .box side p.bounds)
  rw [Piece.side_phantom] at hphantom
  unfold threats
  split
  swap
  · rfl
  rw [hprobe]
  dsimp only
  rw [List.map_eq_nil_iff, List.filter_eq_nil_iff]
  intro a _ h
  obtain ⟨target, m, hmove, hcaptured, -⟩ := canCapture_iff_plainMove?.mp h
  obtain ⟨-, -, s, slot, hslot, hid, -⟩ := prey_of_mem_captured hmove hcaptured
  obtain ⟨-, hpiece, -, hstands⟩ := of_occupant? _ hslot
  rw [hid, hphantom] at hpiece
  rw [← Option.some.inj hpiece] at hstands
  cases hstands

section Victims

variable {a v : Slot} {m : Move}

/-- A piece without a locust captures by its grammar on the target only. -/
theorem target_of_captures (hv : p.piece? v.id = some v.piece)
    (hlocust : ¬a.piece.grammar.hasLocust = true) {target : Square}
    (hm : p.plainMove? a target = some m) (hcaptured : v.id ∈ m.captured)
    (hspecial : m.special ≠ .enPassant) : target = v.piece.square := by
  obtain ⟨-, hmove, -⟩ := (plainMove?_cases hm).resolve_right fun h => hspecial h.1
  obtain ⟨other, hother, hid⟩ := (of_mem_captured_grammarMove? hmove hcaptured).resolve_right
    fun h => hlocust h.1
  obtain ⟨-, hpiece, hsquare, -⟩ := p.of_occupant? hother
  rw [hid, hv] at hpiece
  rw [← hsquare, Option.some.inj hpiece]

theorem special_ne_of_occupied {target : Square} (hoccupant : p.occupant? target = some v)
    (hm : p.plainMove? a target = some m) : m.special ≠ .enPassant := by
  rcases plainMove?_cases hm with ⟨hspecial, -⟩ | ⟨-, hempty, -⟩
  · exact hspecial
  · rw [hempty] at hoccupant
    cases hoccupant

theorem WellFormed.canCapture_iff (hp : p.WellFormed) (hv : p.piece? v.id = some v.piece)
    (hstands : v.piece.isCaptured = false) :
    p.canCapture a v.piece.square v.id = true ↔
      ∃ m ∈ p.movesOf a, v.id ∈ m.captured ∧
        (m.special = .enPassant → a.piece.grammar.hasLocust = true) := by
  rw [canCapture_iff_plainMove?]
  constructor
  · rintro ⟨target, m, hmove, hcaptured, hreach⟩
    refine ⟨m, (mem_movesOf_of_captures hcaptured).mpr ⟨target, hmove⟩, hcaptured, fun hspecial => ?_⟩
    refine hreach.resolve_right ?_
    rintro rfl
    exact special_ne_of_occupied (hp.occupant?_eq v hv hstands) hmove hspecial
  · rintro ⟨m, hm, hcaptured, hspecial⟩
    obtain ⟨target, hmove⟩ := (mem_movesOf_of_captures hcaptured).mp hm
    refine ⟨target, m, hmove, hcaptured, ?_⟩
    by_cases hlocust : a.piece.grammar.hasLocust = true
    · exact .inl hlocust
    · exact .inr (target_of_captures hv hlocust hmove hcaptured (mt hspecial hlocust))

/-- The threats to a piece come from the enemies that have a move to capture it, but for captures en
passant by pieces without a locust. -/
theorem WellFormed.threats_eq (hp : p.WellFormed) (hv : p.piece? v.id = some v.piece)
    (hstands : v.piece.isCaptured = false) :
    p.threats v.piece.square v.id.side =
      ((p.alive v.id.side.opposite).filter fun a =>
        ∃ m ∈ p.movesOf a, v.id ∈ m.captured ∧
          (m.special = .enPassant → a.piece.grammar.hasLocust = true)).map (·.id) := by
  rw [threats_of_occupant? (hp.occupant?_eq v hv hstands)]
  congr 1
  apply List.filter_congr
  intro a _
  rw [Bool.eq_iff_iff, hp.canCapture_iff hv hstands, decide_eq_true_iff]

theorem threats_eq_pawns :
    let board : Bounds := { left := 0, right := 2, bottom := 0, top := 4 }
    let p := ((Piece.standard? .pawn ⟨0, 1⟩ .white board).toList ++
      (Piece.standard? .pawn ⟨1, 2⟩ .black board).toList).foldl Position.add { bounds := board }
    p.threats ⟨0, 1⟩ .white = [⟨.black, 0⟩] ∧
      p.threats ⟨0, 1⟩ .white = ((p.alive .black).filter fun a =>
        ∃ m ∈ p.movesOf a, ⟨.white, 0⟩ ∈ m.captured ∧
          (m.special = .enPassant → a.piece.grammar.hasLocust = true)).map (·.id) := by
  intro board p
  have hp : p.WellFormed :=
    (regular_foldl_add (by decide) (by decide) (by decide) (by decide)).toWellFormed
  obtain ⟨q, hq, hsquare, hstands⟩ :
      ∃ q, p.piece? ⟨.white, 0⟩ = some q ∧ q.square = ⟨0, 1⟩ ∧ q.isCaptured = false :=
    ⟨_, rfl, rfl, rfl⟩
  have h := hp.threats_eq (v := ⟨⟨.white, 0⟩, q⟩) hq hstands
  rw [hsquare] at h
  exact ⟨by cbv, h⟩

/-- A pawn that has gone two squares can be captured en passant, and nothing threatens it. -/
theorem not_threats_enPassant :
    let board : Bounds := { left := 0, right := 2, bottom := 0, top := 4 }
    let start := ((Piece.standard? .pawn ⟨0, 0⟩ .white board).toList ++
      (Piece.standard? .pawn ⟨1, 2⟩ .black board).toList).foldl Position.add { bounds := board }
    let advance : Move := { mover := ⟨.white, 0⟩, origin := ⟨0, 0⟩, target := ⟨0, 2⟩ }
    let p := start.after advance none
    start.move? ⟨.white, 0⟩ ⟨0, 2⟩ = some advance ∧ p.WellFormed ∧
      (p.piece? ⟨.white, 0⟩).map (·.square) = some ⟨0, 2⟩ ∧
      (∃ a ∈ p.alive .black, ∃ m ∈ p.movesOf a, ⟨.white, 0⟩ ∈ m.captured) ∧
      p.threats ⟨0, 2⟩ .white = [] := by
  intro board start advance p
  have hstart : start.WellFormed :=
    (regular_foldl_add (by decide) (by decide) (by decide) (by decide)).toWellFormed
  have hm : start.move? ⟨.white, 0⟩ ⟨0, 2⟩ = some advance := by cbv
  have hcaptures : ((p.alive .black).any fun a =>
      (p.movesOf a).any (·.captured.contains ⟨.white, 0⟩)) = true := by
    cbv
  obtain ⟨a, ha, hcaptures⟩ := List.any_eq_true.mp hcaptures
  obtain ⟨m, hcapture, hcaptured⟩ := List.any_eq_true.mp hcaptures
  refine ⟨hm, hstart.after (hstart.fits (.legal hm)) none, by cbv, ?_, by cbv⟩
  exact ⟨a, ha, m, hcapture, List.contains_iff_mem.mp hcaptured⟩

/-- A threat to a piece that nobody can capture en passant stays where all routes of the attacker look
the same. -/
theorem canCapture_of_alikeFor {q : Position} {s : Square} (halike : AlikeFor a.piece p q)
    (hv : p.piece? v.id = some v.piece) (henPassant : v.piece.enPassant = false)
    (h : p.canCapture a s v.id = true) : q.canCapture a s v.id = true := by
  have hspecial : ∀ target m, p.plainMove? a target = some m → v.id ∈ m.captured →
      m.special ≠ .enPassant := by
    intro target m hm hcaptured hspecial
    obtain ⟨-, -, hmove⟩ := (plainMove?_cases hm).resolve_left fun h => h.1 hspecial
    obtain ⟨-, victim, hvictim, ⟨-, -, hflag, -⟩, rfl⟩ := of_enPassant? hmove
    obtain ⟨-, hpiece, -, -⟩ := p.of_occupant? hvictim
    rw [← List.mem_singleton.mp hcaptured, hv] at hpiece
    rw [← Option.some.inj hpiece, henPassant] at hflag
    cases hflag
  obtain ⟨target, m, hmove, hcaptured, hreach⟩ := canCapture_iff_plainMove?.mp h
  have hkept : q.plainMove? a target = some m :=
    plainMove?_of_alikeFor halike hmove (hspecial target m hmove hcaptured)
  exact canCapture_iff_plainMove?.mpr ⟨target, m, hkept, hcaptured, hreach⟩

/-- Where a piece comes under threat, the attacker has a route that has come to look different. -/
theorem exists_of_mem_threats {q : Position} {s : Square} {k : PieceId} {d e : Bool}
    (hp : p.view s = some (k, d)) (hq : q.view s = some (k, e))
    (henPassant : ∀ r, p.piece? k = some r → r.enPassant = false)
    (henemies : ∀ id : PieceId, id.side ≠ k.side → p.piece? id = q.piece? id)
    (hsafe : q.threats s k.side = []) {id : PieceId} (hid : id ∈ p.threats s k.side) :
    ∃ r, p.piece? id = some r ∧ ¬AlikeFor r p q := by
  obtain ⟨v, hv, hseen⟩ := Option.map_eq_some_iff.mp hp
  obtain ⟨w, hw, hseen'⟩ := Option.map_eq_some_iff.mp hq
  obtain rfl : v.id = k := congrArg Prod.fst hseen
  have hvw : w.id = v.id := congrArg Prod.fst hseen'
  obtain ⟨-, hpiece, -, -⟩ := p.of_occupant? hv
  obtain ⟨a, ha, hcapture, rfl⟩ := (mem_threats hv).mp hid
  obtain ⟨hside, hattacker, hstands⟩ := p.mem_alive.mp ha
  refine ⟨a.piece, hattacker, fun halike => ?_⟩
  have hcapture' := canCapture_of_alikeFor halike hpiece (henPassant _ hpiece) hcapture
  have henemy : a.id.side ≠ v.id.side := by
    rw [hside]
    exact v.id.side.opposite_ne
  have hstays : a ∈ q.alive v.id.side.opposite := by
    refine q.mem_alive.mpr ⟨hside, ?_, hstands⟩
    rw [← henemies a.id henemy, hattacker]
  rw [← hvw] at hsafe hstays hcapture'
  have hmem := (mem_threats hw).mpr ⟨a, hstays, hcapture', rfl⟩
  rw [hsafe] at hmem
  cases hmem

end Victims

section Phantom

variable {q r : Piece}

/-- Two pieces of a side that are added on one square look the same, if both are dummies or neither is. -/
theorem view_add (hside : q.side = r.side) (hsquare : q.square = r.square)
    (hdummy : q.isDummy = r.isDummy) (s : Square) : (p.add q).view s = (p.add r).view s := by
  apply view_congr
  · rw [bounds_add, bounds_add]
  intro id
  by_cases hid : id = p.nextId q.side
  · have hid' : id = p.nextId r.side := by rw [hid, hside]
    rw [hid, piece?_add_nextId, ← hid, hid', piece?_add_nextId]
    exact congrArg some (Piece.seenAt_congr hsquare hdummy s)
  · have hid' : id ≠ p.nextId r.side := by rwa [← hside]
    rw [p.piece?_add_of_ne hid, p.piece?_add_of_ne hid']

theorem canCapture_add (hside : q.side = r.side) (hsquare : q.square = r.square)
    (hdummy : q.isDummy = r.isDummy) (hq : q.enPassant = false) (hr : r.enPassant = false)
    (a : Slot) (s : Square) :
    (p.add q).canCapture a s (p.nextId q.side) = (p.add r).canCapture a s (p.nextId r.side) := by
  have hview (s : Square) : (p.add q).view s = (p.add r).view s := view_add hside hsquare hdummy s
  have hnew := p.piece?_add_nextId q
  have hnew' := p.piece?_add_nextId r
  rw [← hside] at hnew' ⊢
  rw [Bool.eq_iff_iff]
  constructor
  · have halike : AlikeFor a.piece (p.add q) (p.add r) := fun _ _ _ _ _ s _ => hview s
    exact canCapture_of_alikeFor (v := ⟨p.nextId q.side, q⟩) halike hnew hq
  · have halike : AlikeFor a.piece (p.add r) (p.add q) := fun _ _ _ _ _ s _ => (hview s).symm
    exact canCapture_of_alikeFor (v := ⟨p.nextId q.side, r⟩) halike hnew' hr

/-- On an empty square the threats are to a phantom. -/
theorem threats_of_empty {s : Square} (hs : s ∈ p.bounds) (hempty : p.occupant? s = none) (side : Side) :
    p.threats s side = ((p.alive side.opposite).filter
      ((p.add (.phantom s side p.bounds)).canCapture · s (p.nextId side))).map (·.id) := by
  have hprobe : p.probe s side = (p.add (.phantom s side p.bounds), p.nextId side) := by
    unfold probe
    rw [hempty]
  have henemy : side.opposite ≠ (Piece.phantom s side p.bounds).side := by
    rw [Piece.side_phantom]
    exact side.opposite_ne
  rw [threats, if_pos hs, hprobe]
  dsimp only
  rw [p.alive_add_of_ne henemy]

/--
A piece that is added on an empty square is threatened by whatever threatened the square for its side before,
where it is no dummy and cannot be captured en passant. What else the piece is makes no difference.
-/
theorem threats_add (hboard : q.square ∈ p.bounds) (hbox : q.square ≠ .box)
    (hempty : p.occupant? q.square = none) (henPassant : q.enPassant = false)
    (hdummy : q.isDummy = false) :
    (p.add q).threats q.square q.side = p.threats q.square q.side := by
  have hstands : q.isCaptured = false := beq_false_of_ne hbox
  have hthreats := threats_of_occupant? (p.occupant?_add hboard hempty hstands)
  simp only [side_nextId] at hthreats
  rw [hthreats, p.alive_add_of_ne q.side.opposite_ne, threats_of_empty hboard hempty]
  congr 1
  apply List.filter_congr
  intro a _
  have hphantom : q.side = (Piece.phantom q.square q.side p.bounds).side := (Piece.side_phantom ..).symm
  have hsame := canCapture_add (p := p) hphantom rfl hdummy henPassant rfl a q.square
  rwa [← hphantom] at hsame

/-- A locust behind the square threatens it, also where nothing stands on the square yet. -/
theorem threats_add_knight :
    let board : Bounds := { left := 0, right := 3, bottom := 0, top := 4 }
    let hop : Step := { shape := .orthogonal, distance := .single (.exact 2), gait := { locust := true } }
    let hopper : Piece := { Piece.phantom ⟨0, 1⟩ .black board with
      grammar := { clauses := [{ source := "^2+", pattern := .step hop }] } }
    let p := ([hopper] ++ (Piece.standard? .rook ⟨1, 3⟩ .black board).toList ++
      (Piece.standard? .knight ⟨2, 2⟩ .black board).toList ++
      (Piece.standard? .king ⟨0, 0⟩ .white board).toList).foldl Position.add { bounds := board }
    ∃ q, Piece.standard? .knight ⟨1, 1⟩ .white board = some q ∧
      p.occupant? ⟨1, 1⟩ = none ∧ q.enPassant = false ∧ q.isDummy = false ∧
      p.threats ⟨1, 1⟩ .white = [⟨.black, 0⟩, ⟨.black, 1⟩] ∧
      (p.add q).threats ⟨1, 1⟩ .white = p.threats ⟨1, 1⟩ .white := by
  intro board hop hopper p
  have hempty : p.occupant? ⟨1, 1⟩ = none := rfl
  obtain ⟨q, hq, hsquare, hside, henPassant, hdummy⟩ :
      ∃ q, Piece.standard? .knight ⟨1, 1⟩ .white board = some q ∧ q.square = ⟨1, 1⟩ ∧
        q.side = .white ∧ q.enPassant = false ∧ q.isDummy = false := ⟨_, rfl, rfl, rfl, rfl, rfl⟩
  have hboard : q.square ∈ p.bounds := by
    rw [hsquare]
    decide
  have hbox : q.square ≠ .box := by
    rw [hsquare]
    decide
  have hthreats := threats_add hboard hbox (hsquare ▸ hempty) henPassant hdummy
  rw [hsquare, hside] at hthreats
  exact ⟨q, hq, hempty, henPassant, hdummy, by cbv, hthreats⟩

end Phantom

end Position

end FairyChess
