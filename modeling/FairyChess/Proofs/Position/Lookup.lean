import FairyChess.Position
import Mathlib.Tactic

/-! Positions as maps from ids to pieces: what each operation does to the piece with an id. -/
namespace FairyChess

namespace Position

variable (p : Position)

@[simp] theorem bounds_setPieces (side : Side) (qs : List Piece) :
    (p.setPieces side qs).bounds = p.bounds := by
  cases side <;> rfl

@[simp] theorem lastMoved_setPieces (side : Side) (qs : List Piece) :
    (p.setPieces side qs).lastMoved = p.lastMoved := by
  cases side <;> rfl

theorem pieces_setPieces (side other : Side) (qs : List Piece) :
    (p.setPieces side qs).pieces other = if other = side then qs else p.pieces other := by
  cases side <;> cases other <;> rfl

@[simp] theorem bounds_modify (id : PieceId) (f : Piece → Piece) :
    (p.modify id f).bounds = p.bounds := bounds_setPieces ..

@[simp] theorem lastMoved_modify (id : PieceId) (f : Piece → Piece) :
    (p.modify id f).lastMoved = p.lastMoved := lastMoved_setPieces ..

@[simp] theorem bounds_add (q : Piece) : (p.add q).bounds = p.bounds := bounds_setPieces ..

@[simp] theorem lastMoved_add (q : Piece) : (p.add q).lastMoved = p.lastMoved :=
  lastMoved_setPieces ..

theorem piece?_modify (id other : PieceId) (f : Piece → Piece) :
    (p.modify id f).piece? other =
      (p.piece? other).map fun q => if other = id then f q else q := by
  obtain ⟨side, i⟩ := id
  obtain ⟨side', j⟩ := other
  simp only [piece?, modify, pieces_setPieces, PieceId.mk.injEq]
  by_cases hside : side' = side
  · subst hside
    by_cases hindex : j = i
    · simp [hindex]
    · simp [hindex, Ne.symm hindex]
  · simp [hside]

theorem piece?_modify_self (id : PieceId) (f : Piece → Piece) :
    (p.modify id f).piece? id = (p.piece? id).map f := by
  rw [piece?_modify]
  simp only [if_true]

theorem piece?_modify_of_ne {id other : PieceId} (h : other ≠ id) (f : Piece → Piece) :
    (p.modify id f).piece? other = p.piece? other := by
  rw [piece?_modify]
  simp only [h, if_false, Option.map_id']

/-- An added piece takes the next id of its side. -/
theorem of_piece?_add {q r : Piece} {id : PieceId} (h : (p.add q).piece? id = some r) :
    p.piece? id = some r ∨ (id = p.nextId q.side ∧ r = q) := by
  obtain ⟨side, i⟩ := id
  simp only [piece?, add, pieces_setPieces] at h
  by_cases hside : side = q.side
  · simp only [hside, if_true, List.getElem?_append, List.getElem?_singleton] at h
    subst hside
    split at h
    · exact .inl h
    · next hlt =>
      split at h
      · next hzero =>
        have hi : i = (p.pieces q.side).length := by omega
        exact .inr ⟨by rw [nextId, hi], (Option.some.inj h).symm⟩
      · cases h
  · rw [if_neg hside] at h
    exact .inl h

@[simp] theorem side_nextId (side : Side) : (p.nextId side).side = side := rfl

@[simp] theorem piece?_add_nextId (q : Piece) : (p.add q).piece? (p.nextId q.side) = some q := by
  rw [piece?, nextId, add, pieces_setPieces, if_pos rfl, List.getElem?_concat_length]

theorem piece?_add_of_ne {q : Piece} {id : PieceId} (h : id ≠ p.nextId q.side) :
    (p.add q).piece? id = p.piece? id := by
  obtain ⟨side, i⟩ := id
  rw [piece?, piece?, add, pieces_setPieces]
  by_cases hside : side = q.side
  · subst hside
    have hindex : i ≠ (p.pieces q.side).length := fun hi => h (by rw [hi, nextId])
    rcases lt_or_gt_of_ne hindex with hold | hbeyond
    · rw [if_pos rfl, List.getElem?_append_left hold]
    · have hlength : (p.pieces q.side ++ [q]).length ≤ i := by
        rw [List.length_append, List.length_singleton]
        exact hbeyond
      rw [if_pos rfl, List.getElem?_eq_none hlength, List.getElem?_eq_none hbeyond.le]
  · rw [if_neg hside]

theorem ne_nextId {id : PieceId} {q : Piece} (hq : p.piece? id = some q) (side : Side) :
    id ≠ p.nextId side := by
  rintro rfl
  rw [piece?, nextId, List.getElem?_eq_none le_rfl] at hq
  cases hq

/-- A position is its board, its pieces by id and the piece that moved last. -/
theorem ext_piece? {p q : Position} (hbounds : p.bounds = q.bounds)
    (hpieces : ∀ id, p.piece? id = q.piece? id) (hlast : p.lastMoved = q.lastMoved) : p = q := by
  have hside (side : Side) : p.pieces side = q.pieces side :=
    List.ext_getElem? fun i => hpieces ⟨side, i⟩
  have hwhite : p.white = q.white := hside .white
  have hblack : p.black = q.black := hside .black
  cases p
  cases q
  simp_all

@[simp] theorem bounds_foldl_add (qs : List Piece) : (qs.foldl add p).bounds = p.bounds := by
  induction qs generalizing p with
  | nil => rfl
  | cons q qs ih => exact (ih (p.add q)).trans (p.bounds_add q)

@[simp] theorem lastMoved_foldl_add (qs : List Piece) : (qs.foldl add p).lastMoved = p.lastMoved := by
  induction qs generalizing p with
  | nil => rfl
  | cons q qs ih => exact (ih (p.add q)).trans (p.lastMoved_add q)

/-- Pieces are listed in the order they are added, each for the side it faces as. -/
theorem pieces_foldl_add (qs : List Piece) (side : Side) :
    (qs.foldl add p).pieces side = p.pieces side ++ qs.filter (·.side = side) := by
  induction qs generalizing p with
  | nil => simp
  | cons q qs ih =>
    rw [List.foldl_cons, ih, add, pieces_setPieces, List.filter_cons]
    by_cases hside : q.side = side
    · subst hside
      simp
    · simp [hside, Ne.symm hside]

/-- Pieces that are added to an empty board. -/
theorem foldl_add_eq (b : Bounds) (qs : List Piece) :
    (qs.foldl add { bounds := b } : Position) =
      { bounds := b, white := qs.filter (·.side = .white), black := qs.filter (·.side = .black) } := by
  have hbounds : (qs.foldl add { bounds := b } : Position).bounds = b := bounds_foldl_add ..
  have hmoved : (qs.foldl add { bounds := b } : Position).lastMoved = none := lastMoved_foldl_add ..
  have hwhite := pieces_foldl_add (p := { bounds := b }) qs .white
  have hblack := pieces_foldl_add (p := { bounds := b }) qs .black
  cases hp : (qs.foldl add { bounds := b } : Position) with
  | mk bounds white black lastMoved =>
    rw [hp] at hbounds hmoved hwhite hblack
    simp only [pieces, List.nil_append] at hbounds hmoved hwhite hblack
    rw [hbounds, hmoved, hwhite, hblack]

theorem slot?_eq_some {id : PieceId} {slot : Slot} :
    p.slot? id = some slot ↔ slot.id = id ∧ p.piece? id = some slot.piece := by
  simp only [slot?, Option.map_eq_some_iff]
  constructor
  · rintro ⟨q, hq, rfl⟩
    exact ⟨rfl, hq⟩
  · rintro ⟨rfl, hq⟩
    exact ⟨slot.piece, hq, rfl⟩

theorem mem_slotsFrom {side : Side} {n : ℕ} {qs : List Piece} {slot : Slot} :
    slot ∈ slotsFrom side n qs ↔
      slot.id.side = side ∧ n ≤ slot.id.index ∧ qs[slot.id.index - n]? = some slot.piece := by
  induction qs generalizing n with
  | nil => simp [slotsFrom]
  | cons q qs ih =>
    obtain ⟨⟨s, i⟩, r⟩ := slot
    simp only [slotsFrom, List.mem_cons, Slot.mk.injEq, PieceId.mk.injEq, ih]
    constructor
    · rintro (⟨⟨rfl, rfl⟩, rfl⟩ | ⟨rfl, hle, hget⟩)
      · simp
      · refine ⟨rfl, by omega, ?_⟩
        rwa [show i - n = i - (n + 1) + 1 by omega, List.getElem?_cons_succ]
    · rintro ⟨rfl, hle, hget⟩
      rcases Nat.eq_or_lt_of_le hle with rfl | hlt
      · left
        simpa [eq_comm] using hget
      · right
        refine ⟨rfl, hlt, ?_⟩
        rwa [show i - n = i - (n + 1) + 1 by omega, List.getElem?_cons_succ] at hget

theorem mem_slots {side : Side} {slot : Slot} :
    slot ∈ p.slots side ↔ slot.id.side = side ∧ p.piece? slot.id = some slot.piece := by
  rw [slots, mem_slotsFrom, piece?]
  constructor
  · rintro ⟨rfl, -, h⟩
    exact ⟨rfl, h⟩
  · rintro ⟨rfl, h⟩
    exact ⟨rfl, Nat.zero_le _, h⟩

theorem getElem?_slotsFrom (side : Side) (n : ℕ) (qs : List Piece) (i : ℕ) :
    (slotsFrom side n qs)[i]? = qs[i]?.map fun q => ⟨⟨side, n + i⟩, q⟩ := by
  induction qs generalizing n i with
  | nil => rfl
  | cons q qs ih =>
    cases i with
    | zero => rfl
    | succ i =>
      have hindex : n + 1 + i = n + (i + 1) := by omega
      rw [slotsFrom, List.getElem?_cons_succ, List.getElem?_cons_succ, ih, hindex]

theorem getElem?_slots (side : Side) (i : ℕ) :
    (p.slots side)[i]? = (p.piece? ⟨side, i⟩).map fun q => ⟨⟨side, i⟩, q⟩ := by
  rw [slots, getElem?_slotsFrom, Nat.zero_add, piece?]

/-- Where pieces change and none is added, the slots stay in their places. -/
theorem slots_eq_map {q : Position} {f : PieceId → Piece → Piece}
    (h : ∀ id, q.piece? id = (p.piece? id).map (f id)) (side : Side) :
    q.slots side = (p.slots side).map fun slot => ⟨slot.id, f slot.id slot.piece⟩ := by
  apply List.ext_getElem?
  intro i
  rw [getElem?_slots, List.getElem?_map, getElem?_slots, h, Option.map_map, Option.map_map]
  rfl

theorem ids_slots (side : Side) :
    (p.slots side).map (·.id) = (List.range (p.pieces side).length).map (PieceId.mk side) := by
  apply List.ext_getElem?
  intro i
  rw [List.getElem?_map, getElem?_slots, List.getElem?_map, Option.map_map, piece?]
  by_cases hi : i < (p.pieces side).length
  · simp [hi]
  · simp [not_lt.mp hi]

theorem pairwise_slots (side : Side) : (p.slots side).Pairwise (fun a b => a.id.index < b.id.index) := by
  have hids : ((p.slots side).map (·.id)).Pairwise fun i j => i.index < j.index := by
    rw [ids_slots, List.pairwise_map]
    exact List.pairwise_lt_range
  rwa [List.pairwise_map] at hids

theorem mem_alive {side : Side} {slot : Slot} : slot ∈ p.alive side ↔
    slot.id.side = side ∧ p.piece? slot.id = some slot.piece ∧ slot.piece.isCaptured = false := by
  rw [alive, List.mem_filter, mem_slots, and_assoc, Bool.not_eq_true']

theorem alive_add_of_ne {q : Piece} {side : Side} (h : side ≠ q.side) :
    (p.add q).alive side = p.alive side := by
  rw [alive, alive, slots, slots, add, pieces_setPieces, if_neg h]

theorem mem_kings {side : Side} {slot : Slot} : slot ∈ p.kings side ↔
    slot.id.side = side ∧ p.piece? slot.id = some slot.piece ∧ slot.piece.isKing = true := by
  rw [kings, List.mem_filter, mem_slots, and_assoc]

theorem standingOn_eq_find? (s : Square) (side : Side) (n : ℕ) (qs : List Piece) :
    standingOn s side n qs =
      ((slotsFrom side n qs).filter (!·.piece.isCaptured)).find? (·.piece.square = s) := by
  induction qs generalizing n with
  | nil => rfl
  | cons q qs ih =>
    rw [standingOn, slotsFrom, List.filter_cons, ih]
    cases hcaptured : q.isCaptured with
    | true => simp
    | false => by_cases hsquare : q.square = s <;> simp [hsquare]

/-- The piece on a square is the first of the pieces still standing that is there. -/
theorem occupant?_eq_find? (s : Square) :
    p.occupant? s =
      if s ∈ p.bounds then p.allAlive.find? (·.piece.square = s) else none := by
  rw [occupant?, standingOn_eq_find?, standingOn_eq_find?, allAlive, List.find?_append]
  rfl

theorem mem_allAlive {slot : Slot} :
    slot ∈ p.allAlive ↔ p.piece? slot.id = some slot.piece ∧ slot.piece.isCaptured = false := by
  rw [allAlive, List.mem_append, mem_alive, mem_alive]
  cases hside : slot.id.side <;> simp

theorem occupant?_eq_none {s : Square} (hs : s ∈ p.bounds) :
    p.occupant? s = none ↔
      ∀ id q, p.piece? id = some q → q.isCaptured = false → q.square ≠ s := by
  rw [occupant?_eq_find?, if_pos hs, List.find?_eq_none]
  constructor
  · intro h id q hq hstands
    simpa using h ⟨id, q⟩ (p.mem_allAlive.mpr ⟨hq, hstands⟩)
  · intro h slot hslot
    obtain ⟨hq, hstands⟩ := p.mem_allAlive.mp hslot
    simpa using h slot.id slot.piece hq hstands

theorem of_occupant? {s : Square} {slot : Slot} (h : p.occupant? s = some slot) :
    s ∈ p.bounds ∧ p.piece? slot.id = some slot.piece ∧ slot.piece.square = s ∧
      slot.piece.isCaptured = false := by
  rw [occupant?_eq_find?] at h
  split at h
  · next hs =>
    obtain ⟨hq, hstands⟩ := p.mem_allAlive.mp (List.mem_of_find?_eq_some h)
    exact ⟨hs, hq, by simpa using List.find?_some h, hstands⟩
  · cases h

/-- A piece added on an empty square is found there. -/
theorem occupant?_add {q : Piece} (hboard : q.square ∈ p.bounds) (hempty : p.occupant? q.square = none)
    (hstands : q.isCaptured = false) :
    (p.add q).occupant? q.square = some ⟨p.nextId q.side, q⟩ := by
  have hboard' : q.square ∈ (p.add q).bounds := by rwa [bounds_add]
  have hnew := p.piece?_add_nextId q
  cases hoccupant : (p.add q).occupant? q.square with
  | none => exact absurd rfl ((occupant?_eq_none _ hboard').mp hoccupant _ q hnew hstands)
  | some slot =>
    obtain ⟨-, hpiece, hsquare, halive⟩ := of_occupant? _ hoccupant
    rcases p.of_piece?_add hpiece with hold | ⟨hid, hsame⟩
    · exact absurd hsquare ((p.occupant?_eq_none hboard).mp hempty _ _ hold halive)
    · rw [← hid, ← hsame]

theorem isEmpty_iff {s : Square} : p.isEmpty s = true ↔ p.occupant? s = none := by
  simp [isEmpty]

theorem hasLost_iff {side : Side} : p.hasLost side = true ↔
    ∃ id q, id.side = side ∧ p.piece? id = some q ∧ q.isKing = true ∧ q.isCaptured = true := by
  simp only [hasLost, List.any_eq_true, mem_kings]
  constructor
  · rintro ⟨slot, ⟨hside, hpiece, hking⟩, hcaptured⟩
    exact ⟨slot.id, slot.piece, hside, hpiece, hking, hcaptured⟩
  · rintro ⟨id, q, hside, hpiece, hking, hcaptured⟩
    exact ⟨⟨id, q⟩, ⟨hside, hpiece, hking⟩, hcaptured⟩

end Position

end FairyChess
