import FairyChess.Proofs.Move.Threat

/-!
A piece with another grammar. The other pieces keep their moves, and its side is under the same threats, so
long as the piece is a dummy by both grammars or by neither.
-/
namespace FairyChess

/-- The piece with another grammar. -/
def Piece.recast (g : Grammar) (q : Piece) : Piece :=
  { q with grammar := g }

/-- The slot where the piece with an id has another grammar. -/
def Slot.recast (id : PieceId) (g : Grammar) (slot : Slot) : Slot :=
  ⟨slot.id, if slot.id = id then slot.piece.recast g else slot.piece⟩

/-- The position where a piece has another grammar. -/
def Position.recast (p : Position) (id : PieceId) (g : Grammar) : Position :=
  p.modify id (Piece.recast g)

namespace Slot

variable (id : PieceId) (g : Grammar) (slot : Slot)

@[simp] theorem id_recast : (slot.recast id g).id = slot.id := rfl

theorem recast_cases : slot.recast id g = slot ∨ slot.recast id g = ⟨slot.id, slot.piece.recast g⟩ := by
  unfold recast
  split
  · exact .inr rfl
  · exact .inl rfl

@[simp] theorem square_recast : (slot.recast id g).piece.square = slot.piece.square := by
  rcases slot.recast_cases id g with h | h <;> rw [h]
  rfl

@[simp] theorem isCaptured_recast : (slot.recast id g).piece.isCaptured = slot.piece.isCaptured := by
  rw [Piece.isCaptured, square_recast, Piece.isCaptured]

@[simp] theorem behavior_recast : (slot.recast id g).piece.behavior = slot.piece.behavior := by
  rcases slot.recast_cases id g with h | h <;> rw [h]
  rfl

@[simp] theorem turns_recast : (slot.recast id g).piece.turns = slot.piece.turns := by
  rcases slot.recast_cases id g with h | h <;> rw [h]
  rfl

@[simp] theorem enPassant_recast : (slot.recast id g).piece.enPassant = slot.piece.enPassant := by
  rcases slot.recast_cases id g with h | h <;> rw [h]
  rfl

end Slot

namespace Position

variable {p : Position} {id : PieceId} {g : Grammar} {q : Piece}

@[simp] theorem bounds_recast : (p.recast id g).bounds = p.bounds := bounds_modify ..

@[simp] theorem lastMoved_recast : (p.recast id g).lastMoved = p.lastMoved := lastMoved_modify ..

theorem piece?_recast (other : PieceId) : (p.recast id g).piece? other =
    (p.piece? other).map fun q => if other = id then q.recast g else q := piece?_modify ..

theorem piece?_recast_self (hq : p.piece? id = some q) :
    (p.recast id g).piece? id = some (q.recast g) := by
  rw [recast, piece?_modify_self, hq, Option.map_some]

/-- The last grammar that a piece is given is the one it has. -/
theorem recast_recast (g g' : Grammar) : (p.recast id g).recast id g' = p.recast id g' := by
  apply ext_piece?
  · simp only [bounds_recast]
  · intro other
    simp only [piece?_recast, Option.map_map]
    apply congrArg (Option.map · _)
    funext q
    by_cases hid : other = id <;> simp [hid, Piece.recast]
  · simp only [lastMoved_recast]

theorem alive_recast (side : Side) :
    (p.recast id g).alive side = (p.alive side).map (Slot.recast id g) := by
  have hslots : (p.recast id g).slots side = (p.slots side).map (Slot.recast id g) :=
    p.slots_eq_map piece?_recast side
  rw [alive, hslots, List.filter_map, alive]
  congr 1
  apply List.filter_congr
  intro slot _
  rw [Function.comp_apply, Slot.isCaptured_recast]

theorem alive_recast_of_ne {side : Side} (h : side ≠ id.side) :
    (p.recast id g).alive side = p.alive side := by
  rw [alive, slots, recast, modify, pieces_setPieces, if_neg h, alive, slots]

theorem occupant?_recast (s : Square) :
    (p.recast id g).occupant? s = (p.occupant? s).map (Slot.recast id g) := by
  have hsquare : (fun slot : Slot => decide (slot.piece.square = s)) ∘ Slot.recast id g =
      fun slot => decide (slot.piece.square = s) := by
    funext slot
    rw [Function.comp_apply, Slot.square_recast]
  rw [occupant?_eq_find?, bounds_recast, allAlive, alive_recast, alive_recast, ← List.map_append,
    List.find?_map, hsquare, occupant?_eq_find?, allAlive]
  split <;> rfl

theorem isEmpty_recast (s : Square) : (p.recast id g).isEmpty s = p.isEmpty s := by
  rw [isEmpty, occupant?_recast, Option.isNone_map, isEmpty]

theorem nextId_recast (side : Side) : (p.recast id g).nextId side = p.nextId side := by
  rw [nextId, recast, modify, pieces_setPieces, nextId]
  split
  · next hside => rw [List.length_modify, hside]
  · rfl

theorem modify_recast {f : Piece → Piece} (hf : ∀ q, f (q.recast g) = (f q).recast g) (v : PieceId) :
    (p.recast id g).modify v f = (p.modify v f).recast id g := by
  apply ext_piece?
  · simp only [bounds_modify, bounds_recast]
  · intro other
    rw [piece?_modify, piece?_recast, piece?_recast, piece?_modify, Option.map_map, Option.map_map]
    apply congrArg (Option.map · _)
    funext q
    simp only [Function.comp_apply]
    split_ifs
    · exact hf q
    · rfl
    · rfl
    · rfl
  · simp only [lastMoved_modify, lastMoved_recast]

theorem add_recast {r : Piece} (hid : id ≠ p.nextId r.side) :
    (p.recast id g).add r = (p.add r).recast id g := by
  apply ext_piece?
  · simp only [bounds_add, bounds_recast]
  · intro other
    rw [piece?_recast]
    by_cases hother : other = p.nextId r.side
    · have hnew := (p.recast id g).piece?_add_nextId r
      rw [nextId_recast, ← hother] at hnew
      rw [hnew, hother, piece?_add_nextId, Option.map_some, if_neg hid.symm]
    · have hother' : other ≠ (p.recast id g).nextId r.side := by rwa [nextId_recast]
      rw [piece?_add_of_ne _ hother', piece?_recast, p.piece?_add_of_ne hother]
  · simp only [lastMoved_add, lastMoved_recast]

theorem firstAlong_recast (bounds : Bounds) (step : ℤ) (n : ℕ) (s : Square) :
    (p.recast id g).firstAlong bounds step n s =
      (p.firstAlong bounds step n s).map (Slot.recast id g) := by
  induction n generalizing s with
  | zero => rfl
  | succ n ih =>
    rw [firstAlong, occupant?_recast, ih, firstAlong]
    split
    · rw [Option.map_or]
    · rfl

section Rules

variable (hq : p.piece? id = some q) (hdummy : g.isDummy = q.isDummy)
include hq hdummy

theorem isDummy_recast {slot : Slot} (hslot : p.piece? slot.id = some slot.piece) :
    (slot.recast id g).piece.isDummy = slot.piece.isDummy := by
  unfold Slot.recast
  dsimp only
  split
  · next hid =>
    rw [hid, hq] at hslot
    rw [← Option.some.inj hslot, ← hdummy]
    rfl
  · rfl

theorem view_recast (s : Square) : (p.recast id g).view s = p.view s := by
  rw [view, occupant?_recast, view]
  cases hoccupant : p.occupant? s with
  | none => rfl
  | some slot =>
    obtain ⟨-, hslot, -⟩ := p.of_occupant? hoccupant
    rw [Option.map_some, Option.map_some, Option.map_some, Slot.id_recast, isDummy_recast hq hdummy hslot]

theorem enPassant?_recast (mover : Slot) (target : Square) :
    (p.recast id g).enPassant? mover target = p.enPassant? mover target := by
  unfold enPassant?
  rw [occupant?_recast]
  cases hoccupant : p.occupant? ⟨target.file, mover.piece.square.rank⟩ with
  | none => rfl
  | some victim =>
    obtain ⟨-, hvictim, -⟩ := p.of_occupant? hoccupant
    simp only [Option.map_some, Option.bind_eq_bind, Option.bind_some, Slot.id_recast,
      Slot.behavior_recast, Slot.enPassant_recast, Slot.turns_recast, lastMoved_recast,
      isDummy_recast hq hdummy hvictim]

theorem plainMove?_recast (mover : Slot) (target : Square) :
    (p.recast id g).plainMove? mover target = p.plainMove? mover target := by
  have halike : AlikeFor mover.piece (p.recast id g) p :=
    fun _ _ _ _ _ s _ => view_recast hq hdummy s
  have hgrammar : (p.recast id g).grammarMove? mover target ((p.recast id g).occupant? target) =
      p.grammarMove? mover target (p.occupant? target) := grammarMove?_congr halike
  unfold plainMove?
  rw [enPassant?_recast hq hdummy]
  rw [occupant?_recast] at hgrammar ⊢
  cases hoccupant : p.occupant? target with
  | none =>
    rw [hoccupant] at hgrammar
    simp only [Option.map_none] at hgrammar ⊢
    rw [hgrammar]
  | some other =>
    obtain ⟨-, hother, -⟩ := p.of_occupant? hoccupant
    rw [hoccupant] at hgrammar
    simp only [Option.map_some, Slot.id_recast, isDummy_recast hq hdummy hother] at hgrammar ⊢
    rw [hgrammar]

theorem canCapture_recast (a : Slot) (s : Square) (v : PieceId) :
    (p.recast id g).canCapture a s v = p.canCapture a s v := by
  have hmoves : (p.recast id g).plainMove? a = p.plainMove? a :=
    funext (plainMove?_recast hq hdummy a)
  simp only [canCapture, plainMoves, hmoves]

/-- The piece is among the pieces, with the grammar or without it, when its side's square is probed. -/
theorem probe_recast (s : Square) : ∃ probe victim r,
    p.probe s id.side = (probe, victim) ∧
      (p.recast id g).probe s id.side = (probe.recast id g, victim) ∧
      probe.piece? id = some r ∧ g.isDummy = r.isDummy := by
  have hphantom {x : Position} (hx : x.piece? id = some q) :
      (x.recast id g).add (.phantom s id.side x.bounds) =
          (x.add (.phantom s id.side x.bounds)).recast id g ∧
        (x.add (.phantom s id.side x.bounds)).piece? id = some q := by
    have hne := x.ne_nextId hx (Piece.phantom s id.side x.bounds).side
    exact ⟨add_recast hne, by rw [x.piece?_add_of_ne hne, hx]⟩
  unfold probe
  dsimp only
  rw [occupant?_recast]
  cases p.occupant? s with
  | none =>
    obtain ⟨hadd, hpiece⟩ := hphantom hq
    refine ⟨_, _, q, rfl, ?_, hpiece, hdummy⟩
    rw [Option.map_none, bounds_recast, nextId_recast, hadd]
  | some slot =>
    rw [Option.map_some]
    dsimp only
    rw [Slot.id_recast]
    by_cases hside : slot.id.side = id.side
    · exact ⟨_, _, q, if_pos hside, if_pos hside, hq, hdummy⟩
    · have hne : id ≠ slot.id := fun heq => hside (congrArg PieceId.side heq).symm
      have hkept : (p.modify slot.id Piece.capture).piece? id = some q := by
        rw [p.piece?_modify_of_ne hne, hq]
      obtain ⟨hadd, hpiece⟩ := hphantom hkept
      refine ⟨_, _, q, if_neg hside, ?_, hpiece, hdummy⟩
      rw [if_neg hside, modify_recast (f := Piece.capture) (fun _ => rfl), bounds_recast,
        nextId_recast, hadd]

/-- What threatens a square for a side does not depend on how the side's own pieces move. -/
theorem threats_recast (s : Square) : (p.recast id g).threats s id.side = p.threats s id.side := by
  obtain ⟨probe, victim, r, hprobe, hrecast, hr, hrdummy⟩ := probe_recast hq hdummy s
  have hcapture : (fun a => (probe.recast id g).canCapture a s victim) =
      fun a => probe.canCapture a s victim :=
    funext fun a => canCapture_recast hr hrdummy a s victim
  rw [threats, threats, bounds_recast, hprobe, hrecast]
  dsimp only
  rw [alive_recast_of_ne id.side.opposite_ne, hcapture]

theorem castle?_recast {king : Slot} (hside : king.id.side = id.side) (target : Square) :
    (p.recast id g).castle? king target = p.castle? king target := by
  have hsafe (s : Square) :
      ((p.recast id g).modify king.id (Piece.relocate s)).threats s king.id.side =
        (p.modify king.id (Piece.relocate s)).threats s king.id.side := by
    obtain ⟨r, hr, hrdummy⟩ : ∃ r, (p.modify king.id (Piece.relocate s)).piece? id = some r ∧
        g.isDummy = r.isDummy := by
      rw [piece?_modify, hq]
      refine ⟨_, rfl, ?_⟩
      split <;> exact hdummy
    rw [modify_recast (f := Piece.relocate s) (fun _ => rfl), hside, threats_recast hr hrdummy]
  unfold castle?
  simp only [isEmpty_recast, firstAlong_recast, hsafe]
  split
  swap
  · rfl
  cases p.firstAlong _ _ _ _ with
  | none => rfl
  | some rook =>
    simp only [Option.map_some, Option.bind_eq_bind, Option.bind_some, Slot.id_recast,
      Slot.behavior_recast, Slot.turns_recast, Slot.square_recast]

theorem moveOf?_recast {mover : Slot} (hside : mover.id.side = id.side) (target : Square) :
    (p.recast id g).moveOf? mover target = p.moveOf? mover target := by
  rw [moveOf?, plainMove?_recast hq hdummy, castle?_recast hq hdummy hside, moveOf?]

end Rules

section Movers

variable {target : Square}

theorem passedBy?_recast (q : Piece) (g : Grammar) (leaper : Bool) (route : Route) :
    p.passedBy? (q.recast g) leaper route = p.passedBy? q leaper route := by
  induction route with
  | nil => rfl
  | cons step rest ih =>
    rw [passedBy?, ih, passedBy?]
    rfl

theorem clausePasses?_recast (q : Piece) (g : Grammar) (c : Clause) :
    p.clausePasses? (q.recast g) target c = p.clausePasses? q target c := by
  have hpasses : p.passedBy? (q.recast g) c.leaper = p.passedBy? q c.leaper :=
    funext (passedBy?_recast q g c.leaper)
  rw [clausePasses?_eq_findSome?, clausePasses?_eq_findSome?, hpasses]
  rfl

/-- What a clause gives a piece does not depend on the other clauses. -/
theorem grammarMove?_recast (id : PieceId) (q : Piece) (g : Grammar) (occupant : Option Slot) :
    p.grammarMove? ⟨id, q.recast g⟩ target occupant = g.clauses.findSome? fun c =>
      if c.permits q occupant.isSome then
        (p.clausePasses? q target c).map fun passed => {
          mover := id
          origin := q.square
          target
          captured := ((occupant.map (·.id)).toList ++ passed).eraseDups }
      else none := by
  apply findSome?_congr
  intro c _
  dsimp only
  rw [clausePasses?_recast]
  rfl

end Movers

/-- Which of two grammars the piece has in the position itself makes no difference to its moves by one of them. -/
theorem move?_recast_eq_moveOf? {g g' : Grammar} {q : Piece} (hdummy : g.isDummy = g'.isDummy)
    (hq : p.piece? id = some q) (target : Square) :
    (p.recast id g').move? id target = (p.recast id g).moveOf? ⟨id, q.recast g'⟩ target := by
  rw [move?_eq_moveOf? (piece?_recast_self hq), ← recast_recast g g']
  exact moveOf?_recast (piece?_recast_self hq) hdummy.symm rfl target

theorem move?_recast_of_none {g : Grammar} (hq : p.piece? id = none) (target : Square) :
    (p.recast id g).move? id target = none := by
  simp only [move?, slot?, piece?_recast, hq, Option.map_none, Option.bind_eq_bind, Option.bind_none]

/-- A grammar that gives a piece a move wherever another does reaches all that the other reaches. -/
theorem isSome_move?_recast_mono {g g' : Grammar} {target : Square} (hdummy : g.isDummy = g'.isDummy)
    (h : ∀ q, p.piece? id = some q → ∀ occupant,
      ((p.recast id g).grammarMove? ⟨id, q.recast g⟩ target occupant).isSome →
        ((p.recast id g).grammarMove? ⟨id, q.recast g'⟩ target occupant).isSome)
    (hmove : ((p.recast id g).move? id target).isSome) : ((p.recast id g').move? id target).isSome := by
  cases hq : p.piece? id with
  | none =>
    rw [move?_recast_of_none hq] at hmove
    cases hmove
  | some q =>
    have hplain (hsome : ((p.recast id g).plainMove? ⟨id, q.recast g⟩ target).isSome) :
        ((p.recast id g).plainMove? ⟨id, q.recast g'⟩ target).isSome := by
      obtain ⟨hstands, htarget, hfree, hsome⟩ := isSome_plainMove?_iff.mp hsome
      exact isSome_plainMove?_iff.mpr ⟨hstands, htarget, hfree, hsome.imp_left (h q hq _)⟩
    rw [move?_recast_eq_moveOf? rfl hq, moveOf?, Option.isSome_or, Bool.or_eq_true] at hmove
    rw [move?_recast_eq_moveOf? hdummy hq, moveOf?, Option.isSome_or, Bool.or_eq_true]
    exact hmove.imp_left hplain

end Position

end FairyChess
