import FairyChess.Move.Apply
import FairyChess.Move.Legal
import FairyChess.Proofs.Bounds
import FairyChess.Proofs.Position.Lookup

/-! What there is to know of a move that the rules, or no rules, allow. -/
namespace FairyChess.Position

variable {p : Position} {mover : Slot} {target : Square} {m : Move}

theorem of_grammarMove? {occupant : Option Slot}
    (h : p.grammarMove? mover target occupant = some m) :
    ∃ c ∈ mover.piece.grammar.clauses, c.permits mover.piece occupant.isSome ∧
      ∃ passed, p.clausePasses? mover.piece target c = some passed ∧
        m = {
          mover := mover.id
          origin := mover.piece.square
          target
          captured := ((occupant.map (·.id)).toList ++ passed).eraseDups } := by
  obtain ⟨c, hc, hclause⟩ := List.exists_of_findSome?_eq_some h
  split at hclause
  · next hpermits =>
    obtain ⟨passed, hpassed, rfl⟩ := Option.map_eq_some_iff.mp hclause
    exact ⟨c, hc, hpermits, passed, hpassed, rfl⟩
  · cases hclause

theorem of_enPassant? (h : p.enPassant? mover target = some m) :
    mover.piece.behavior.pawnLike ∧
      ∃ victim, p.occupant? ⟨target.file, mover.piece.square.rank⟩ = some victim ∧
        (victim.id.side ≠ mover.id.side ∧ victim.piece.behavior.pawnLike ∧ victim.piece.enPassant ∧
          victim.piece.turns = 1 ∧ p.lastMoved = some victim.id ∧ !victim.piece.isDummy ∧
          enPassantStep.allows mover.piece.frame mover.piece.square target) ∧
        m = {
          mover := mover.id
          origin := mover.piece.square
          target
          captured := [victim.id]
          special := .enPassant } := by
  unfold enPassant? at h
  split at h
  · next hpawn =>
    obtain ⟨victim, hvictim, hmove⟩ := Option.bind_eq_some_iff.mp h
    split at hmove
    · next heligible => exact ⟨hpawn, victim, hvictim, heligible, (Option.some.inj hmove).symm⟩
    · cases hmove
  · cases h

theorem of_plainMove? (h : p.plainMove? mover target = some m) :
    mover.piece.isCaptured = false ∧ target ∈ mover.piece.bounds ∧
      ((∃ other, p.occupant? target = some other ∧ other.id.side ≠ mover.id.side ∧
          other.piece.isDummy = false ∧ p.grammarMove? mover target (some other) = some m) ∨
        (p.occupant? target = none ∧
          (p.grammarMove? mover target none = some m ∨ p.enPassant? mover target = some m))) := by
  unfold plainMove? at h
  split at h
  · cases h
  · next hstands =>
    simp only [Bool.or_eq_true, Bool.not_eq_true', decide_eq_false_iff_not, not_or, not_not,
      Bool.not_eq_true] at hstands
    refine ⟨hstands.1, hstands.2, ?_⟩
    cases hoccupant : p.occupant? target with
    | some other =>
      simp only [hoccupant] at h
      split at h
      · cases h
      · next hother =>
        simp only [not_or, Bool.not_eq_true] at hother
        exact .inl ⟨other, rfl, hother.1, hother.2, h⟩
    | none =>
      simp only [hoccupant] at h
      refine .inr ⟨rfl, ?_⟩
      rcases Option.or_eq_some_iff.mp h with hgrammar | ⟨-, henPassant⟩
      · exact .inl hgrammar
      · exact .inr henPassant

/-- Where a piece that stands can go: to a square of its board with no friend and no dummy. -/
theorem isSome_plainMove?_iff : (p.plainMove? mover target).isSome ↔
    mover.piece.isCaptured = false ∧ target ∈ mover.piece.bounds ∧
      (∀ other, p.occupant? target = some other →
        other.id.side ≠ mover.id.side ∧ other.piece.isDummy = false) ∧
      ((p.grammarMove? mover target (p.occupant? target)).isSome ∨
        p.occupant? target = none ∧ (p.enPassant? mover target).isSome) := by
  unfold plainMove?
  by_cases hstands : mover.piece.isCaptured || !decide (target ∈ mover.piece.bounds)
  · rw [if_pos hstands]
    refine iff_of_false nofun fun ⟨hcaptured, htarget, _⟩ => ?_
    simp [hcaptured, htarget] at hstands
  rw [if_neg hstands]
  simp only [Bool.or_eq_true, Bool.not_eq_true', decide_eq_false_iff_not, not_or, not_not,
    Bool.not_eq_true] at hstands
  obtain ⟨hcaptured, htarget⟩ := hstands
  cases p.occupant? target with
  | none => simp [hcaptured, htarget]
  | some other =>
    by_cases hother : other.id.side = mover.id.side ∨ other.piece.isDummy
    · refine iff_of_false ?_ fun ⟨_, _, hfree, _⟩ => ?_
      · dsimp only
        rw [if_pos hother]
        exact Bool.false_ne_true
      · obtain ⟨hside, hdummy⟩ := hfree other rfl
        simp [hside, hdummy] at hother
    · dsimp only
      rw [if_neg hother]
      simp only [not_or, Bool.not_eq_true] at hother
      simp [hcaptured, htarget, hother]

theorem special_of_plainMove? (h : p.plainMove? mover target = some m) :
    m.special = .normal ∨ m.special = .enPassant := by
  obtain ⟨-, -, ⟨other, -, -, -, hmove⟩ | ⟨-, hmove | hmove⟩⟩ := of_plainMove? h
  · obtain ⟨c, -, -, passed, -, rfl⟩ := of_grammarMove? hmove
    exact .inl rfl
  · obtain ⟨c, -, -, passed, -, rfl⟩ := of_grammarMove? hmove
    exact .inl rfl
  · obtain ⟨-, victim, -, -, rfl⟩ := of_enPassant? hmove
    exact .inr rfl

theorem of_castle? {king : Slot} (h : p.castle? king target = some m) :
    let home := king.piece.square
    let step := (target.file - home.file).sign
    let passed : Square := ⟨home.file + step, home.rank⟩
    let safe (s : Square) : Bool :=
      ((p.modify king.id (Piece.relocate s)).threats s king.id.side).isEmpty
    (king.piece.behavior.castleRole = some .king ∧ king.piece.turns = 0 ∧ !king.piece.isCaptured ∧
      target ∈ king.piece.bounds ∧ p.isEmpty target ∧ target.rank = home.rank ∧
      (target.file - home.file).natAbs = 2) ∧
    ∃ rook, p.firstAlong king.piece.bounds step
        (king.piece.bounds.right - king.piece.bounds.left).toNat passed = some rook ∧
      (rook.id.side = king.id.side ∧ rook.piece.behavior.castleRole = some .rook ∧
        rook.piece.turns = 0 ∧ 3 ≤ (rook.piece.square.file - home.file).natAbs ∧
        safe home ∧ safe passed ∧ safe target) ∧
      m = {
        mover := king.id
        origin := home
        target
        special := .castle rook.id rook.piece.square passed } := by
  intro home step passed safe
  unfold castle? at h
  dsimp only at h
  split at h
  · next hking =>
    obtain ⟨rook, hrook, hmove⟩ := Option.bind_eq_some_iff.mp h
    split at hmove
    · next hsafe => exact ⟨hking, rook, hrook, hsafe, (Option.some.inj hmove).symm⟩
    · cases hmove
  · cases h

theorem of_moveOf? (h : p.moveOf? mover target = some m) :
    p.plainMove? mover target = some m ∨ p.castle? mover target = some m := by
  rcases Option.or_eq_some_iff.mp h with hplain | ⟨-, hcastle⟩
  · exact .inl hplain
  · exact .inr hcastle

/-- Castling captures nothing, and whatever else captures does so by the grammar or en passant. -/
theorem plainMove?_of_captures (h : p.moveOf? mover target = some m) {id : PieceId}
    (hid : id ∈ m.captured) : p.plainMove? mover target = some m := by
  refine (of_moveOf? h).resolve_right fun hcastle => ?_
  obtain ⟨-, rook, -, -, rfl⟩ := of_castle? hcastle
  cases hid

/-- Only a piece that stands moves, and it goes to a square of its board. -/
theorem stands_of_moveOf? (h : p.moveOf? mover target = some m) :
    mover.piece.isCaptured = false ∧ target ∈ mover.piece.bounds := by
  rcases of_moveOf? h with hplain | hcastle
  · obtain ⟨hstands, htarget, -⟩ := of_plainMove? hplain
    exact ⟨hstands, htarget⟩
  · obtain ⟨⟨-, -, hstands, htarget, -⟩, -⟩ := of_castle? hcastle
    exact ⟨by simpa using hstands, htarget⟩

/-- A move with a rook is by castling. -/
theorem castle?_of_rook? (h : p.moveOf? mover target = some m) {rook : PieceId}
    (hrook : m.rook? = some rook) : p.castle? mover target = some m := by
  rcases of_moveOf? h with hplain | hcastle
  · rcases special_of_plainMove? hplain with hspecial | hspecial <;> simp [Move.rook?, hspecial] at hrook
  · exact hcastle

/-- A legal move is a move of its piece from where that stands to its target. -/
theorem ends_of_moveOf? (h : p.moveOf? mover target = some m) :
    m.mover = mover.id ∧ m.origin = mover.piece.square ∧ m.target = target := by
  rcases of_moveOf? h with hplain | hcastle
  · obtain ⟨-, -, ⟨other, -, -, -, hmove⟩ | ⟨-, hmove | hmove⟩⟩ := of_plainMove? hplain
    · obtain ⟨c, -, -, passed, -, rfl⟩ := of_grammarMove? hmove
      exact ⟨rfl, rfl, rfl⟩
    · obtain ⟨c, -, -, passed, -, rfl⟩ := of_grammarMove? hmove
      exact ⟨rfl, rfl, rfl⟩
    · obtain ⟨-, victim, -, -, rfl⟩ := of_enPassant? hmove
      exact ⟨rfl, rfl, rfl⟩
  · obtain ⟨-, rook, -, -, rfl⟩ := of_castle? hcastle
    exact ⟨rfl, rfl, rfl⟩

theorem of_move? {id : PieceId} (h : p.move? id target = some m) :
    ∃ q, p.piece? id = some q ∧ p.moveOf? ⟨id, q⟩ target = some m := by
  obtain ⟨slot, hslot, hmove⟩ := Option.bind_eq_some_iff.mp h
  obtain ⟨rfl, hpiece⟩ := p.slot?_eq_some.mp hslot
  exact ⟨slot.piece, hpiece, hmove⟩

theorem move?_eq_moveOf? {id : PieceId} {q : Piece} (hq : p.piece? id = some q) (target : Square) :
    p.move? id target = p.moveOf? ⟨id, q⟩ target := by
  have hslot : p.slot? id = some ⟨id, q⟩ := p.slot?_eq_some.mpr ⟨rfl, hq⟩
  rw [move?, hslot]
  rfl

theorem of_forcedMove? {id : PieceId} (h : p.forcedMove? id target = some m) :
    ∃ q, p.piece? id = some q ∧ q.isCaptured = false ∧ target ∈ q.bounds ∧
      p.occupant? target = none ∧ m = { mover := id, origin := q.square, target } := by
  obtain ⟨q, hq, hmove⟩ := Option.bind_eq_some_iff.mp h
  split at hmove
  · cases hmove
  · next hfree =>
    simp only [Bool.or_eq_true, Bool.not_eq_true', decide_eq_false_iff_not, not_or, not_not,
      Bool.not_eq_true, Bool.not_eq_false, isEmpty_iff] at hfree
    exact ⟨q, hq, hfree.1.1, hfree.1.2, hfree.2, (Option.some.inj hmove).symm⟩

theorem of_forcedCapture? {id victim : PieceId} (h : p.forcedCapture? id victim = some m) :
    ∃ q v, p.piece? id = some q ∧ p.piece? victim = some v ∧ q.isCaptured = false ∧
      v.isCaptured = false ∧ victim.side ≠ id.side ∧
      m = { mover := id, origin := q.square, target := v.square, captured := [victim] } := by
  obtain ⟨q, hq, h⟩ := Option.bind_eq_some_iff.mp h
  obtain ⟨v, hv, hmove⟩ := Option.bind_eq_some_iff.mp h
  split at hmove
  · cases hmove
  · next hstand =>
    simp only [Bool.or_eq_true, not_or, Bool.not_eq_true, beq_eq_false_iff_ne] at hstand
    exact ⟨q, v, hq, hv, hstand.1.1, hstand.1.2, hstand.2, (Option.some.inj hmove).symm⟩

/-- All legal moves of a piece are listed. -/
theorem mem_movesOf : m ∈ p.movesOf mover ↔ ∃ target, p.moveOf? mover target = some m := by
  unfold movesOf
  constructor
  · intro h
    split at h
    · cases h
    · obtain ⟨target, -, hmove⟩ := List.mem_filterMap.mp h
      exact ⟨target, hmove⟩
  · rintro ⟨target, hmove⟩
    obtain ⟨hstands, htarget⟩ := stands_of_moveOf? hmove
    rw [if_neg (Bool.eq_false_iff.mp hstands)]
    exact List.mem_filterMap.mpr ⟨target, Bounds.mem_squares.mpr htarget, hmove⟩

/-- The moves that are listed for a side are the legal moves of its pieces. -/
theorem mem_moves {side : Side} :
    m ∈ p.moves side ↔ m.mover.side = side ∧ p.move? m.mover m.target = some m := by
  rw [moves, List.mem_flatMap]
  constructor
  · rintro ⟨slot, hslot, hm⟩
    obtain ⟨hside, hpiece, -⟩ := p.mem_alive.mp hslot
    obtain ⟨target, hmove⟩ := mem_movesOf.mp hm
    obtain ⟨hid, -, rfl⟩ := ends_of_moveOf? hmove
    have hget : p.slot? m.mover = some slot := p.slot?_eq_some.mpr ⟨hid.symm, hid ▸ hpiece⟩
    exact ⟨hid ▸ hside, by rw [move?, hget]; exact hmove⟩
  · rintro ⟨hside, hlegal⟩
    obtain ⟨q, hq, hmove⟩ := of_move? hlegal
    obtain ⟨hstands, -⟩ := stands_of_moveOf? hmove
    exact ⟨⟨m.mover, q⟩, p.mem_alive.mpr ⟨hside, hq, hstands⟩, mem_movesOf.mpr ⟨m.target, hmove⟩⟩

theorem mover_of_mem_moves {side : Side} (h : m ∈ p.moves side) :
    ∃ q, p.piece? m.mover = some q ∧ q.isCaptured = false ∧ q.square = m.origin := by
  obtain ⟨q, hq, hmove⟩ := of_move? (mem_moves.mp h).2
  obtain ⟨-, horigin, -⟩ := ends_of_moveOf? hmove
  obtain ⟨hstands, -⟩ := stands_of_moveOf? hmove
  exact ⟨q, hq, hstands, horigin.symm⟩

end FairyChess.Position
