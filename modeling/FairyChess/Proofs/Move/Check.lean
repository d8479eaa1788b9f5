import FairyChess.Proofs.Move.Captures
import FairyChess.Proofs.Move.Threat

/-!
Check. Threats to a king are looked for without castling, and mostly on its own square only, but a side is in
check just when one of the legal moves of the other side captures a king.
-/
namespace FairyChess.Position

variable {p : Position} {a v : Slot} {m : Move} {side : Side}

/-- Only pawn-like pieces are captured en passant. -/
theorem pawnLike_of_enPassant (hv : p.piece? v.id = some v.piece) {target : Square}
    (h : p.moveOf? a target = some m) (hspecial : m.special = .enPassant) (hcaptured : v.id ∈ m.captured) :
    v.piece.behavior.pawnLike = true := by
  have hplain := plainMove?_of_captures h hcaptured
  obtain ⟨-, -, hmove⟩ := (plainMove?_cases hplain).resolve_left fun h => h.1 hspecial
  obtain ⟨-, victim, hvictim, ⟨-, hpawn, -⟩, rfl⟩ := of_enPassant? hmove
  obtain ⟨-, hpiece, -, -⟩ := p.of_occupant? hvictim
  rw [← List.mem_singleton.mp hcaptured, hv] at hpiece
  rwa [Option.some.inj hpiece]

/-- A piece that is not pawn-like is threatened by the owners of the legal moves that capture it. -/
theorem WellFormed.mem_threats_iff (hp : p.WellFormed) (hv : p.piece? v.id = some v.piece)
    (hstands : v.piece.isCaptured = false) (hpawn : v.piece.behavior.pawnLike = false) {id : PieceId} :
    id ∈ p.threats v.piece.square v.id.side ↔
      ∃ m ∈ p.moves v.id.side.opposite, m.mover = id ∧ v.id ∈ m.captured := by
  rw [mem_threats (hp.occupant?_eq v hv hstands)]
  constructor
  · rintro ⟨a, ha, hcapture, rfl⟩
    obtain ⟨m, hm, hcaptured, -⟩ := (hp.canCapture_iff hv hstands).mp hcapture
    obtain ⟨target, hmove⟩ := mem_movesOf.mp hm
    exact ⟨m, List.mem_flatMap.mpr ⟨a, ha, hm⟩, (ends_of_moveOf? hmove).1, hcaptured⟩
  · rintro ⟨m, hm, rfl, hcaptured⟩
    obtain ⟨a, ha, hm⟩ := List.mem_flatMap.mp hm
    obtain ⟨target, hmove⟩ := mem_movesOf.mp hm
    refine ⟨a, ha, (hp.canCapture_iff hv hstands).mpr ⟨m, hm, hcaptured, fun hspecial => ?_⟩,
      (ends_of_moveOf? hmove).1.symm⟩
    have := pawnLike_of_enPassant hv hmove hspecial hcaptured
    simp [hpawn] at this

/-- The pieces that threaten a king of the side. -/
def attackers (p : Position) (side : Side) : List PieceId :=
  ((p.kings side).flatMap fun king => p.threats king.piece.square side).eraseDups

theorem checkStatus_eq (h : p.hasLost side = false) :
    p.checkStatus side = if p.attackers side = [] then .safe else .check (p.attackers side) := by
  have hempty : p.attackers side = [] ↔ (p.attackers side).isEmpty = true := List.isEmpty_iff.symm
  simp only [checkStatus, h, hempty]
  rfl

theorem inCheck_iff (h : p.hasLost side = false) : p.inCheck side = true ↔ p.attackers side ≠ [] := by
  rw [inCheck, checkStatus_eq h]
  by_cases hempty : p.attackers side = [] <;> simp [hempty]

theorem WellFormed.mem_attackers (hp : p.WellFormed)
    (hkings : ∀ king ∈ p.kings side, king.piece.isCaptured = false ∧ king.piece.behavior.pawnLike = false)
    {id : PieceId} : id ∈ p.attackers side ↔ ∃ m ∈ p.moves side.opposite, m.mover = id ∧
      ∃ king ∈ p.kings side, king.id ∈ m.captured := by
  have hking {king : Slot} (hmem : king ∈ p.kings side) : id ∈ p.threats king.piece.square side ↔
      ∃ m ∈ p.moves side.opposite, m.mover = id ∧ king.id ∈ m.captured := by
    obtain ⟨rfl, hpiece, -⟩ := p.mem_kings.mp hmem
    obtain ⟨hstands, hpawn⟩ := hkings king hmem
    exact hp.mem_threats_iff hpiece hstands hpawn
  rw [attackers, List.mem_eraseDups, List.mem_flatMap]
  constructor
  · rintro ⟨king, hmem, hthreat⟩
    obtain ⟨m, hm, hid, hcaptured⟩ := (hking hmem).mp hthreat
    exact ⟨m, hm, hid, king, hmem, hcaptured⟩
  · rintro ⟨m, hm, hid, king, hmem, hcaptured⟩
    exact ⟨king, hmem, (hking hmem).mpr ⟨m, hm, hid, hcaptured⟩⟩

/--
While the kings of a side stand and none of them is pawn-like, the side is in check if and only if a legal
move of the other side captures a king, and its attackers are the pieces with such a move, once each.
-/
theorem WellFormed.check_iff (hp : p.WellFormed)
    (hkings : ∀ king ∈ p.kings side, king.piece.isCaptured = false ∧ king.piece.behavior.pawnLike = false) :
    (p.inCheck side = true ↔
      ∃ m ∈ p.moves side.opposite, ∃ king ∈ p.kings side, king.id ∈ m.captured) ∧
    ∃ attackers : List PieceId,
      p.checkStatus side = (if attackers = [] then .safe else .check attackers) ∧ attackers.Nodup ∧
        ∀ id, id ∈ attackers ↔ ∃ m ∈ p.moves side.opposite, m.mover = id ∧
          ∃ king ∈ p.kings side, king.id ∈ m.captured := by
  have hlost : p.hasLost side = false := by
    rw [hasLost, List.any_eq_false]
    intro king hmem
    simp [(hkings king hmem).1]
  refine ⟨?_, p.attackers side, checkStatus_eq hlost, nodup_eraseDups _, fun id => hp.mem_attackers hkings⟩
  rw [inCheck_iff hlost]
  constructor
  · intro hattackers
    obtain ⟨id, hid⟩ := List.exists_mem_of_ne_nil _ hattackers
    obtain ⟨m, hm, -, htakes⟩ := (hp.mem_attackers hkings).mp hid
    exact ⟨m, hm, htakes⟩
  · rintro ⟨m, hm, htakes⟩
    exact List.ne_nil_of_mem ((hp.mem_attackers hkings).mpr ⟨m, hm, rfl, htakes⟩)

/-- One of two kings can be jumped by a man, and the other taken by a rook. -/
theorem check_iff_jumped :
    let board : Bounds := { left := 0, right := 4, bottom := 0, top := 4 }
    let jump : Step := { shape := .diagonal, distance := .single (.exact 2), gait := { locust := true } }
    let man : Piece := { Piece.phantom ⟨2, 2⟩ .black board with
      grammar := { clauses := [{ source := "^2x", pattern := .step jump }] } }
    let p := ([man] ++ (Piece.standard? .king ⟨1, 1⟩ .white board).toList ++
      (Piece.standard? .king ⟨3, 0⟩ .white board).toList ++
      (Piece.standard? .rook ⟨3, 3⟩ .black board).toList).foldl Position.add { bounds := board }
    p.WellFormed ∧
      (∀ king ∈ p.kings .white, king.piece.isCaptured = false ∧ king.piece.behavior.pawnLike = false) ∧
      p.checkStatus .white = .check [⟨.black, 0⟩, ⟨.black, 1⟩] ∧
      ∀ id, id ∈ [(⟨.black, 0⟩ : PieceId), ⟨.black, 1⟩] ↔ ∃ m ∈ p.moves .black, m.mover = id ∧
        ∃ king ∈ p.kings .white, king.id ∈ m.captured := by
  intro board jump man p
  have hp : p.WellFormed :=
    (regular_foldl_add (by decide) (by decide) (by decide) (by decide)).toWellFormed
  have hkings : ∀ king ∈ p.kings .white,
      king.piece.isCaptured = false ∧ king.piece.behavior.pawnLike = false := by
    decide
  have hstatus : p.checkStatus .white = .check [⟨.black, 0⟩, ⟨.black, 1⟩] := by cbv
  obtain ⟨-, attackers, hattackers, -, hmem⟩ := hp.check_iff hkings
  have hlist : attackers = [⟨.black, 0⟩, ⟨.black, 1⟩] := by
    rw [hstatus] at hattackers
    split at hattackers
    · cases hattackers
    · exact (CheckStatus.check.inj hattackers).symm
  rw [hlist] at hmem
  exact ⟨hp, hkings, hstatus, hmem⟩

end FairyChess.Position
