import FairyChess.Proofs.Move.Passage
import FairyChess.Proofs.Position.WellFormed
import Mathlib

/-! What a legal move captures: enemies that stand and are no dummies, once each. -/
namespace FairyChess

theorem nodup_eraseDups {α : Type} [BEq α] [LawfulBEq α] (xs : List α) :
    xs.eraseDups.Nodup := by
  induction hn : xs.length using Nat.strong_induction_on generalizing xs with
  | _ n ih =>
    cases xs with
    | nil => simp
    | cons x xs =>
      have hlt : (xs.filter fun y => !y == x).length < n := by
        rw [← hn, List.length_cons]
        exact Nat.lt_succ_of_le (List.length_filter_le _ _)
      rw [List.eraseDups_cons, List.nodup_cons]
      exact ⟨by simp [List.mem_eraseDups], ih _ hlt _ rfl⟩

namespace Position

variable {p : Position} {mover : Slot} {id : PieceId} {target : Square} {m : Move}

theorem nodup_captured (h : p.moveOf? mover target = some m) : m.captured.Nodup := by
  rcases of_moveOf? h with hplain | hcastle
  · rcases plainMove?_cases hplain with ⟨-, hmove, -⟩ | ⟨-, -, hmove⟩
    · obtain ⟨c, -, -, passed, -, rfl⟩ := of_grammarMove? hmove
      exact nodup_eraseDups _
    · obtain ⟨-, victim, -, -, rfl⟩ := of_enPassant? hmove
      exact List.nodup_singleton _
  · obtain ⟨-, rook, -, -, rfl⟩ := of_castle? hcastle
    exact List.nodup_nil

/-- The piece on the target is the first that a move captures. -/
theorem head?_captured (h : p.moveOf? mover target = some m) {other : Slot}
    (hother : p.occupant? target = some other) : m.captured.head? = some other.id := by
  rcases of_moveOf? h with hplain | hcastle
  · rcases plainMove?_cases hplain with ⟨-, hmove, -⟩ | ⟨-, hempty, -⟩
    · obtain ⟨c, -, -, passed, -, rfl⟩ := of_grammarMove? hmove
      rw [hother, Option.map_some, Option.toList_some, List.singleton_append, List.eraseDups_cons,
        List.head?_cons]
    · rw [hempty] at hother
      cases hother
  · obtain ⟨⟨-, -, -, -, hempty, -⟩, -⟩ := of_castle? hcastle
    rw [p.isEmpty_iff.mp hempty] at hother
    cases hother

/-- En passant is to an empty square, and takes one piece that stands elsewhere. -/
theorem captured_of_enPassant (h : p.moveOf? mover target = some m) (hspecial : m.special = .enPassant) :
    ∃ v r, m.captured = [v] ∧ p.piece? v = some r ∧ r.square ≠ target := by
  rcases of_moveOf? h with hplain | hcastle
  · obtain ⟨-, hempty, hmove⟩ := (plainMove?_cases hplain).resolve_left fun h => h.1 hspecial
    obtain ⟨-, victim, hvictim, -, rfl⟩ := of_enPassant? hmove
    obtain ⟨-, hpiece, hsquare, -⟩ := p.of_occupant? hvictim
    refine ⟨victim.id, victim.piece, rfl, hpiece, fun htarget => ?_⟩
    rw [← hsquare, htarget, hempty] at hvictim
    cases hvictim
  · obtain ⟨-, rook, -, -, rfl⟩ := of_castle? hcastle
    cases hspecial

/-- What a move captures stands on the board and is no dummy. -/
theorem stands_of_mem_captured (h : p.moveOf? mover target = some m) (hid : id ∈ m.captured) :
    ∃ r, p.piece? id = some r ∧ r.isCaptured = false ∧ r.isDummy = false := by
  obtain ⟨-, -, s, slot, hslot, rfl, -, hdummy⟩ :=
    prey_of_mem_captured (plainMove?_of_captures h hid) hid
  obtain ⟨-, hpiece, -, hstands⟩ := p.of_occupant? hslot
  exact ⟨slot.piece, hpiece, hstands, hdummy⟩

/-- What a piece that faces as its side captures is an enemy. -/
theorem enemy_of_mem_captured (h : p.moveOf? mover target = some m)
    (hfiled : mover.piece.side = mover.id.side) (hid : id ∈ m.captured) :
    id.side ≠ mover.id.side := by
  obtain ⟨side, hside, s, slot, -, rfl, henemy, -⟩ :=
    prey_of_mem_captured (plainMove?_of_captures h hid) hid
  have hmover : side = mover.id.side := by simpa [hfiled] using hside
  exact hmover ▸ henemy

/-- A captured piece is none of those that the move takes to another square. -/
theorem effect_of_captured {v : PieceId} (hfiled : ∀ id q, p.piece? id = some q → q.side = id.side)
    (h : p.move? id target = some m) (hv : v ∈ m.captured) (choice : Option Kind) (r : Piece) :
    m.effect choice v r = r.capture := by
  obtain ⟨q, hq, hmove⟩ := of_move? h
  obtain ⟨hmover, -, -⟩ := ends_of_moveOf? hmove
  have henemy : v.side ≠ id.side := enemy_of_mem_captured hmove (hfiled id q hq) hv
  rcases m.effect_cases choice v r with
    ⟨rfl, -⟩ | ⟨-, rookFrom, rookTo, hspecial, -⟩ | ⟨-, heffect⟩ | ⟨huntouched, -⟩
  · exact absurd (congrArg PieceId.side hmover) henemy
  · rw [(Offers.legal h).captured_of_castle hspecial] at hv
    cases hv
  · exact heffect
  · exact absurd (Move.touched_of_captured hv) huntouched

namespace WellFormed

/-- A piece that moves stands on the board, and goes to another square of it. -/
theorem target_of_moveOf? (hp : p.WellFormed) (hmover : p.piece? mover.id = some mover.piece)
    (h : p.moveOf? mover target = some m) :
    mover.piece.isCaptured = false ∧ target ∈ p.bounds ∧ target ≠ mover.piece.square := by
  have hbounds := hp.bounds hmover
  rcases of_moveOf? h with hplain | hcastle
  · obtain ⟨hstands, htarget, hcases⟩ := of_plainMove? hplain
    rw [hbounds] at htarget
    refine ⟨hstands, htarget, ?_⟩
    rintro rfl
    -- The piece itself is what its own square holds.
    rw [hp.occupant?_eq mover hmover hstands] at hcases
    rcases hcases with ⟨other, hother, hside, -⟩ | ⟨hempty, -⟩
    · rw [← Option.some.inj hother] at hside
      exact hside rfl
    · cases hempty
  · obtain ⟨⟨-, -, hstands, htarget, -, -, hfar⟩, -⟩ := of_castle? hcastle
    rw [hbounds] at htarget
    refine ⟨by simpa using hstands, htarget, ?_⟩
    rintro rfl
    simp at hfar

/--
A legal move is to another square of the board. It captures enemies that stand and are no dummies, each
once and the one on the target first. Castling captures nothing, and en passant one piece, which is not
on the target.
-/
theorem captures_of_move? (hp : p.WellFormed)
    (hfiled : ∀ id q, p.piece? id = some q → q.side = id.side) (h : p.move? id target = some m) :
    (∃ q, p.piece? id = some q ∧ q.isCaptured = false ∧ m.origin = q.square ∧
        m.target ≠ q.square) ∧
      m.mover = id ∧ m.target = target ∧ target ∈ p.bounds ∧ m.captured.Nodup ∧
      (∀ v ∈ m.captured, v.side ≠ id.side ∧
        ∃ r, p.piece? v = some r ∧ r.isCaptured = false ∧ r.isDummy = false) ∧
      (∀ other, p.occupant? target = some other → m.captured.head? = some other.id) ∧
      (∀ rook rookFrom rookTo, m.special = .castle rook rookFrom rookTo → m.captured = []) ∧
      (m.special = .enPassant →
        ∃ v r, m.captured = [v] ∧ p.piece? v = some r ∧ r.square ≠ target) := by
  obtain ⟨q, hq, hmove⟩ := of_move? h
  obtain ⟨hmover, horigin, htarget⟩ := ends_of_moveOf? hmove
  obtain ⟨hstands, hmem, hne⟩ := hp.target_of_moveOf? hq hmove
  rw [← htarget] at hne
  exact ⟨⟨q, hq, hstands, horigin, hne⟩, hmover, htarget, hmem, nodup_captured hmove,
    fun v hv => ⟨enemy_of_mem_captured hmove (hfiled id q hq) hv, stands_of_mem_captured hmove hv⟩,
    fun other hother => head?_captured hmove hother,
    fun rook rookFrom rookTo hspecial => (Offers.legal h).captured_of_castle hspecial,
    fun hspecial => captured_of_enPassant hmove hspecial⟩

/-- A man jumps two pawns on its way and lands on a rook. -/
theorem captures_of_move?_jumps :
    let board : Bounds := { left := 0, right := 5, bottom := 0, top := 5 }
    let jump : Step := { shape := .diagonal, distance := .single (.exact 2), gait := { locust := true } }
    let man : Piece := { Piece.phantom ⟨0, 0⟩ .white board with
      grammar := { clauses := [{ source := "n(^2x)", pattern := .ride .wildcard {} (.step jump) }] } }
    let p := ([man] ++ (Piece.standard? .pawn ⟨1, 1⟩ .black board).toList ++
      (Piece.standard? .pawn ⟨3, 3⟩ .black board).toList ++
      (Piece.standard? .rook ⟨4, 4⟩ .black board).toList).foldl Position.add { bounds := board }
    let m : Move := { mover := ⟨.white, 0⟩, origin := ⟨0, 0⟩, target := ⟨4, 4⟩,
                      captured := [⟨.black, 2⟩, ⟨.black, 0⟩, ⟨.black, 1⟩] }
    p.WellFormed ∧ (∀ id q, p.piece? id = some q → q.side = id.side) ∧
      p.move? ⟨.white, 0⟩ ⟨4, 4⟩ = some m ∧ ⟨4, 4⟩ ∈ p.bounds ∧ m.captured.Nodup ∧
      (∀ v ∈ m.captured, v.side ≠ .white ∧
        ∃ r, p.piece? v = some r ∧ r.isCaptured = false ∧ r.isDummy = false) ∧
      m.captured.head? = some ⟨.black, 2⟩ := by
  intro board jump man p m
  have hp : p.Regular := regular_foldl_add (by decide) (by decide) (by decide) (by decide)
  have hfiled : ∀ id q, p.piece? id = some q → q.side = id.side := fun _ _ hq => hp.filed hq
  have hm : p.move? ⟨.white, 0⟩ ⟨4, 4⟩ = some m := by cbv
  obtain ⟨-, -, -, hmem, hnodup, hcaptured, hfirst, -⟩ := hp.captures_of_move? hfiled hm
  obtain ⟨other, hother, hid⟩ : ∃ other, p.occupant? ⟨4, 4⟩ = some other ∧ other.id = ⟨.black, 2⟩ :=
    ⟨_, rfl, rfl⟩
  exact ⟨hp.toWellFormed, hfiled, hm, hmem, hnodup, hcaptured, hid ▸ hfirst other hother⟩

end WellFormed

end Position

end FairyChess
