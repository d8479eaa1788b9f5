import FairyChess.Proofs.Game.Run
import FairyChess.Proofs.Move.Captures
import FairyChess.Variant.Reader
import Mathlib

/-!
Dummies in games. No move captures a dummy. One can still be displaced: by another clause of its own, by
capturing en passant, and as the king or the rook of a castling move.
-/
namespace FairyChess

/-- The ways in which a move displaces a dummy. -/
inductive Move.Displaces (m : Move) (id : PieceId) (q : Piece) : Prop
  | clause (hmover : m.mover = id) {c : Clause} (hc : c ∈ q.grammar.clauses)
      (hclause : c.dummy = false)
  | enPassant (hmover : m.mover = id) (hspecial : m.special = .enPassant)
      (hpawn : q.behavior.pawnLike = true)
  | castleKing (hmover : m.mover = id) (hspecial : m.rook?.isSome = true)
      (hrole : q.behavior.castleRole = some .king)
  | castleRook (hrook : m.rook? = some id) (hrole : q.behavior.castleRole = some .rook)

namespace Move.Displaces

variable {m : Move} {id : PieceId} {q r : Piece}

theorem congr (h : m.Displaces id r) (hgrammar : r.grammar = q.grammar)
    (hbehavior : r.behavior = q.behavior) : m.Displaces id q := by
  cases h with
  | clause hmover hc hclause => exact .clause hmover (hgrammar ▸ hc) hclause
  | enPassant hmover hspecial hpawn => exact .enPassant hmover hspecial (hbehavior ▸ hpawn)
  | castleKing hmover hspecial hrole => exact .castleKing hmover hspecial (hbehavior ▸ hrole)
  | castleRook hrook hrole => exact .castleRook hrook (hbehavior ▸ hrole)

/-- Nothing displaces a piece whose clauses are all dummies and that has no other way to move. -/
theorem not_of_inert (hclauses : ∀ c ∈ q.grammar.clauses, c.dummy = true)
    (hbehavior : q.behavior = {}) : ¬m.Displaces id q := by
  intro h
  cases h with
  | clause _ hc hclause =>
    rw [hclauses _ hc] at hclause
    cases hclause
  | enPassant _ _ hpawn =>
    rw [hbehavior] at hpawn
    cases hpawn
  | castleKing _ _ hrole =>
    rw [hbehavior] at hrole
    cases hrole
  | castleRook _ hrole =>
    rw [hbehavior] at hrole
    cases hrole

end Move.Displaces

namespace Position

variable {p : Position} {mover : Slot} {target : Square} {m : Move}

theorem displaces_mover (h : p.moveOf? mover target = some m) : m.Displaces mover.id mover.piece := by
  have hclause {occupant : Option Slot} (hmove : p.grammarMove? mover target occupant = some m) :
      m.Displaces mover.id mover.piece := by
    obtain ⟨c, hc, hpermits, passed, -, rfl⟩ := of_grammarMove? hmove
    refine .clause rfl hc ?_
    simp only [Clause.permits, Bool.and_eq_true, Bool.not_eq_true'] at hpermits
    exact hpermits.1.1.1
  rcases of_moveOf? h with hplain | hcastle
  · rcases plainMove?_cases hplain with ⟨-, hmove, -⟩ | ⟨-, -, hmove⟩
    · exact hclause hmove
    · obtain ⟨hpawn, victim, -, -, rfl⟩ := of_enPassant? hmove
      exact .enPassant rfl rfl hpawn
  · obtain ⟨⟨hrole, -⟩, rook, -, -, rfl⟩ := of_castle? hcastle
    exact .castleKing rfl rfl hrole

theorem displaces_rook (h : p.moveOf? mover target = some m) {id : PieceId} (hrook : m.rook? = some id)
    {q : Piece} (hq : p.piece? id = some q) : m.Displaces id q := by
  obtain ⟨-, rook, hscan, ⟨-, hrole, -⟩, rfl⟩ := of_castle? (castle?_of_rook? h hrook)
  obtain rfl : rook.id = id := Option.some.inj hrook
  obtain ⟨-, -, s, hs⟩ := of_firstAlong hscan
  obtain ⟨-, hpiece, -, -⟩ := p.of_occupant? hs
  rw [hpiece] at hq
  exact .castleRook rfl (Option.some.inj hq ▸ hrole)

end Position

namespace Game

/-- The piece has the grammar and the behavior of a given one. No move of the history has captured it,
and those that have displaced it are ways to displace the given piece. -/
structure Spares (g : Game) (id : PieceId) (q : Piece) : Prop where
  keeps : ∃ r, g.position.piece? id = some r ∧ r.grammar = q.grammar ∧ r.behavior = q.behavior
  captured {r : Record} (hr : r ∈ g.history) : id ∉ r.move.captured
  displaced {r : Record} (hr : r ∈ g.history) (hid : r.move.mover = id ∨ r.move.rook? = some id) :
    r.move.Displaces id q

/-- The piece has promoted with a move that is a way to displace a given one. -/
def Promoted (g : Game) (id : PieceId) (q : Piece) : Prop :=
  ∃ r ∈ g.history, r.move.mover = id ∧ r.promotion.isSome = true ∧ r.move.Displaces id q

variable {g : Game} {m : Move} {id : PieceId} {q : Piece} {answer : Option Kind}

/-- A piece keeps its grammar and its behavior in a move that it does not promote with. -/
theorem keeps_of_not_promotes (hq : g.position.piece? id = some q)
    (hpromotes : ¬(m.mover = id ∧ (g.position.promotion? m answer).isSome = true)) :
    ∃ r, (g.make m answer).game.position.piece? id = some r ∧ r.grammar = q.grammar ∧
      r.behavior = q.behavior := by
  have hafter : (g.make m answer).game.position.piece? id = some (m.effect answer id q) := by
    change (g.position.after m answer).piece? id = _
    rw [g.position.piece?_after, hq, Option.map_some]
  have heffect : m.effect answer id q = m.displace id q := by
    unfold Move.effect
    split
    swap
    · rfl
    next hmover =>
    subst hmover
    have hnone : (m.displace m.mover q).promotion? answer = none := by
      rw [← g.position.promotion?_eq hq, ← Option.not_isSome_iff_eq_none]
      exact fun hsome => hpromotes ⟨rfl, hsome⟩
    unfold Piece.promoted
    rw [hnone]
  refine ⟨m.effect answer id q, hafter, ?_⟩
  rw [heffect]
  exact ⟨m.grammar_displace id q, m.behavior_displace id q⟩

theorem Spares.not_mem_captured (h : g.Spares id q) (hdummy : q.isDummy = true) (hm : g.Allows m) :
    id ∉ m.captured := by
  intro hcaptured
  obtain ⟨r, hr, hgrammar, -⟩ := h.keeps
  obtain ⟨mover, -, hmove⟩ := Position.of_move? hm.legal
  obtain ⟨victim, hvictim, -, hfree⟩ := Position.stands_of_mem_captured hmove hcaptured
  rw [hr] at hvictim
  rw [← Option.some.inj hvictim, Piece.isDummy, hgrammar, ← Piece.isDummy, hdummy] at hfree
  cases hfree

theorem Spares.displaces (h : g.Spares id q) (hm : g.Allows m)
    (hid : m.mover = id ∨ m.rook? = some id) : m.Displaces id q := by
  obtain ⟨r, hr, hgrammar, hbehavior⟩ := h.keeps
  obtain ⟨mover, hmover, hmove⟩ := Position.of_move? hm.legal
  refine Move.Displaces.congr ?_ hgrammar hbehavior
  rcases hid with rfl | hrook
  · rw [hmover] at hr
    exact Option.some.inj hr ▸ Position.displaces_mover hmove
  · exact Position.displaces_rook hmove hrook hr

theorem Spares.make (h : g.Spares id q) (hdummy : q.isDummy = true) (hm : g.Allows m)
    (hpromotes : ¬(m.mover = id ∧ (g.position.promotion? m answer).isSome = true)) :
    (g.make m answer).game.Spares id q where
  keeps := by
    obtain ⟨r, hr, hgrammar, hbehavior⟩ := h.keeps
    obtain ⟨r', hr', hgrammar', hbehavior'⟩ := keeps_of_not_promotes hr hpromotes
    exact ⟨r', hr', hgrammar'.trans hgrammar, hbehavior'.trans hbehavior⟩
  captured hr := by
    rcases List.mem_cons.mp hr with rfl | hr
    · exact h.not_mem_captured hdummy hm
    · exact h.captured hr
  displaced hr hid := by
    rcases List.mem_cons.mp hr with rfl | hr
    · exact h.displaces hm hid
    · exact h.displaced hr hid

theorem promoted_or_spares_make (hdummy : q.isDummy = true) (h : g.Promoted id q ∨ g.Spares id q)
    (hm : g.Allows m) (answer : Option Kind) :
    (g.make m answer).game.Promoted id q ∨ (g.make m answer).game.Spares id q := by
  rcases h with ⟨r, hr, hpromoted⟩ | h
  · exact .inl ⟨r, List.mem_cons_of_mem _ hr, hpromoted⟩
  -- With a promotion the piece gets another grammar, and what is known of it ends here.
  by_cases hpromotes : m.mover = id ∧ (g.position.promotion? m answer).isSome = true
  · obtain ⟨hmover, hsome⟩ := hpromotes
    exact .inl ⟨_, List.mem_cons_self, hmover, hsome, h.displaces hm (.inl hmover)⟩
  · exact .inr (h.make hdummy hm hpromotes)

/--
Until it promotes, a dummy is never captured, and moves only by another clause of its own, en passant
or in castling. One that has none of these ways to move stays as it is throughout every game.
-/
theorem dummy_run (title : String) (p : Position) (calls : List Call)
    (hq : p.piece? id = some q) (hdummy : q.isDummy = true) :
    let g := Game.run { title, position := p } calls
    (g.Promoted id q ∨ ∀ r ∈ g.history, id ∉ r.move.captured ∧
      (r.move.mover = id ∨ r.move.rook? = some id → r.move.Displaces id q)) ∧
    ((∀ c ∈ q.grammar.clauses, c.dummy = true) → q.behavior = {} →
      (∀ r ∈ g.history, r.move.mover ≠ id ∧ r.move.rook? ≠ some id ∧ id ∉ r.move.captured) ∧
        g.position.piece? id = some q) := by
  intro g
  have hfirst : Spares { title, position := p } id q := ⟨⟨q, hq, rfl, rfl⟩, nofun, nofun⟩
  have hspares : g.Promoted id q ∨ g.Spares id q :=
    run_induction (P := fun g => g.Promoted id q ∨ g.Spares id q) rfl (.inr hfirst)
      (fun _ _ answer h hm => promoted_or_spares_make hdummy h hm answer) calls
  refine ⟨hspares.imp_right fun h r hr => ⟨h.captured hr, h.displaced hr⟩, fun hclauses hbehavior => ?_⟩
  have hinert (m : Move) : ¬m.Displaces id q := Move.Displaces.not_of_inert hclauses hbehavior
  have h : g.Spares id q := by
    refine hspares.resolve_left ?_
    rintro ⟨r, -, -, -, hdisplaces⟩
    exact hinert r.move hdisplaces
  have huntouched : ∀ r ∈ g.history,
      r.move.mover ≠ id ∧ r.move.rook? ≠ some id ∧ id ∉ r.move.captured := fun r hr =>
    ⟨fun hmover => hinert r.move (h.displaced hr (.inl hmover)),
      fun hrook => hinert r.move (h.displaced hr (.inr hrook)), h.captured hr⟩
  refine ⟨huntouched, ?_⟩
  rw [← hq]
  refine piece?_run rfl calls fun r hr => ?_
  obtain ⟨hmover, hrook, hcaptured⟩ := huntouched r hr
  simp [Move.touched, Ne.symm hmover, hcaptured, hrook]

/-- A rook stops in front of a wall. -/
theorem dummy_run_wall :
    let board : Bounds := { left := 0, right := 3, bottom := 0, top := 1 }
    let wall : Piece := { Piece.phantom ⟨2, 0⟩ .black board with
      grammar := ⟨"d", [{ source := "d", pattern := .step { dummy := true }, dummy := true }]⟩ }
    let p := ((Piece.standard? .rook ⟨0, 0⟩ .white board).toList ++ [wall]).foldl Position.add
      { bounds := board }
    let start : Game := { title := "Wall", position := p }
    let calls : List Call := [.play ⟨0, 0⟩ ⟨2, 0⟩ none, .play ⟨0, 0⟩ ⟨1, 0⟩ none]
    p.piece? ⟨.black, 0⟩ = some wall ∧ wall.isDummy = true ∧
      (start.run calls).history.map (·.move.target) = [⟨1, 0⟩] ∧
      (∀ r ∈ (start.run calls).history, r.move.mover ≠ ⟨.black, 0⟩ ∧
        r.move.rook? ≠ some ⟨.black, 0⟩ ∧ ⟨.black, 0⟩ ∉ r.move.captured) ∧
      (start.run calls).position.piece? ⟨.black, 0⟩ = some wall := by
  intro board wall p start calls
  have hwall : p.piece? ⟨.black, 0⟩ = some wall := rfl
  have hplayed : (start.run calls).history.map (·.move.target) = [⟨1, 0⟩] := by cbv
  obtain ⟨-, hstays⟩ := dummy_run "Wall" p calls hwall rfl
  exact ⟨hwall, rfl, hplayed, hstays (by decide) rfl⟩

/-- Two dummies castle with each other. -/
theorem dummies_castle :
    let board : Bounds := { left := 0, right := 4, bottom := 0, top := 1 }
    let dummy : Grammar :=
      ⟨"d", [{ source := "d", pattern := .step { dummy := true }, dummy := true }]⟩
    let wall : Template := ⟨"Wall", .custom, 'W', 'w', 1, { castleRole := some .king }, dummy⟩
    let gate : Template := ⟨"Gate", .custom, 'G', 'g', 1, { castleRole := some .rook }, dummy⟩
    let v : Variant := {
      title := "Walls"
      bounds := board
      templates := [wall, gate]
      position := [wall.spawn ⟨0, 0⟩ .white board, gate.spawn ⟨3, 0⟩ .white board].foldl
        Position.add { bounds := board } }
    let g := v.newGame.run [.play ⟨0, 0⟩ ⟨2, 0⟩ none]
    Variant.read "Walls\n4,1,0,0\n2\n#Wall,W,w,1,d\n!Gate,G,g,1,d\nW2G" = .ok v ∧
      dummy.isDummy = true ∧
      g.history.map (fun r => (r.move.mover, r.move.rook?)) =
        [(⟨.white, 0⟩, some ⟨.white, 1⟩)] ∧
      (g.position.piece? ⟨.white, 0⟩).map (·.square) = some ⟨2, 0⟩ ∧
      (g.position.piece? ⟨.white, 1⟩).map (·.square) = some ⟨1, 0⟩ := by
  intro board dummy wall gate v g
  exact ⟨rfl, rfl, by cbv, by cbv, by cbv⟩

end Game

end FairyChess
