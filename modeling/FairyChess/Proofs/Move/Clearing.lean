import FairyChess.Proofs.Move.Effect
import FairyChess.Proofs.Move.OpenRoute
import Mathlib

/-! Captures elsewhere. A route that was open stays open, and a piece without a locust keeps its moves. -/
namespace FairyChess.Position

variable {p : Position} {ids : List PieceId}

theorem Free.captureAll {mover : Piece} {s : Square} (h : p.Free mover s) :
    (p.captureAll ids).Free mover s :=
  h.imp_left p.occupant?_captureAll_eq_none

/-- A locust needs what it jumps. Any other step can still be taken. -/
theorem Passable.captureAll {mover : Piece} {leaper : Bool} {step : Segment}
    (hlocust : step.gait.locust = false) (h : p.Passable mover leaper step) :
    (p.captureAll ids).Passable mover leaper step := by
  unfold Passable at h ⊢
  dsimp only at h ⊢
  rw [hlocust] at h ⊢
  rcases h with hleaper | hgait | hfree
  · exact .inl hleaper
  · exact .inr (.inl hgait)
  · exact .inr (.inr fun s hs => (hfree s hs).captureAll)

theorem Open.captureAll {mover : Piece} {leaper : Bool} {route : Route}
    (hlocust : ∀ step ∈ route, step.gait.locust = false) (h : p.Open mover leaper route) :
    (p.captureAll ids).Open mover leaper route where
  passable step hstep := (h.passable step hstep).captureAll (hlocust step hstep)
  landing := h.landing.imp_right fun hfree step hstep => (hfree step hstep).captureAll

theorem Leads.captureAll {mover : Piece} {target : Square} {c : Clause}
    (hlocust : c.pattern.hasLocust = false)
    (htarget : (p.captureAll ids).occupant? target = p.occupant? target)
    (h : p.Leads mover target c) : (p.captureAll ids).Leads mover target c where
  eligible := by
    rw [htarget]
    exact h.eligible
  route := by
    obtain ⟨route, hroute, hopen⟩ := h.route
    exact ⟨route, hroute, hopen.captureAll (locust_eq_false_of_mem hlocust hroute)⟩

section Moves

variable {mover : Slot} {target : Square} {m : Move}

theorem grammarMove?_captureAll (hlocust : mover.piece.grammar.hasLocust = false)
    (htarget : (p.captureAll ids).occupant? target = p.occupant? target)
    (h : p.grammarMove? mover target (p.occupant? target) = some m) :
    (p.captureAll ids).grammarMove? mover target ((p.captureAll ids).occupant? target) = some m := by
  rw [grammarMove?_eq_some_iff_of_not_hasLocust hlocust] at h ⊢
  obtain ⟨⟨c, hc, hleads⟩, hm⟩ := h
  have hclause : c.pattern.hasLocust = false := by simpa using List.any_eq_false.mp hlocust c hc
  have halong : (p.captureAll ids).along mover target [] = p.along mover target [] := by
    rw [along, holder?, htarget]
    rfl
  exact ⟨⟨c, hc, hleads.captureAll hclause htarget⟩, hm.trans halong.symm⟩

theorem moveOf?_captureAll (hlocust : mover.piece.grammar.hasLocust = false)
    (htarget : (p.captureAll ids).occupant? target = p.occupant? target)
    (h : p.moveOf? mover target = some m) (hspecial : m.special = .normal) :
    (p.captureAll ids).moveOf? mover target = some m := by
  obtain ⟨hstands, -⟩ := stands_of_moveOf? h
  have hfree (other : Slot) (hother : p.occupant? target = some other) :
      other.id.side ≠ mover.id.side ∧ other.piece.isDummy = false := occupant_of_moveOf? h hother
  have hmove := (normal_moveOf?_iff hstands hfree).mp ⟨h, hspecial⟩
  rw [← htarget] at hfree
  exact ((normal_moveOf?_iff hstands hfree).mpr (grammarMove?_captureAll hlocust htarget hmove)).1

/--
Once another piece is captured that does not stand on the target, a piece without a locust still has the same
normal move there. An earlier clause or route may have opened, which makes no difference to the move.
-/
theorem move?_modify_capture {id v : PieceId} {q r : Piece} (h : p.move? id target = some m)
    (hspecial : m.special = .normal) (hq : p.piece? id = some q) (hlocust : q.grammar.hasLocust = false)
    (hr : p.piece? v = some r) (hne : v ≠ id) (hoff : r.square ≠ target) :
    (p.modify v Piece.capture).move? id target = some m := by
  have hcaptured : p.modify v Piece.capture = p.captureAll [v] := rfl
  have hkept : (p.modify v Piece.capture).piece? id = some q := by
    rw [p.piece?_modify_of_ne hne.symm, hq]
  have htarget : (p.captureAll [v]).occupant? target = p.occupant? target := by
    apply p.occupant?_captureAll
    intro w hw r' hr'
    rw [List.mem_singleton.mp hw, hr] at hr'
    rw [← Option.some.inj hr']
    exact hoff
  rw [move?_eq_moveOf? hq] at h
  rw [move?_eq_moveOf? hkept, hcaptured]
  exact moveOf?_captureAll hlocust htarget h hspecial

/-- A man that can slide or leap leaps over a pawn, and slides to the same square once the pawn is gone. -/
theorem move?_modify_capture_pawn :
    let board : Bounds := { left := 0, right := 2, bottom := 0, top := 4 }
    let slide : Clause := { source := "n+", pattern := .step { shape := .orthogonal, distance := .single .any } }
    let leap : Clause := {
      source := "~2+"
      pattern := .step { shape := .orthogonal, distance := .single (.exact 2), gait := { leaper := true } }
      leaper := true }
    let man : Piece := { Piece.phantom ⟨0, 0⟩ .white board with grammar := { clauses := [slide, leap] } }
    let p := ([man] ++ (Piece.standard? .pawn ⟨0, 1⟩ .black board).toList ++
      (Piece.standard? .rook ⟨0, 2⟩ .black board).toList).foldl Position.add { bounds := board }
    let m : Move := { mover := ⟨.white, 0⟩, origin := ⟨0, 0⟩, target := ⟨0, 2⟩, captured := [⟨.black, 1⟩] }
    let cleared := p.modify ⟨.black, 0⟩ Piece.capture
    p.clausePasses? man ⟨0, 2⟩ slide = none ∧ cleared.clausePasses? man ⟨0, 2⟩ slide = some [] ∧
      p.move? ⟨.white, 0⟩ ⟨0, 2⟩ = some m ∧ m.special = .normal ∧
      p.piece? ⟨.white, 0⟩ = some man ∧ man.grammar.hasLocust = false ∧
      (∃ r, p.piece? ⟨.black, 0⟩ = some r ∧ r.square ≠ ⟨0, 2⟩) ∧
      cleared.move? ⟨.white, 0⟩ ⟨0, 2⟩ = some m := by
  intro board slide leap man p m cleared
  have hmove : p.move? ⟨.white, 0⟩ ⟨0, 2⟩ = some m := by cbv
  have hman : p.piece? ⟨.white, 0⟩ = some man := rfl
  obtain ⟨r, hr, hoff⟩ : ∃ r, p.piece? ⟨.black, 0⟩ = some r ∧ r.square ≠ ⟨0, 2⟩ :=
    ⟨_, rfl, by decide⟩
  exact ⟨by cbv, by cbv, hmove, rfl, hman, rfl, ⟨r, hr, hoff⟩,
    move?_modify_capture hmove rfl hman rfl hr (by decide) hoff⟩

end Moves

end FairyChess.Position
