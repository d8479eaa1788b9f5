import FairyChess.Proofs.Move.OpenRoute

/-! Locusts: the routes of a pattern capture on the way if and only if some part of it does. -/
namespace FairyChess

/-- A pattern has a locust exactly when each of its routes has a locust step. -/
theorem Pattern.exists_locust_iff {p : Pattern} {frame : Frame} {a b : Square} {route : Route}
    (h : route ∈ p.candidates frame a b) :
    (∃ step ∈ route, step.gait.locust = true) ↔ p.hasLocust = true := by
  rw [candidates_eq_routes] at h
  constructor
  · rintro ⟨step, hstep, hgait⟩
    exact (locust_of_mem_routes h hstep hgait).resolve_left Bool.false_ne_true
  · intro hlocust
    exact exists_locust_of_mem_routes h (.inr hlocust)

namespace Position

variable {p : Position} {mover : Slot} {target : Square} {m : Move}

/-- Without a locust a normal move captures what is on its target and nothing else. -/
theorem captured_of_not_hasLocust (hlocust : mover.piece.grammar.hasLocust = false)
    (h : p.moveOf? mover target = some m) (hspecial : m.special = .normal) :
    m.captured = (p.holder? target).toList := by
  rcases of_moveOf? h with hplain | hcastle
  · rcases plainMove?_cases hplain with ⟨-, hmove, -⟩ | ⟨henPassant, -, -⟩
    · obtain ⟨-, rfl⟩ := (grammarMove?_eq_some_iff_of_not_hasLocust hlocust).mp hmove
      change ((p.holder? target).toList ++ []).eraseDups = _
      rw [List.append_nil]
      cases p.holder? target <;> rfl
    · rw [hspecial] at henPassant
      cases henPassant
  · obtain ⟨-, rook, -, -, rfl⟩ := of_castle? hcastle
    cases hspecial

end Position

/--
Every route of a pattern has a locust step if the pattern has a locust, and none has one if it has not. A
piece whose grammar has no locust captures by a normal move what is on its target and nothing else.
-/
theorem hasLocust_exact :
    (∀ (p : Pattern) (frame : Frame) (a b : Square), ∀ route ∈ p.candidates frame a b,
      ((∃ step ∈ route, step.gait.locust = true) ↔ p.hasLocust = true)) ∧
    ∀ (p : Position) (id : PieceId) (q : Piece) (target : Square) (m : Move),
      p.piece? id = some q → q.grammar.hasLocust = false → p.move? id target = some m →
        m.special = .normal → m.captured = (p.holder? target).toList := by
  constructor
  · intro p frame a b route hroute
    exact Pattern.exists_locust_iff hroute
  · intro p id q target m hq hlocust hm hspecial
    obtain ⟨r, hr, hmove⟩ := Position.of_move? hm
    obtain rfl : q = r := Option.some.inj (hq.symm.trans hr)
    exact Position.captured_of_not_hasLocust hlocust hmove hspecial

/-- A step and then two hops in a ride that makes locusts of them, and a bishop that takes a rook. -/
theorem hasLocust_exact_hops :
    let board : Bounds := { left := 0, right := 6, bottom := 0, top := 6 }
    let diagonal (length : ℕ) : Pattern := .step { shape := .diagonal, distance := .single (.exact length) }
    let hops : Pattern := .andThen (diagonal 1) (.ride (.fixed 2) { locust := true } (diagonal 2))
    let route : Route := [⟨⟨0, 0⟩, ⟨1, 1⟩, {}⟩, ⟨⟨1, 1⟩, ⟨3, 3⟩, { locust := true }⟩,
      ⟨⟨3, 3⟩, ⟨5, 5⟩, { locust := true }⟩]
    let p := ((Piece.standard? .bishop ⟨0, 0⟩ .white board).toList ++
      (Piece.standard? .rook ⟨3, 3⟩ .black board).toList).foldl Position.add { bounds := board }
    let m : Move := { mover := ⟨.white, 0⟩, origin := ⟨0, 0⟩, target := ⟨3, 3⟩, captured := [⟨.black, 0⟩] }
    route ∈ hops.candidates ⟨1, 0, board⟩ ⟨0, 0⟩ ⟨5, 5⟩ ∧
      ((∃ step ∈ route, step.gait.locust = true) ↔ hops.hasLocust = true) ∧
      (∃ q, p.piece? ⟨.white, 0⟩ = some q ∧ q.grammar.hasLocust = false) ∧
      p.move? ⟨.white, 0⟩ ⟨3, 3⟩ = some m ∧ m.special = .normal ∧
      m.captured = (p.holder? ⟨3, 3⟩).toList := by
  intro board diagonal hops route p m
  have hroute : route ∈ hops.candidates ⟨1, 0, board⟩ ⟨0, 0⟩ ⟨5, 5⟩ := by
    rw [Pattern.candidates_eq_routes]
    decide +kernel
  have hmove : p.move? ⟨.white, 0⟩ ⟨3, 3⟩ = some m := by cbv
  obtain ⟨q, hq, hlocust⟩ : ∃ q, p.piece? ⟨.white, 0⟩ = some q ∧ q.grammar.hasLocust = false :=
    ⟨_, rfl, rfl⟩
  exact ⟨hroute, hasLocust_exact.1 _ _ _ _ route hroute, ⟨q, hq, hlocust⟩, hmove, rfl,
    hasLocust_exact.2 p _ q _ m hq hlocust hmove rfl⟩

end FairyChess
