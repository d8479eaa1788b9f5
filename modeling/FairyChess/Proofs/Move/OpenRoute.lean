import FairyChess.Proofs.Move.Passage
import Mathlib

/-!
Open routes. A piece has a normal move where some clause that its marks allow has an open route, and what it
captures on the way is what the first such route of the first such clause jumps.
-/
namespace FairyChess

/-- The first element of a list with a property. -/
def IsFirst {α : Type} (P : α → Prop) (xs : List α) (x : α) : Prop :=
  P x ∧ ∃ before after, xs = before ++ x :: after ∧ ∀ y ∈ before, ¬P y

section First

variable {α β : Type} {P : α → Prop} {xs : List α}

theorem IsFirst.mem {x : α} (h : IsFirst P xs x) : x ∈ xs := by
  obtain ⟨-, before, after, hxs, -⟩ := h
  exact hxs ▸ List.mem_append_right before List.mem_cons_self

theorem exists_isFirst_iff : (∃ x, IsFirst P xs x) ↔ ∃ x ∈ xs, P x := by
  constructor
  · rintro ⟨x, hfirst⟩
    exact ⟨x, hfirst.mem, hfirst.1⟩
  · rintro ⟨x, hmem, hx⟩
    classical
    have hfound : (xs.find? (decide <| P ·)).isSome = true := by
      rw [List.find?_isSome]
      exact ⟨x, hmem, decide_eq_true hx⟩
    obtain ⟨y, hy⟩ := Option.isSome_iff_exists.mp hfound
    obtain ⟨hPy, before, after, hxs, hbefore⟩ := List.find?_eq_some_iff_append.mp hy
    exact ⟨y, of_decide_eq_true hPy, before, after, hxs, fun z hz => by simpa using hbefore z hz⟩

/-- A search that has answers for the elements with a property ends on the first of them. -/
theorem findSome?_eq_some_iff_isFirst {f : α → Option β} {R : α → β → Prop}
    (hf : ∀ x b, f x = some b ↔ P x ∧ R x b) (hR : ∀ x, P x → ∃ b, R x b) {b : β} :
    xs.findSome? f = some b ↔ ∃ x, IsFirst P xs x ∧ R x b := by
  have hnone (x : α) : f x = none ↔ ¬P x := by
    constructor
    · intro hx hP
      obtain ⟨b, hb⟩ := hR x hP
      rw [(hf x b).mpr ⟨hP, hb⟩] at hx
      cases hx
    · intro hP
      rw [Option.eq_none_iff_forall_ne_some]
      intro b hb
      exact hP ((hf x b).mp hb).1
  rw [List.findSome?_eq_some_iff]
  constructor
  · rintro ⟨before, x, after, hxs, hx, hbefore⟩
    obtain ⟨hP, hb⟩ := (hf x b).mp hx
    exact ⟨x, ⟨hP, before, after, hxs, fun y hy => (hnone y).mp (hbefore y hy)⟩, hb⟩
  · rintro ⟨x, ⟨hP, before, after, hxs, hbefore⟩, hb⟩
    exact ⟨before, x, after, hxs, (hf x b).mpr ⟨hP, hb⟩, fun y hy => (hnone y).mpr (hbefore y hy)⟩

end First

/-- What the marks of a clause ask of the piece and of what is on its target. -/
structure Clause.Eligible (c : Clause) (mover : Piece) (occupant : Option Slot) : Prop where
  dummy : c.dummy = false
  firstMove : c.firstMove = true → mover.turns = 0
  captureOnly : c.captureOnly = true → occupant ≠ none
  quietOnly : c.quietOnly = true → occupant = none

theorem Clause.permits_iff {c : Clause} {mover : Piece} {occupant : Option Slot} :
    c.permits mover occupant.isSome = true ↔ c.Eligible mover occupant := by
  simp only [permits, Bool.and_eq_true, Bool.not_eq_true', Bool.and_eq_false_imp, decide_eq_false_iff_not,
    Nat.not_lt, Nat.le_zero, Option.isSome_iff_ne_none, Bool.not_eq_false', Option.isSome_eq_false_iff,
    Option.isNone_iff_eq_none]
  constructor
  · rintro ⟨⟨⟨hdummy, hfirst⟩, hcapture⟩, hquiet⟩
    exact ⟨hdummy, hfirst, hcapture, hquiet⟩
  · intro h
    exact ⟨⟨⟨h.dummy, h.firstMove⟩, h.captureOnly⟩, h.quietOnly⟩

namespace Position

/-- A square that does not stop the piece: it is empty, or the piece itself starts from it. -/
def Free (p : Position) (mover : Piece) (s : Square) : Prop :=
  p.occupant? s = none ∨ s = mover.square

/-- A square with a piece that the mover may jump: an enemy, and no dummy. -/
def Hostile (p : Position) (mover : Piece) (s : Square) : Prop :=
  ∃ slot, p.occupant? s = some slot ∧ slot.id.side ≠ mover.side ∧ slot.piece.isDummy = false

/-- A step that can be taken: a locust over one enemy or more and nothing else, any other step over free
squares unless it leaps. -/
def Passable (p : Position) (mover : Piece) (leaper : Bool) (step : Segment) : Prop :=
  let squares := step.start.between step.finish
  if step.gait.locust then squares ≠ [] ∧ ∀ s ∈ squares, p.Hostile mover s
  else leaper = true ∨ step.gait.leaper = true ∨ ∀ s ∈ squares, p.Free mover s

/-- A route whose steps can all be taken. Where the clause does not leap, all of them but the last end on
free squares. -/
structure Open (p : Position) (mover : Piece) (leaper : Bool) (route : Route) : Prop where
  passable : ∀ step ∈ route, p.Passable mover leaper step
  landing : leaper = true ∨ ∀ step ∈ route.dropLast, p.Free mover step.finish

/-- Which piece is on a square. -/
def holder? (p : Position) (s : Square) : Option PieceId :=
  (p.occupant? s).map (·.id)

/-- The pieces between the ends of a step. -/
def passing (p : Position) (step : Segment) : List PieceId :=
  (step.start.between step.finish).filterMap p.holder?

/-- The pieces between the ends of the locust steps of a route. -/
def jumping (p : Position) (route : Route) : List PieceId :=
  (route.filter (·.gait.locust)).flatMap p.passing

/-- A clause by which the piece can go to the target. -/
structure Leads (p : Position) (mover : Piece) (target : Square) (c : Clause) : Prop where
  eligible : c.Eligible mover (p.occupant? target)
  route : ∃ route ∈ c.pattern.candidates mover.frame mover.square target, p.Open mover c.leaper route

variable {p : Position} {mover : Piece} {leaper : Bool} {ids : List PieceId}

theorem blocks_eq_false_iff {s : Square} : p.blocks mover s = false ↔ p.Free mover s := by
  rw [blocks, Bool.and_eq_false_iff, Bool.not_eq_false', isEmpty_iff, bne_eq_false_iff_eq, or_comm]
  rfl

theorem jumped?_eq_some_iff {squares : List Square} : p.jumped? mover squares = some ids ↔
    (∀ s ∈ squares, p.Hostile mover s) ∧
      ids = squares.filterMap p.holder? := by
  induction squares generalizing ids with
  | nil =>
    have hnil : p.jumped? mover [] = some [] := rfl
    simp [hnil, eq_comm]
  | cons s squares ih =>
    rw [jumped?, List.mapM_cons]
    constructor
    · intro h
      obtain ⟨first, hfirst, h⟩ := Option.bind_eq_some_iff.mp h
      obtain ⟨later, hlater, h⟩ := Option.bind_eq_some_iff.mp h
      obtain ⟨slot, hslot, hfirst⟩ := Option.bind_eq_some_iff.mp hfirst
      obtain ⟨hall, hrest⟩ := ih.mp hlater
      split at hfirst
      · cases hfirst
      · next hfree =>
        rw [not_or, Bool.not_eq_true] at hfree
        have hhead : p.Hostile mover s := ⟨slot, hslot, hfree⟩
        have hid : p.holder? s = some first := by rw [holder?, hslot, ← hfirst, Option.map_some]
        refine ⟨List.forall_mem_cons.mpr ⟨hhead, hall⟩, ?_⟩
        rw [List.filterMap_cons_some hid, ← hrest]
        exact (Option.some.inj h).symm
    · rintro ⟨hall, hids⟩
      obtain ⟨⟨slot, hslot, hside, hdummy⟩, hall⟩ := List.forall_mem_cons.mp hall
      have hlater : p.jumped? mover squares = _ := ih.mpr ⟨hall, rfl⟩
      have hid : p.holder? s = some slot.id := by rw [holder?, hslot, Option.map_some]
      rw [jumped?] at hlater
      rw [hlater, hslot, hids, List.filterMap_cons_some hid]
      simp [hside, hdummy]

theorem passed?_eq_some_iff {step : Segment} : p.passed? mover leaper step = some ids ↔
    p.Passable mover leaper step ∧ ids = if step.gait.locust then p.passing step else [] := by
  unfold passed? cleared? Passable
  cases step.gait.locust with
  | true =>
    simp only [if_true, List.isEmpty_iff]
    by_cases hsquares : step.start.between step.finish = []
    · simp [hsquares]
    · rw [if_neg hsquares, jumped?_eq_some_iff, passing]
      simp only [ne_eq, hsquares, not_false_eq_true, true_and]
  | false =>
    have hclear : (leaper || step.gait.leaper || !(step.start.between step.finish).any (p.blocks mover)) = true ↔
        leaper = true ∨ step.gait.leaper = true ∨ ∀ s ∈ step.start.between step.finish, p.Free mover s := by
      simp only [Bool.or_eq_true, Bool.not_eq_true', List.any_eq_false, Bool.not_eq_true,
        blocks_eq_false_iff, or_assoc]
    rw [if_neg Bool.false_ne_true, if_neg Bool.false_ne_true, if_neg Bool.false_ne_true, ← hclear]
    split
    · next hopen => rw [Option.some.injEq, eq_comm, and_iff_right hopen]
    · next hshut => exact iff_of_false nofun fun h => hshut h.1

theorem open_nil : p.Open mover leaper [] := ⟨nofun, .inr nofun⟩

theorem open_cons_iff {step : Segment} {rest : Route} : p.Open mover leaper (step :: rest) ↔
    p.Passable mover leaper step ∧ (rest = [] ∨ leaper = true ∨ p.Free mover step.finish) ∧
      p.Open mover leaper rest := by
  cases rest with
  | nil =>
    constructor
    · intro h
      exact ⟨h.passable step List.mem_cons_self, .inl rfl, open_nil⟩
    · rintro ⟨hstep, _⟩
      exact ⟨List.forall_mem_singleton.mpr hstep, .inr nofun⟩
  | cons second rest =>
    constructor
    · intro h
      obtain ⟨hstep, hrest⟩ := List.forall_mem_cons.mp h.passable
      have hlanding := h.landing
      rw [List.dropLast_cons_cons, List.forall_mem_cons] at hlanding
      exact ⟨hstep, .inr (hlanding.imp_right And.left), hrest, hlanding.imp_right And.right⟩
    · rintro ⟨hstep, hfinish, hrest⟩
      refine ⟨List.forall_mem_cons.mpr ⟨hstep, hrest.passable⟩, ?_⟩
      rw [List.dropLast_cons_cons, List.forall_mem_cons]
      rcases hrest.landing with hleaper | hlater
      · exact .inl hleaper
      · exact (hfinish.resolve_left (List.cons_ne_nil _ _)).imp_right (⟨·, hlater⟩)

theorem jumping_cons (step : Segment) (rest : Route) : p.jumping (step :: rest) =
    (if step.gait.locust then p.passing step else []) ++ p.jumping rest := by
  unfold jumping
  rw [List.filter_cons]
  split
  · rw [List.flatMap_cons]
  · rfl

/-- What a route captures on the way, if it is open. -/
theorem passedBy?_eq_some_iff {route : Route} : p.passedBy? mover leaper route = some ids ↔
    p.Open mover leaper route ∧ ids = p.jumping route := by
  induction route generalizing ids with
  | nil =>
    have hnil : p.passedBy? mover leaper [] = some [] := rfl
    simp [hnil, open_nil, jumping, eq_comm]
  | cons step rest ih =>
    have hlanding : (!rest.isEmpty && !leaper && p.blocks mover step.finish) = false ↔
        rest = [] ∨ leaper = true ∨ p.Free mover step.finish := by
      rw [← blocks_eq_false_iff]
      cases leaper <;> cases rest <;> simp
    rw [passedBy?, open_cons_iff, jumping_cons, ← hlanding]
    constructor
    · intro h
      obtain ⟨here, hhere, h⟩ := Option.bind_eq_some_iff.mp h
      split at h
      · cases h
      · next hfree =>
        obtain ⟨later, hlater, h⟩ := Option.bind_eq_some_iff.mp h
        obtain ⟨hstep, rfl⟩ := passed?_eq_some_iff.mp hhere
        obtain ⟨hrest, rfl⟩ := ih.mp hlater
        exact ⟨⟨hstep, Bool.eq_false_iff.mpr hfree, hrest⟩, (Option.some.inj h).symm⟩
    · rintro ⟨⟨hstep, hfree, hrest⟩, hids⟩
      have hhere := passed?_eq_some_iff.mpr ⟨hstep, rfl⟩
      have hlater := ih.mpr ⟨hrest, rfl⟩
      rw [hhere, hlater, hfree, hids]
      rfl

theorem locust_eq_false_of_mem {pattern : Pattern} (hlocust : pattern.hasLocust = false) {frame : Frame}
    {a b : Square} {route : Route} (hroute : route ∈ pattern.candidates frame a b) :
    ∀ step ∈ route, step.gait.locust = false := by
  rw [Pattern.candidates_eq_routes] at hroute
  intro step hstep
  rw [Bool.eq_false_iff]
  intro hgait
  rcases Pattern.locust_of_mem_routes hroute hstep hgait with hnone | hsome
  · cases hnone
  · rw [hlocust] at hsome
    cases hsome

/-- Without a locust nothing is jumped. -/
theorem jumping_eq_nil {pattern : Pattern} (hlocust : pattern.hasLocust = false) {frame : Frame}
    {a b : Square} {route : Route} (hroute : route ∈ pattern.candidates frame a b) :
    p.jumping route = [] := by
  have hnone : route.filter (·.gait.locust) = [] := by
    apply List.filter_eq_nil_iff.mpr
    intro step hstep
    rw [locust_eq_false_of_mem hlocust hroute step hstep]
    exact Bool.false_ne_true
  rw [jumping, hnone, List.flatMap_nil]

/-- The move along a route. It captures each piece once, and the one on the target first. -/
def along (p : Position) (mover : Slot) (target : Square) (route : Route) : Move where
  mover := mover.id
  origin := mover.piece.square
  target
  captured := ((p.holder? target).toList ++ p.jumping route).eraseDups

section Moves

variable {mover : Slot} {target : Square} {m : Move} {id : PieceId} {q : Piece}

theorem clausePasses?_eq_some_iff {mover : Piece} {c : Clause} :
    p.clausePasses? mover target c = some ids ↔
      ∃ route, IsFirst (p.Open mover c.leaper) (c.pattern.candidates mover.frame mover.square target) route ∧
        ids = p.jumping route := by
  rw [clausePasses?_eq_findSome?, Pattern.candidates_eq_routes]
  exact findSome?_eq_some_iff_isFirst (fun _ _ => passedBy?_eq_some_iff) fun route _ => ⟨_, rfl⟩

theorem grammarMove?_eq_some_iff : p.grammarMove? mover target (p.occupant? target) = some m ↔
    ∃ c, IsFirst (p.Leads mover.piece target) mover.piece.grammar.clauses c ∧
      ∃ route, IsFirst (p.Open mover.piece c.leaper)
          (c.pattern.candidates mover.piece.frame mover.piece.square target) route ∧
        m = p.along mover target route := by
  rw [grammarMove?]
  apply findSome?_eq_some_iff_isFirst
  · intro c m
    constructor
    · intro h
      split at h
      · next hpermits =>
        obtain ⟨passed, hpassed, rfl⟩ := Option.map_eq_some_iff.mp h
        obtain ⟨route, hfirst, rfl⟩ := clausePasses?_eq_some_iff.mp hpassed
        exact ⟨⟨Clause.permits_iff.mp hpermits, route, hfirst.mem, hfirst.1⟩, route, hfirst, rfl⟩
      · cases h
    · rintro ⟨hleads, route, hfirst, hm⟩
      have hpassed := clausePasses?_eq_some_iff.mpr ⟨route, hfirst, rfl⟩
      rw [if_pos (Clause.permits_iff.mpr hleads.eligible), hpassed, hm]
      rfl
  · intro c hleads
    obtain ⟨route, hfirst⟩ := exists_isFirst_iff.mpr hleads.route
    exact ⟨p.along mover target route, route, hfirst, rfl⟩

/-- Without a locust all clauses that lead to a target give the same move. -/
theorem grammarMove?_eq_some_iff_of_not_hasLocust (hlocust : mover.piece.grammar.hasLocust = false) :
    p.grammarMove? mover target (p.occupant? target) = some m ↔
      (∃ c ∈ mover.piece.grammar.clauses, p.Leads mover.piece target c) ∧
        m = p.along mover target [] := by
  have hsame {c : Clause} (hc : c ∈ mover.piece.grammar.clauses) {route : Route}
      (hroute : route ∈ c.pattern.candidates mover.piece.frame mover.piece.square target) :
      p.along mover target route = p.along mover target [] := by
    have hclause : c.pattern.hasLocust = false := by simpa using List.any_eq_false.mp hlocust c hc
    rw [along, jumping_eq_nil hclause hroute]
    rfl
  rw [grammarMove?_eq_some_iff, ← exists_isFirst_iff]
  constructor
  · rintro ⟨c, hc, route, hroute, rfl⟩
    exact ⟨⟨c, hc⟩, hsame hc.mem hroute.mem⟩
  · rintro ⟨⟨c, hc⟩, rfl⟩
    obtain ⟨route, hroute⟩ := exists_isFirst_iff.mpr hc.1.route
    exact ⟨c, hc, route, hroute, (hsame hc.mem hroute.mem).symm⟩

/-- The normal moves of a piece that stands are those by its grammar, where the target does not forbid it. -/
theorem normal_moveOf?_iff (hstands : mover.piece.isCaptured = false)
    (hfree : ∀ other, p.occupant? target = some other →
      other.id.side ≠ mover.id.side ∧ other.piece.isDummy = false) :
    p.moveOf? mover target = some m ∧ m.special = .normal ↔
      p.grammarMove? mover target (p.occupant? target) = some m := by
  constructor
  · rintro ⟨h, hspecial⟩
    rcases of_moveOf? h with hplain | hcastle
    · rcases plainMove?_cases hplain with ⟨-, hmove, -⟩ | ⟨henPassant, -⟩
      · exact hmove
      · rw [hspecial] at henPassant
        cases henPassant
    · obtain ⟨-, rook, -, -, rfl⟩ := of_castle? hcastle
      cases hspecial
  · intro h
    obtain ⟨c, hc, route, hroute, rfl⟩ := grammarMove?_eq_some_iff.mp h
    -- Routes do not leave the board, so that the target is on it need not be asked.
    have htarget : target ∈ mover.piece.bounds := by
      have hmem := hroute.mem
      rw [Pattern.candidates_eq_routes] at hmem
      exact Pattern.target_mem_bounds hmem
    have hplain : p.plainMove? mover target = some (p.along mover target route) := by
      unfold plainMove?
      rw [if_neg (by simp [hstands, htarget])]
      cases hoccupant : p.occupant? target with
      | some other =>
        obtain ⟨hside, hdummy⟩ := hfree other hoccupant
        rw [hoccupant] at h
        dsimp only
        rw [if_neg (by simp [hside, hdummy]), h]
      | none =>
        rw [hoccupant] at h
        dsimp only
        rw [h, Option.some_or]
    refine ⟨?_, rfl⟩
    rw [moveOf?, hplain, Option.some_or]

end Moves

end Position

end FairyChess
