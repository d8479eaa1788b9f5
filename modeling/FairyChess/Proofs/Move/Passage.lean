import FairyChess.Proofs.Move.Legal
import FairyChess.Proofs.Movement.Paths

/-! What a piece captures on its way, and what it has to see of the position for that. -/
namespace FairyChess

/-- What shows of a piece on a square: nothing where it does not stand, or whether it is a dummy. -/
def Piece.seenAt (q : Piece) (s : Square) : Option Bool :=
  if q.square = s ∧ !q.isCaptured then some q.isDummy else none

theorem Piece.seenAt_congr {q r : Piece} (hsquare : q.square = r.square)
    (hdummy : q.isDummy = r.isDummy) (s : Square) : q.seenAt s = r.seenAt s := by
  rw [seenAt, seenAt, isCaptured, isCaptured, hsquare, hdummy]

theorem Piece.seenAt_of_ne {q : Piece} {s : Square} (h : q.square ≠ s) : q.seenAt s = none :=
  if_neg fun hseen => h hseen.1

namespace Position

variable {p q : Position}

/-- Castling aside, a move is one by the grammar that captures what its target holds, or it is en
passant. -/
theorem plainMove?_cases {mover : Slot} {target : Square} {m : Move}
    (h : p.plainMove? mover target = some m) :
    (m.special ≠ .enPassant ∧ p.grammarMove? mover target (p.occupant? target) = some m ∧
      ∀ other, p.occupant? target = some other →
        other.id.side ≠ mover.id.side ∧ other.piece.isDummy = false) ∨
    (m.special = .enPassant ∧ p.occupant? target = none ∧ p.enPassant? mover target = some m) := by
  have hgrammar : ∀ occupant, p.grammarMove? mover target occupant = some m →
      m.special ≠ .enPassant := by
    intro occupant hmove
    obtain ⟨c, -, -, passed, -, rfl⟩ := of_grammarMove? hmove
    exact nofun
  obtain ⟨-, -, ⟨other, hother, hside, hdummy, hmove⟩ | ⟨hempty, hmove | hmove⟩⟩ := of_plainMove? h
  · rw [hother]
    refine .inl ⟨hgrammar _ hmove, hmove, fun slot hslot => ?_⟩
    obtain rfl := Option.some.inj hslot
    exact ⟨hside, hdummy⟩
  · rw [hempty]
    refine .inl ⟨hgrammar _ hmove, hmove, fun other hother => ?_⟩
    cases hother
  · refine .inr ⟨?_, hempty, hmove⟩
    obtain ⟨-, victim, -, -, rfl⟩ := of_enPassant? hmove
    rfl

/-- Every legal move goes to an empty square or to an enemy that is no dummy. -/
theorem occupant_of_moveOf? {mover : Slot} {target : Square} {m : Move}
    (h : p.moveOf? mover target = some m) {other : Slot} (hother : p.occupant? target = some other) :
    other.id.side ≠ mover.id.side ∧ other.piece.isDummy = false := by
  rcases of_moveOf? h with hplain | hcastle
  · rcases plainMove?_cases hplain with ⟨-, -, hfree⟩ | ⟨-, hempty, -⟩
    · exact hfree other hother
    · rw [hempty] at hother
      cases hother
  · obtain ⟨⟨-, -, -, -, hempty, -⟩, -⟩ := of_castle? hcastle
    rw [p.isEmpty_iff.mp hempty] at hother
    cases hother

/-- A clause captures on the way what its first open route does. -/
theorem clausePasses?_eq_findSome? (p : Position) (mover : Piece) (target : Square) (c : Clause) :
    p.clausePasses? mover target c =
      (c.pattern.routes mover.frame {} mover.square target).findSome?
        (p.passedBy? mover c.leaper) := by
  unfold clausePasses?
  rw [Pattern.findRoute_eq_findM?, List.findM?_pure]
  generalize c.pattern.routes mover.frame {} mover.square target = routes
  change (routes.find? fun route => (p.passedBy? mover c.leaper route).isSome).bind
    (p.passedBy? mover c.leaper) = _
  induction routes with
  | nil => rfl
  | cons route rest ih =>
    rw [List.find?_cons, List.findSome?_cons]
    cases hpasses : p.passedBy? mover c.leaper route with
    | none => exact ih
    | some passed => exact hpasses

/-- The piece stands on the board, is on another side and is no dummy. -/
def Prey (p : Position) (side : Side) (id : PieceId) : Prop :=
  ∃ s slot, p.occupant? s = some slot ∧ slot.id = id ∧ id.side ≠ side ∧ slot.piece.isDummy = false

section Captured

variable {mover : Piece} {leaper : Bool} {passed : List PieceId} {id : PieceId}

theorem prey_of_mem_jumped? {squares : List Square} (h : p.jumped? mover squares = some passed)
    (hid : id ∈ passed) : p.Prey mover.side id := by
  induction squares generalizing passed with
  | nil =>
    obtain rfl := Option.some.inj h
    cases hid
  | cons s squares ih =>
    rw [jumped?, List.mapM_cons] at h
    obtain ⟨first, hfirst, h⟩ := Option.bind_eq_some_iff.mp h
    obtain ⟨rest, hrest, h⟩ := Option.bind_eq_some_iff.mp h
    obtain rfl := Option.some.inj h
    rcases List.mem_cons.mp hid with rfl | hid
    · obtain ⟨slot, hslot, hfirst⟩ := Option.bind_eq_some_iff.mp hfirst
      split at hfirst
      · cases hfirst
      · next hfree =>
        obtain rfl := Option.some.inj hfirst
        simp only [not_or, Bool.not_eq_true] at hfree
        exact ⟨s, slot, hslot, rfl, hfree.1, hfree.2⟩
    · exact ih hrest hid

/-- Only locusts capture on the way, and only enemies that stand there. -/
theorem of_mem_passedBy? {route : Route} (h : p.passedBy? mover leaper route = some passed)
    (hid : id ∈ passed) : (∃ step ∈ route, step.gait.locust = true) ∧ p.Prey mover.side id := by
  induction route generalizing passed with
  | nil =>
    obtain rfl := Option.some.inj h
    cases hid
  | cons step rest ih =>
    obtain ⟨here, hhere, h⟩ := Option.bind_eq_some_iff.mp h
    split at h
    · cases h
    obtain ⟨later, hlater, h⟩ := Option.bind_eq_some_iff.mp h
    obtain rfl := Option.some.inj h
    rcases List.mem_append.mp hid with hid | hid
    · unfold passed? cleared? at hhere
      split at hhere
      · next hlocust =>
        split at hhere
        · cases hhere
        · exact ⟨⟨step, List.mem_cons_self, hlocust⟩, prey_of_mem_jumped? hhere hid⟩
      · split at hhere
        · obtain rfl := Option.some.inj hhere
          cases hid
        · cases hhere
    · obtain ⟨⟨s, hs, hlocust⟩, hprey⟩ := ih hlater hid
      exact ⟨⟨s, List.mem_cons_of_mem step hs, hlocust⟩, hprey⟩

theorem of_mem_clausePasses? {target : Square} {c : Clause}
    (h : p.clausePasses? mover target c = some passed) (hid : id ∈ passed) :
    c.pattern.hasLocust = true ∧ p.Prey mover.side id := by
  rw [clausePasses?_eq_findSome?] at h
  obtain ⟨route, hroute, hpasses⟩ := List.exists_of_findSome?_eq_some h
  obtain ⟨⟨step, hstep, hlocust⟩, hprey⟩ := of_mem_passedBy? hpasses hid
  have hpattern := Pattern.locust_of_mem_routes hroute hstep hlocust
  exact ⟨hpattern.resolve_left Bool.false_ne_true, hprey⟩

/-- A piece captured on the way is captured by a locust. -/
theorem of_mem_captured_grammarMove? {mover : Slot} {target : Square} {occupant : Option Slot}
    {m : Move} (h : p.grammarMove? mover target occupant = some m) (hid : id ∈ m.captured) :
    (∃ other, occupant = some other ∧ other.id = id) ∨
      (mover.piece.grammar.hasLocust = true ∧ p.Prey mover.piece.side id) := by
  obtain ⟨c, hc, -, passed, hpassed, rfl⟩ := of_grammarMove? h
  rcases List.mem_append.mp (List.mem_eraseDups.mp hid) with hid | hid
  · left
    simpa [and_comm] using hid
  · right
    obtain ⟨hlocust, hprey⟩ := of_mem_clausePasses? hpassed hid
    exact ⟨List.any_eq_true.mpr ⟨c, hc, hlocust⟩, hprey⟩

/-- What a move captures is an enemy of the piece's side, or on its way of the side the piece faces as. -/
theorem prey_of_mem_captured {mover : Slot} {target : Square} {m : Move}
    (h : p.plainMove? mover target = some m) (hid : id ∈ m.captured) :
    ∃ side ∈ [mover.id.side, mover.piece.side], p.Prey side id := by
  rcases plainMove?_cases h with ⟨-, hmove, hfree⟩ | ⟨-, -, hmove⟩
  · rcases of_mem_captured_grammarMove? hmove hid with ⟨other, hother, rfl⟩ | ⟨-, hprey⟩
    · obtain ⟨hside, hdummy⟩ := hfree other hother
      exact ⟨_, List.mem_cons_self, target, other, hother, rfl, hside, hdummy⟩
    · exact ⟨_, List.mem_cons_of_mem _ (List.mem_singleton_self _), hprey⟩
  · obtain ⟨-, victim, hvictim, ⟨hside, -, -, -, -, hdummy, -⟩, rfl⟩ := of_enPassant? hmove
    obtain rfl := List.mem_singleton.mp hid
    exact ⟨_, List.mem_cons_self, _, victim, hvictim, rfl, hside, by simpa using hdummy⟩

end Captured

/-- What a move can tell of a square: the piece on it, and whether that is a dummy. -/
def view (p : Position) (s : Square) : Option (PieceId × Bool) :=
  (p.occupant? s).map fun slot => (slot.id, slot.piece.isDummy)

/-- Two positions look the same along every route of a piece. -/
def AlikeFor (mover : Piece) (p q : Position) : Prop :=
  ∀ c ∈ mover.grammar.clauses, ∀ target,
    ∀ route ∈ c.pattern.routes mover.frame {} mover.square target,
      ∀ s ∈ route.squares, p.view s = q.view s

section Views

variable {mover : Piece} {s : Square}

theorem standingOn_congr {qs rs : List Piece} (h : qs.map (·.seenAt s) = rs.map (·.seenAt s))
    (side : Side) (n : ℕ) :
    (standingOn s side n qs).map (fun slot => (slot.id, slot.piece.isDummy)) =
      (standingOn s side n rs).map (fun slot => (slot.id, slot.piece.isDummy)) := by
  induction qs generalizing rs n with
  | nil =>
    obtain rfl := List.map_eq_nil_iff.mp h.symm
    rfl
  | cons q qs ih =>
    cases rs with
    | nil => cases h
    | cons r rs =>
      obtain ⟨hfirst, hrest⟩ := List.cons.inj h
      change q.seenAt s = r.seenAt s at hfirst
      unfold Piece.seenAt at hfirst
      unfold standingOn
      split at hfirst <;> split at hfirst
      · next hq hr =>
        rw [if_pos hq, if_pos hr, Option.map_some, Option.map_some, Option.some.inj hfirst]
      · cases hfirst
      · cases hfirst
      · next hq hr =>
        rw [if_neg hq, if_neg hr]
        exact ih hrest (n + 1)

theorem view_congr (hbounds : p.bounds = q.bounds)
    (h : ∀ id, (p.piece? id).map (·.seenAt s) = (q.piece? id).map (·.seenAt s)) :
    p.view s = q.view s := by
  have hside (side : Side) (n : ℕ) :
      (standingOn s side n (p.pieces side)).map (fun slot => (slot.id, slot.piece.isDummy)) =
        (standingOn s side n (q.pieces side)).map (fun slot => (slot.id, slot.piece.isDummy)) := by
    apply standingOn_congr
    apply List.ext_getElem?
    intro i
    rw [List.getElem?_map, List.getElem?_map]
    exact h ⟨side, i⟩
  unfold view occupant?
  rw [hbounds]
  split
  · rw [Option.map_or, Option.map_or]
    exact congrArg₂ Option.or (hside .white 0) (hside .black 0)
  · rfl

theorem isEmpty_eq_view (p : Position) (s : Square) : p.isEmpty s = (p.view s).isNone := by
  rw [isEmpty, view, Option.isNone_map]

theorem blocks_congr (h : p.view s = q.view s) :
    p.blocks mover s = q.blocks mover s := by
  rw [blocks, blocks, isEmpty_eq_view, isEmpty_eq_view, h]

theorem jumped?_congr {squares : List Square} (h : ∀ s ∈ squares, p.view s = q.view s) :
    p.jumped? mover squares = q.jumped? mover squares := by
  have hjumped (r : Position) : r.jumped? mover squares = squares.mapM fun s =>
      (r.view s).bind fun (id, dummy) =>
        if id.side = mover.side ∨ dummy then none else some id := by
    unfold jumped?
    congr 1
    funext s
    rw [view, Option.bind_map]
    rfl
  rw [hjumped p, hjumped q]
  clear hjumped
  induction squares with
  | nil => rfl
  | cons s squares ih =>
    obtain ⟨hs, hrest⟩ := List.forall_mem_cons.mp h
    rw [List.mapM_cons, List.mapM_cons, hs, ih hrest]

theorem passed?_congr {leaper : Bool} {step : Segment}
    (h : ∀ s ∈ step.start.between step.finish, p.view s = q.view s) :
    p.passed? mover leaper step = q.passed? mover leaper step := by
  have hblocks : (step.start.between step.finish).any (p.blocks mover) =
      (step.start.between step.finish).any (q.blocks mover) := by
    rw [Bool.eq_iff_iff, List.any_eq_true, List.any_eq_true]
    refine exists_congr fun s => and_congr_right fun hs => ?_
    rw [blocks_congr (h s hs)]
  unfold passed? cleared?
  rw [jumped?_congr h, hblocks]

theorem passedBy?_congr {leaper : Bool} {route : Route}
    (h : ∀ s ∈ route.squares, p.view s = q.view s) :
    p.passedBy? mover leaper route = q.passedBy? mover leaper route := by
  induction route with
  | nil => rfl
  | cons step rest ih =>
    have hsquares : Route.squares (step :: rest) =
        step.start.between step.finish ++ [step.finish] ++ Route.squares rest := rfl
    simp only [hsquares, List.forall_mem_append, List.forall_mem_singleton] at h
    obtain ⟨⟨hbetween, hfinish⟩, hrest⟩ := h
    rw [passedBy?, passedBy?, passed?_congr hbetween, blocks_congr hfinish, ih hrest]

theorem findSome?_congr {α β : Type} {f g : α → Option β} {xs : List α}
    (h : ∀ x ∈ xs, f x = g x) : xs.findSome? f = xs.findSome? g := by
  have hmap : xs.map f = xs.map g := List.map_congr_left h
  simpa only [List.findSome?_map, Function.id_comp] using congrArg (List.findSome? id) hmap

theorem clausePasses?_congr {target : Square} {c : Clause}
    (h : ∀ route ∈ c.pattern.routes mover.frame {} mover.square target,
      ∀ s ∈ route.squares, p.view s = q.view s) :
    p.clausePasses? mover target c = q.clausePasses? mover target c := by
  rw [clausePasses?_eq_findSome?, clausePasses?_eq_findSome?]
  exact findSome?_congr fun route hroute => passedBy?_congr (h route hroute)

/-- A clause that gives a move has a route to its target. -/
theorem view_eq_of_clausePasses? (h : AlikeFor mover p q) {c : Clause} (hc : c ∈ mover.grammar.clauses)
    {target : Square} {passed : List PieceId}
    (hpasses : p.clausePasses? mover target c = some passed) : p.view target = q.view target := by
  rw [clausePasses?_eq_findSome?] at hpasses
  obtain ⟨route, hroute, -⟩ := List.exists_of_findSome?_eq_some hpasses
  exact h c hc target route hroute target (Pattern.target_mem_squares hroute)

end Views

section Moves

variable {mover : Slot} {target : Square} {m : Move}

theorem grammarMove?_congr (h : AlikeFor mover.piece p q) :
    p.grammarMove? mover target (p.occupant? target) =
      q.grammarMove? mover target (q.occupant? target) := by
  refine findSome?_congr fun c hc => ?_
  have hpasses := clausePasses?_congr (h c hc target)
  rw [hpasses]
  cases hq : q.clausePasses? mover.piece target c with
  | none => simp only [Option.map_none, ite_self]
  | some passed =>
    have hview : p.view target = q.view target := view_eq_of_clausePasses? h hc (hpasses.trans hq)
    have hsome : (p.occupant? target).isSome = (q.occupant? target).isSome := by
      simpa [view] using congrArg Option.isSome hview
    have hid : (p.occupant? target).map (·.id) = (q.occupant? target).map (·.id) := by
      simpa [view, Function.comp_def] using congrArg (Option.map Prod.fst) hview
    rw [hsome, hid]

/-- A piece keeps a move by its grammar where all of its routes look the same. -/
theorem plainMove?_of_alikeFor (h : AlikeFor mover.piece p q) (hm : p.plainMove? mover target = some m)
    (hspecial : m.special ≠ .enPassant) : q.plainMove? mover target = some m := by
  obtain ⟨hstands, htarget, -⟩ := of_plainMove? hm
  obtain ⟨-, hmove, hother⟩ := (plainMove?_cases hm).resolve_right fun h => hspecial h.1
  have hfree : ∀ id dummy, p.view target = some (id, dummy) →
      id.side ≠ mover.id.side ∧ dummy = false := by
    intro id dummy hview
    obtain ⟨other, hoccupant, hseen⟩ := Option.map_eq_some_iff.mp hview
    obtain ⟨rfl, rfl⟩ := Prod.mk.inj hseen
    exact hother other hoccupant
  obtain ⟨c, hc, -, passed, hpassed, -⟩ := of_grammarMove? hmove
  rw [view_eq_of_clausePasses? h hc hpassed] at hfree
  rw [grammarMove?_congr h] at hmove
  unfold plainMove?
  rw [if_neg (by simp [hstands, htarget])]
  cases hoccupant : q.occupant? target with
  | none =>
    rw [hoccupant] at hmove
    change (q.grammarMove? mover target none).or (q.enPassant? mover target) = some m
    rw [hmove]
    rfl
  | some slot =>
    have hslot := hfree slot.id slot.piece.isDummy (by rw [view, hoccupant, Option.map_some])
    rw [hoccupant] at hmove
    simp only [hslot, hmove, or_self, Bool.false_eq_true, if_false]

end Moves

end Position

end FairyChess
