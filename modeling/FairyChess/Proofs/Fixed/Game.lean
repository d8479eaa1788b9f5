import FairyChess.Fixed.Game
import FairyChess.Proofs.Fixed.Search
import Mathlib

/-!
Games in numbers of 32 bits. What is announced while a game goes on are the events that are listed for it among
all integers, in the same order, and the game goes on as it does there.
-/
namespace FairyChess.Fixed.Game

variable {m : Type → Type} [Build m] [LawfulMonad m] {g : Game} {z : Bounds} {announce : Event → m Unit}

section Announcing

variable {α β : Type}

/-- What there is to say of some things is said of one after the other. -/
theorem forM_filterMap (f : α → Option β) (say : β → m Unit) (xs : List α) :
    forM (xs.filterMap f) say = forM xs fun x => forM (f x).toList say := by
  induction xs with
  | nil => rfl
  | cons x xs ih =>
    rw [List.forM_cons, ← ih, List.filterMap_cons]
    cases f x with
    | none => simp
    | some y => simp

omit [LawfulMonad m] in
theorem forM_congr {f f' : α → m Unit} {xs : List α} (h : ∀ x ∈ xs, f x = f' x) : forM xs f = forM xs f' := by
  induction xs with
  | nil => rfl
  | cons x xs ih =>
    obtain ⟨hx, hxs⟩ := List.forall_mem_cons.mp h
    rw [List.forM_cons, List.forM_cons, hx, ih hxs]

end Announcing

/-- The events of what was played are announced, and the game goes on. -/
def announced (announce : Event → m Unit) (played : Played) : m Game := do
  forM played.events announce
  return played.game

section Moves

variable {p : Position} {side : Side}

/-- What there is to say of a king on its turn. -/
def threatened? (p : Position) (side : Side) (king : Slot) : Option Event :=
  if king.piece.isCaptured then none
  else
    let attackers := p.threats king.piece.square side
    if attackers.isEmpty then none else some (.threatened king.piece attackers)

theorem warn_eq (h : p.LiesIn z) (king : Slot) :
    warn announce p side king = forM (threatened? p side king).toList announce := by
  rw [warn, threats_of_liesIn h, pure_bind, threatened?]
  split
  · rfl
  · dsimp only
    split
    · rfl
    · simp

theorem text_eq (h : g.position.LiesIn z) : (text g : m String) = pure g.text := by
  rw [text, checkStatus_of_liesIn h, pure_bind, FairyChess.Game.text]

theorem forM_turnEvents (h : p.LiesIn z) :
    forM (Game.turnEvents p side) announce =
      (announce (.turn side) >>= fun _ => forM (p.kings side) (warn announce p side)) := by
  have hevents : Game.turnEvents p side = .turn side :: (p.kings side).filterMap (threatened? p side) := rfl
  rw [hevents, List.forM_cons, forM_filterMap]
  congr 1
  funext _
  exact forM_congr fun king _ => (warn_eq h king).symm

theorem make_eq (h : g.position.Computable z 1) {move : Move} {id : PieceId} {target : Square}
    (hlegal : g.position.move? id target = some move) (choice : Option Kind) :
    make announce g move choice = announced announce (g.make move choice) := by
  have hafter : (g.position.make move choice).position.LiesIn z := h.lies.after h.toWellFormed hlegal choice
  have hevents : (g.make move choice).events = (g.position.make move choice).events ++
      Game.turnEvents (g.position.make move choice).position g.turn.opposite := rfl
  rw [make, Fixed.make_eq h.lies h.toWellFormed hlegal (h.canCount move), pure_bind, announced, hevents,
    List.forM_append, forM_turnEvents hafter]
  simp only [bind_assoc]
  rfl

/-- What is played is announced. A refusal is not. -/
theorem play?_eq (announce : Event → m Unit) (h : g.position.Computable z 1) (origin target : Square)
    (choice : Option Kind) :
    play? announce g origin target choice = match g.play? origin target choice with
      | some played => some <$> announced announce played
      | none => pure none := by
  unfold play? FairyChess.Game.play?
  split
  · rfl
  cases hoccupant : g.position.occupant? origin with
  | none => rfl
  | some mover =>
    obtain ⟨-, hpiece, -, -⟩ := Position.of_occupant? _ hoccupant
    dsimp only [Option.bind_eq_bind, Option.bind_some]
    split
    · rw [moveOf?_eq h.lies hpiece, pure_bind]
      cases hmove : g.position.moveOf? mover target with
      | none => rfl
      | some move =>
        have hlegal : g.position.move? mover.id target = some move :=
          (Position.move?_eq_moveOf? hpiece target).trans hmove
        exact congrArg (some <$> ·) (make_eq h hlegal choice)
    · rfl

end Moves

section Best

variable {depth : ℕ}

theorem bestMove_eq (h : g.position.Computable z depth) :
    (bestMove g depth : m (Except SearchError (Option Choice))) = pure (g.bestMove depth) := by
  unfold bestMove FairyChess.Game.bestMove
  split
  · rfl
  · rw [search_eq h, pure_bind]

/-- The search plays in every build what it plays among all integers. -/
theorem playBest_eq (h : g.position.Computable z (depth + 1)) (choice : Option Kind) :
    playBest announce g depth choice = match g.playBest depth choice with
      | .error e => pure (.error e)
      | .ok none => pure (.ok none)
      | .ok (some played) => (.ok ∘ some) <$> announced announce played := by
  unfold playBest FairyChess.Game.playBest
  rw [bestMove_eq (h.mono (Nat.le_succ depth)), pure_bind]
  cases g.bestMove depth with
  | error e => rfl
  | ok best =>
    cases best with
    | none => rfl
    | some best =>
      have hone : g.position.Computable z 1 := h.mono (Nat.le_add_left 1 depth)
      have hplay := play?_eq announce hone best.move.origin best.move.target choice
      dsimp only [Except.map, Option.bind_some]
      rw [hplay]
      cases g.play? best.move.origin best.move.target choice with
      | none => exact map_pure ..
      | some played => exact (comp_map ..).symm

end Best

end FairyChess.Fixed.Game
