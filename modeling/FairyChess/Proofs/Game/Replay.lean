import FairyChess.Proofs.Game.Run
import Mathlib

/-! Games without residue: moves that were taken back leave no trace in the game that goes on. -/
namespace FairyChess

/-- A promotion can be chosen again by its own kind. -/
theorem Piece.promotion?_promotion? (q : Piece) (answer : Option Kind) :
    q.promotion? (q.promotion? answer) = q.promotion? answer := by
  unfold promotion?
  split
  swap
  · rfl
  cases hanswer : answer.filter (Kind.promotions.contains ·) with
  | none => rfl
  | some kind =>
    have hkind : Kind.promotions.contains kind = true := (Option.filter_eq_some_iff.mp hanswer).2
    rw [Option.getD_some, Option.filter_some, if_pos hkind, Option.getD_some]

namespace Position

variable (p : Position) (m : Move) (answer : Option Kind)

theorem promotion?_promotion? : p.promotion? m (p.promotion? m answer) = p.promotion? m answer := by
  unfold promotion?
  cases (p.advance m).piece? m.mover with
  | none => rfl
  | some q => exact q.promotion?_promotion? answer

variable {p m answer} in
/-- What a move leads to depends on the answer only through the promotion. -/
theorem after_congr {other : Option Kind} (h : p.promotion? m other = p.promotion? m answer) :
    p.after m other = p.after m answer := by
  unfold promotion? at h
  unfold after
  dsimp only
  rw [h]

theorem after_promotion? : p.after m (p.promotion? m answer) = p.after m answer :=
  after_congr (p.promotion?_promotion? m answer)

theorem record_promotion? : p.record m (p.promotion? m answer) = p.record m answer := by
  unfold record
  rw [promotion?_promotion?]

end Position

/-- A move as it is asked for. -/
structure Request where
  origin : Square
  target : Square
  answer : Option Kind
  deriving DecidableEq, Repr

/-- The request for the move of a record. -/
def Record.request (r : Record) (answer : Option Kind) : Request :=
  ⟨r.move.origin, r.move.target, answer⟩

namespace Game

/-- The game after the moves that are asked for, if none of them is refused. -/
def replay? (g : Game) (requests : List Request) : Option Game :=
  requests.foldlM (fun g r => (g.play? r.origin r.target r.answer).map (·.game)) g

theorem replay?_concat (g : Game) (requests : List Request) (r : Request) :
    g.replay? (requests ++ [r]) =
      (g.replay? requests).bind fun g => (g.play? r.origin r.target r.answer).map (·.game) := by
  unfold replay?
  rw [List.foldlM_append]
  simp only [List.foldlM_cons, List.foldlM_nil, bind_pure]
  rfl

variable {g : Game} {m : Move}

theorem Allows.replay?_concat (h : g.Allows m) (answer : Option Kind) {start : Game}
    {requests : List Request} (hreplay : start.replay? requests = some g) :
    start.replay? (requests ++ [(g.make m answer).record.request answer]) =
      some (g.make m answer).game := by
  have hplay := h.play? answer
  rw [Game.replay?_concat, hreplay, Option.bind_some]
  change (g.play? m.origin m.target answer).map (·.game) = _
  rw [hplay, Option.map_some]

/-- A move is the same if its promotion is given for the answer. -/
theorem make_promotion (answer : Option Kind) :
    g.make m (g.make m answer).record.promotion = g.make m answer := by
  change g.make m (g.position.promotion? m answer) = _
  simp only [make, Position.make, Position.after_promotion?, Position.record_promotion?]

theorem turn_make_iff (answer : Option Kind) (h : g.turn = .white ↔ Even g.history.length) :
    (g.make m answer).game.turn = .white ↔ Even (g.make m answer).game.history.length := by
  have hturn : g.turn.opposite = .white ↔ ¬g.turn = .white := by cases g.turn <;> decide
  change g.turn.opposite = .white ↔ Even (g.history.length + 1)
  rw [hturn, h, Nat.even_add_one]

end Game

namespace Session.Stands

variable {start : Game} {s : Session}

theorem length_answers (hstart : start.history = []) (h : Stands start s) :
    s.answers.length = s.game.history.length := by
  induction h with
  | start =>
    rw [hstart]
    rfl
  | make answer _ _ ih => exact congrArg (· + 1) ih

theorem replay?_answers (hstart : start.history = []) (h : Stands start s) :
    start.replay? ((s.game.history.zip s.answers).reverse.map fun (r, answer) => r.request answer) =
      some s.game := by
  induction h with
  | start =>
    rw [hstart]
    rfl
  | make answer _ hm ih =>
    have hstep := hm.replay?_concat answer ih
    change start.replay? (((_, answer) :: _).reverse.map _) = _
    rwa [List.reverse_cons, List.map_append]

theorem replay?_promotions (hstart : start.history = []) (h : Stands start s) :
    start.replay? (s.game.history.reverse.map fun r => r.request r.promotion) = some s.game := by
  induction h with
  | start =>
    rw [hstart]
    rfl
  | @make s m answer _ hm ih =>
    have hstep := hm.replay?_concat (s.game.make m answer).record.promotion ih
    rw [Game.make_promotion] at hstep
    change start.replay? ((_ :: s.game.history).reverse.map _) = _
    rwa [List.reverse_cons, List.map_append]

end Session.Stands

namespace Game

/-- White makes the first move, and then the sides take turns. -/
structure Alternates (g : Game) : Prop where
  turn : g.turn = .white ↔ Even g.history.length
  mover {i : ℕ} {r : Record} (hr : g.history.reverse[i]? = some r) :
    r.move.mover.side = .white ↔ Even i

theorem Alternates.make {g : Game} {m : Move} (h : g.Alternates) (hm : g.Allows m)
    (answer : Option Kind) : (g.make m answer).game.Alternates where
  turn := turn_make_iff answer h.turn
  mover {i r} hr := by
    change ((g.make m answer).record :: g.history).reverse[i]? = some r at hr
    rw [List.reverse_cons, List.getElem?_append] at hr
    split at hr
    · exact h.mover hr
    · next hlast =>
      obtain ⟨hi, hr⟩ : i = g.history.length ∧ (g.make m answer).record = r := by
        have hlt := (List.getElem?_eq_some_iff.mp hr).1
        rw [List.length_singleton] at hlt
        rw [List.length_reverse] at hlast hlt
        have hi : i = g.history.length := by omega
        subst hi
        simpa using hr
      rw [← hr, hi, ← h.turn, ← hm.turn]
      rfl

/--
However a game is played, by hand or by the search, and however often moves are taken back, the sides
take turns, and playing the moves that stand from the start gives the same game. The answers may be
those that were given or the promotions that came of them.
-/
theorem replay?_run (title : String) (p : Position) (calls : List Call) :
    let start : Game := { title, position := p }
    let s := Session.run ⟨start, []⟩ calls
    let history := s.game.history
    (s.game.turn = .white ↔ Even history.length) ∧
      (∀ (i : ℕ) (r : Record), history.reverse[i]? = some r → (r.move.mover.side = .white ↔ Even i)) ∧
      start.replay? (history.reverse.map fun r => r.request r.promotion) = some s.game ∧
      s.answers.length = history.length ∧
      start.replay? ((history.zip s.answers).reverse.map fun (r, answer) => r.request answer) =
        some s.game := by
  intro start s history
  have hstands : Session.Stands start s := Session.Stands.start.run rfl calls
  have hfirst : start.Alternates := ⟨⟨fun _ => Even.zero, fun _ => rfl⟩, nofun⟩
  have halternates : s.game.Alternates :=
    run_induction rfl hfirst (fun _ _ answer h hm => h.make hm answer) calls
  exact ⟨halternates.turn, fun _ _ => halternates.mover, hstands.replay?_promotions rfl,
    hstands.length_answers rfl, hstands.replay?_answers rfl⟩

/-- A pawn promotes again after its first promotion was taken back, and the rook replies. -/
theorem replay?_run_promotion :
    let board : Bounds := { left := 0, right := 2, bottom := 0, top := 3 }
    let p := ((Piece.standard? .pawn ⟨0, 1⟩ .white board).toList ++
      (Piece.standard? .rook ⟨1, 2⟩ .black board).toList).foldl Position.add { bounds := board }
    let start : Game := { title := "Pawn", position := p }
    let calls : List Call := [.play ⟨0, 1⟩ ⟨0, 2⟩ none, .undo, .play ⟨0, 1⟩ ⟨0, 2⟩ (some .knight),
      .play ⟨1, 2⟩ ⟨1, 1⟩ none]
    let requests : List Request := [⟨⟨0, 1⟩, ⟨0, 2⟩, some .knight⟩, ⟨⟨1, 2⟩, ⟨1, 1⟩, none⟩]
    (start.run calls).history.reverse.map (fun r => r.request r.promotion) = requests ∧
      start.replay? requests = some (start.run calls) := by
  intro board p start calls requests
  have hrequests : (start.run calls).history.reverse.map (fun r => r.request r.promotion) =
      requests := by cbv
  -- The position stays a variable here, or the run would be evaluated to compare two spellings of it.
  have hreplay (p : Position) (calls : List Call) :
      let start : Game := { title := "Pawn", position := p }
      start.replay? ((start.run calls).history.reverse.map fun r => r.request r.promotion) =
        some (start.run calls) := (replay?_run "Pawn" p calls).2.2.1
  exact ⟨hrequests, (congrArg start.replay? hrequests.symm).trans (hreplay p calls)⟩

end Game

end FairyChess
