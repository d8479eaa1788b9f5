import FairyChess.Game
import FairyChess.Proofs.Position.WellFormed

/-! Games in which moves are made and taken back: only legal moves stand in them. -/
namespace FairyChess

/-- What can be asked of a game. An answer is what the mover becomes if it promotes. -/
inductive Call
  | play (origin target : Square) (answer : Option Kind)
  | playBest (depth : ℕ) (answer : Option Kind)
  | undo
  deriving DecidableEq, Repr

/-- A game with the answers that were given for the moves that stand, the latest first. -/
structure Session where
  game : Game
  answers : List (Option Kind) := []
  deriving DecidableEq, Repr

namespace Session

/-- A move that was refused changes nothing. -/
def add (s : Session) (answer : Option Kind) : Option Played → Session
  | some played => ⟨played.game, answer :: s.answers⟩
  | none => s

def call (s : Session) : Call → Session
  | .play origin target answer => s.add answer (s.game.play? origin target answer)
  | .playBest depth answer =>
    match s.game.playBest depth answer with
    | .ok played => s.add answer played
    | .error _ => s
  | .undo =>
    match s.game.undo? with
    | some (game, _) => ⟨game, s.answers.tail⟩
    | none => s

def run (s : Session) (calls : List Call) : Session :=
  calls.foldl call s

theorem game_add (s : Session) (answer : Option Kind) (played : Option Played) :
    (s.add answer played).game = (played.map (·.game)).getD s.game := by
  cases played <;> rfl

/-- What becomes of a game does not depend on the answers that were given before. -/
theorem game_call {s s' : Session} (h : s.game = s'.game) (c : Call) : (s.call c).game = (s'.call c).game := by
  cases c with
  | play origin target answer => simp only [call, game_add, h]
  | playBest depth answer =>
    simp only [call, h]
    split
    · simp only [game_add, h]
    · exact h
  | undo =>
    simp only [call, h]
    split
    · rfl
    · exact h

theorem game_run {s s' : Session} (h : s.game = s'.game) (calls : List Call) :
    (s.run calls).game = (s'.run calls).game := by
  induction calls generalizing s s' with
  | nil => exact h
  | cons c calls ih => exact ih (game_call h c)

end Session

namespace Game

def run (g : Game) (calls : List Call) : Game :=
  (Session.run ⟨g, []⟩ calls).game

theorem run_append (g : Game) (calls later : List Call) : g.run (calls ++ later) = (g.run calls).run later := by
  have hsession : Session.run ⟨g, []⟩ (calls ++ later) = (Session.run ⟨g, []⟩ calls).run later :=
    List.foldl_append
  have hgame : (Session.run ⟨g, []⟩ calls).game = (⟨g.run calls, []⟩ : Session).game := rfl
  rw [run, hsession]
  exact Session.game_run hgame later

variable {g : Game} {origin target : Square} {answer : Option Kind} {played : Played}

/-- A legal move of the side to move, in a game that is not over. -/
structure Allows (g : Game) (m : Move) : Prop where
  winner : g.winner? = none
  turn : m.mover.side = g.turn
  legal : g.position.move? m.mover m.target = some m
  holds : ∃ mover, g.position.occupant? m.origin = some mover ∧ mover.id = m.mover

theorem Allows.offers {m : Move} (h : g.Allows m) : g.position.Offers m := .legal h.legal

/-- A move that is played is allowed, and is the one that was asked for. -/
theorem of_play? (h : g.play? origin target answer = some played) :
    ∃ m, g.Allows m ∧ m.origin = origin ∧ m.target = target ∧ played = g.make m answer := by
  unfold play? at h
  split at h
  · cases h
  · next hwinner =>
    obtain ⟨mover, hmover, h⟩ := Option.bind_eq_some_iff.mp h
    split at h
    · next hturn =>
      obtain ⟨m, hm, rfl⟩ := Option.map_eq_some_iff.mp h
      obtain ⟨hid, horigin, rfl⟩ := Position.ends_of_moveOf? hm
      obtain ⟨-, hpiece, hsquare, -⟩ := Position.of_occupant? _ hmover
      have hslot : g.position.slot? mover.id = some mover :=
        (Position.slot?_eq_some _).mpr ⟨rfl, hpiece⟩
      have hlegal : g.position.move? m.mover m.target = some m := by
        rw [hid, Position.move?, hslot]
        exact hm
      rw [hsquare] at horigin
      rw [← horigin] at hmover
      exact ⟨m, ⟨by simpa using hwinner, hid ▸ hturn, hlegal, mover, hmover, hid.symm⟩, horigin, rfl,
        rfl⟩
    · cases h

/-- An allowed move can be played. -/
theorem Allows.play? {m : Move} (h : g.Allows m) (answer : Option Kind) :
    g.play? m.origin m.target answer = some (g.make m answer) := by
  obtain ⟨mover, hmover, hid⟩ := h.holds
  obtain ⟨-, hpiece, -, -⟩ := Position.of_occupant? _ hmover
  obtain ⟨q, hq, hmove⟩ := Position.of_move? h.legal
  rw [← hid, hpiece] at hq
  obtain rfl := Option.some.inj hq
  rw [← hid] at hmove
  unfold Game.play?
  rw [h.winner, hmover]
  change (if mover.id.side = g.turn then _ else none) = _
  rw [if_pos (hid ▸ h.turn)]
  exact congrArg (Option.map (g.make · answer)) hmove

/-- The search plays as anyone could. -/
theorem play?_of_playBest {depth : ℕ} (h : g.playBest depth answer = .ok (some played)) :
    ∃ origin target, g.play? origin target answer = some played := by
  unfold playBest at h
  cases hbest : g.bestMove depth with
  | error e =>
    rw [hbest] at h
    cases h
  | ok best =>
    rw [hbest] at h
    obtain ⟨b, -, hplay⟩ := Option.bind_eq_some_iff.mp (Except.ok.inj h)
    exact ⟨b.move.origin, b.move.target, hplay⟩

/-- Taking back a move right after it was made. -/
theorem undo?_make {m : Move} (h : g.Allows m) (answer : Option Kind) :
    (g.make m answer).game.undo? = some (g, (g.make m answer).record) := by
  have hposition := g.position.undo_make h.offers answer
  have hturn : g.turn.opposite.opposite = g.turn := by cases g.turn <;> rfl
  simp only [make, undo?, hposition, hturn]

end Game

namespace Session

/-- A session whose moves were each allowed when they were made. -/
inductive Stands (start : Game) : Session → Prop
  | start : Stands start ⟨start, []⟩
  | make {s : Session} {m : Move} (answer : Option Kind) (h : Stands start s) (hm : s.game.Allows m) :
      Stands start ⟨(s.game.make m answer).game, answer :: s.answers⟩

variable {start : Game} {s : Session}

theorem Stands.add (h : Stands start s) {answer : Option Kind} {played : Option Played}
    (hplayed : ∀ pl ∈ played, ∃ origin target, s.game.play? origin target answer = some pl) :
    Stands start (s.add answer played) := by
  cases played with
  | none => exact h
  | some pl =>
    obtain ⟨origin, target, hplay⟩ := hplayed pl rfl
    obtain ⟨m, hm, -, -, rfl⟩ := Game.of_play? hplay
    exact .make answer h hm

theorem Stands.call (hstart : start.history = []) (h : Stands start s) (c : Call) :
    Stands start (s.call c) := by
  cases c with
  | play origin target answer => exact h.add fun _ hplay => ⟨origin, target, hplay⟩
  | playBest depth answer =>
    unfold Session.call
    dsimp only
    split
    · next played hbest =>
      refine h.add fun pl hplayed => ?_
      have hplay : s.game.playBest depth answer = .ok (some pl) := by rw [hbest, hplayed]
      exact Game.play?_of_playBest hplay
    · exact h
  | undo =>
    -- Taking back undoes the last constructor: what stood before the last move stands again.
    cases h with
    | start =>
      have hnone : start.undo? = none := by rw [Game.undo?, hstart]
      have hundo : Session.call ⟨start, []⟩ .undo = ⟨start, []⟩ := by
        simp only [Session.call, hnone]
      rw [hundo]
      exact .start
    | @make s m answer h hm =>
      have hundo : Session.call ⟨(s.game.make m answer).game, answer :: s.answers⟩ .undo = s := by
        simp only [Session.call, Game.undo?_make hm answer, List.tail_cons]
      rwa [hundo]

theorem Stands.run (hstart : start.history = []) (h : Stands start s) (calls : List Call) :
    Stands start (s.run calls) := by
  induction calls generalizing s with
  | nil => exact h
  | cons c calls ih => exact ih (h.call hstart c)

end Session

/-- What holds at the start and is kept by every allowed move holds throughout a game. -/
theorem Game.run_induction {P : Game → Prop} {start : Game} (hhistory : start.history = [])
    (hstart : P start)
    (hmake : ∀ g m answer, P g → g.Allows m → P (g.make m answer).game) (calls : List Call) :
    P (start.run calls) := by
  have hstands : Session.Stands start (Session.run ⟨start, []⟩ calls) :=
    Session.Stands.start.run hhistory calls
  unfold Game.run
  generalize Session.run ⟨start, []⟩ calls = s at hstands ⊢
  induction hstands with
  | start => exact hstart
  | make answer _ hm ih => exact hmake _ _ answer ih hm

/-- A game from a regular position keeps to its board, and its position stays regular. What every allowed
move keeps in such positions holds throughout. -/
theorem Game.run_induction_of_regular {P : Game → Prop} {start : Game} (hhistory : start.history = [])
    (hregular : start.position.Regular) (hstart : P start)
    (hmake : ∀ g m answer, g.position.Regular → g.position.bounds = start.position.bounds → P g →
      g.Allows m → P (g.make m answer).game) (calls : List Call) : P (start.run calls) := by
  have hall : (start.run calls).position.Regular ∧
      (start.run calls).position.bounds = start.position.bounds ∧ P (start.run calls) := by
    refine run_induction (P := fun g => g.position.Regular ∧
      g.position.bounds = start.position.bounds ∧ P g) hhistory ⟨hregular, rfl, hstart⟩ ?_ calls
    rintro g m answer ⟨hg, hbounds, hP⟩ hm
    have hafter : (g.make m answer).game.position.Regular := hg.after (hg.fits hm.offers) answer
    exact ⟨hafter, (Position.bounds_after ..).trans hbounds, hmake g m answer hg hbounds hP hm⟩
  exact hall.2.2

theorem Game.run_regular {start : Game} (hhistory : start.history = [])
    (hregular : start.position.Regular) (calls : List Call) : (start.run calls).position.Regular :=
  run_induction_of_regular (P := fun g => g.position.Regular) hhistory hregular hregular
    (fun _ _ answer hp _ _ hm => hp.after (hp.fits hm.offers) answer) calls

/-- A piece that no move of the history touches is as it was at the start. -/
theorem Game.piece?_run {start : Game} (hhistory : start.history = []) (calls : List Call)
    {id : PieceId} (h : ∀ r ∈ (start.run calls).history, id ∉ r.move.touched) :
    (start.run calls).position.piece? id = start.position.piece? id := by
  revert h
  refine run_induction (P := fun g => (∀ r ∈ g.history, id ∉ r.move.touched) →
    g.position.piece? id = start.position.piece? id) hhistory (fun _ => rfl) ?_ calls
  intro g m answer ih _ h
  obtain ⟨hm, hrest⟩ := List.forall_mem_cons.mp h
  exact (g.position.piece?_after_of_not_touched hm answer).trans (ih hrest)

end FairyChess
