import FairyChess.Proofs.Game.Winner
import FairyChess.Proofs.Search.Minimax
import Mathlib

/-!
What is played. A move is asked for by its squares, and the piece is looked up on the first of them. In a
well-formed position this finds the listed moves and nothing else, so whatever the search chooses is played.
-/
namespace FairyChess

namespace Position

/-- A move to `target` is listed for the piece, which stands on `origin`. -/
def Lists (p : Position) (side : Side) (origin target : Square) (id : PieceId) : Prop :=
  (id, target) ∈ p.moveList side ∧ ∃ q, p.piece? id = some q ∧ q.square = origin

theorem lists_iff {p : Position} {side : Side} {origin target : Square} {id : PieceId} :
    p.Lists side origin target id ↔
      ∃ m ∈ p.moves side, m.mover = id ∧ m.origin = origin ∧ m.target = target := by
  constructor
  · rintro ⟨hlisted, q, hq, rfl⟩
    obtain ⟨m, hm, hpair⟩ := List.mem_map.mp hlisted
    obtain ⟨rfl, rfl⟩ := Prod.mk.inj hpair
    obtain ⟨r, hr, -, horigin⟩ := mover_of_mem_moves hm
    have hsame : q = r := Option.some.inj (hq.symm.trans hr)
    exact ⟨m, hm, rfl, hsame ▸ horigin.symm, rfl⟩
  · rintro ⟨m, hm, rfl, rfl, rfl⟩
    obtain ⟨q, hq, -, horigin⟩ := mover_of_mem_moves hm
    exact ⟨List.mem_map_of_mem hm, q, hq, horigin⟩

end Position

namespace Game

/-- What a call announces. Nothing is announced of a call that is refused, nor of a move taken back. -/
def announced (g : Game) : Call → List Event
  | .play origin target answer =>
    match g.play? origin target answer with
    | some played => played.events
    | none => []
  | .playBest depth answer =>
    match g.playBest depth answer with
    | .ok (some played) => played.events
    | _ => []
  | .undo => []

variable {g : Game} {origin target : Square} {answer : Option Kind} {played : Played} {depth : ℕ} {m : Move}

theorem run_singleton (c : Call) : g.run [c] = (Session.call ⟨g, []⟩ c).game := rfl

theorem run_play (h : g.play? origin target answer = some played) :
    g.run [.play origin target answer] = played.game := by
  simp only [run_singleton, Session.call, h, Session.add]

theorem run_play_of_refused (h : g.play? origin target answer = none) :
    g.run [.play origin target answer] = g ∧ g.announced (.play origin target answer) = [] := by
  simp only [run_singleton, Session.call, h, Session.add, announced, and_self]

theorem run_playBest (h : g.playBest depth answer = .ok (some played)) :
    g.run [.playBest depth answer] = played.game := by
  simp only [run_singleton, Session.call, h, Session.add]

theorem run_playBest_of_refused (h : g.playBest depth answer = .ok none) :
    g.run [.playBest depth answer] = g ∧ g.announced (.playBest depth answer) = [] := by
  simp only [run_singleton, Session.call, h, Session.add, announced, and_self]

/-- The allowed moves of a game that is not over are those that are listed. -/
theorem allows_iff (hp : g.position.WellFormed) :
    g.Allows m ↔ g.winner? = none ∧ m ∈ g.position.moves g.turn := by
  constructor
  · intro h
    exact ⟨h.winner, Position.mem_moves.mpr ⟨h.turn, h.legal⟩⟩
  · rintro ⟨hwinner, hmem⟩
    obtain ⟨hturn, hlegal⟩ := Position.mem_moves.mp hmem
    obtain ⟨q, hq, hstands, horigin⟩ := Position.mover_of_mem_moves hmem
    have hholds : g.position.occupant? m.origin = some ⟨m.mover, q⟩ := by
      rw [← horigin]
      exact hp.occupant?_eq ⟨m.mover, q⟩ hq hstands
    exact ⟨hwinner, hturn, hlegal, _, hholds, rfl⟩

/--
Just the listed moves are played, in a well-formed position. What is played is a move of the one piece that
it is listed for. It becomes the last of the history, and the other side's turn comes. A move that is refused
changes nothing, and nothing is announced.
-/
theorem play?_iff_lists (hp : g.position.WellFormed) (origin target : Square) (answer : Option Kind) :
    ((∃ played, g.play? origin target answer = some played) ↔
      g.winner? = none ∧ ∃ id, g.position.Lists g.turn origin target id) ∧
    (∀ played, g.play? origin target answer = some played →
      (∀ id, g.position.Lists g.turn origin target id → played.record.move.mover = id) ∧
      played.record.move.origin = origin ∧ played.record.move.target = target ∧
      played.game.history = played.record :: g.history ∧ played.game.turn = g.turn.opposite ∧
      g.run [.play origin target answer] = played.game) ∧
    (g.play? origin target answer = none →
      g.run [.play origin target answer] = g ∧ g.announced (.play origin target answer) = []) := by
  have hplays {id : PieceId} (hwinner : g.winner? = none) (hid : g.position.Lists g.turn origin target id) :
      ∃ m, m.mover = id ∧ g.play? origin target answer = some (g.make m answer) := by
    obtain ⟨m, hm, hmover, rfl, rfl⟩ := Position.lists_iff.mp hid
    exact ⟨m, hmover, ((allows_iff hp).mpr ⟨hwinner, hm⟩).play? answer⟩
  refine ⟨⟨?_, ?_⟩, ?_, run_play_of_refused⟩
  · rintro ⟨played, hplay⟩
    obtain ⟨m, hm, horigin, htarget, -⟩ := of_play? hplay
    obtain ⟨hwinner, hmem⟩ := (allows_iff hp).mp hm
    exact ⟨hwinner, m.mover, Position.lists_iff.mpr ⟨m, hmem, rfl, horigin, htarget⟩⟩
  · rintro ⟨hwinner, id, hid⟩
    obtain ⟨m, -, hplay⟩ := hplays hwinner hid
    exact ⟨_, hplay⟩
  · intro played hplay
    have hrun := run_play hplay
    obtain ⟨m, hm, horigin, htarget, rfl⟩ := of_play? hplay
    refine ⟨fun id hid => ?_, horigin, htarget, rfl, rfl, hrun⟩
    obtain ⟨m', hmover, hplay'⟩ := hplays hm.winner hid
    have hmade : g.make m answer = g.make m' answer := Option.some.inj (hplay.symm.trans hplay')
    exact (congrArg (·.record.move.mover) hmade).trans hmover

/-- White may castle here, but not play a pawn of the other side. -/
theorem play?_iff_lists_castling :
    let board : Bounds := { left := 0, right := 5, bottom := 0, top := 4 }
    let p := ((Piece.standard? .rook ⟨0, 0⟩ .white board).toList ++
      (Piece.standard? .king ⟨4, 0⟩ .white board).toList ++
      (Piece.standard? .pawn ⟨4, 3⟩ .black board).toList).foldl Position.add { bounds := board }
    let g : Game := { title := "Castling", position := p }
    p.WellFormed ∧ p.Lists .white ⟨4, 0⟩ ⟨2, 0⟩ ⟨.white, 1⟩ ∧
      (∃ played, g.play? ⟨4, 0⟩ ⟨2, 0⟩ none = some played ∧ played.record.move.mover = ⟨.white, 1⟩ ∧
        played.game.turn = .black) ∧
      g.play? ⟨4, 3⟩ ⟨4, 2⟩ none = none ∧ g.run [.play ⟨4, 3⟩ ⟨4, 2⟩ none] = g := by
  intro board p g
  have hp : p.WellFormed :=
    (Position.regular_foldl_add (by decide) (by decide) (by decide) (by decide)).toWellFormed
  let castles : Move := {
    mover := ⟨.white, 1⟩
    origin := ⟨4, 0⟩
    target := ⟨2, 0⟩
    special := .castle ⟨.white, 0⟩ ⟨0, 0⟩ ⟨3, 0⟩ }
  have hcastles : p.move? castles.mover castles.target = some castles := by cbv
  have hlists : p.Lists .white ⟨4, 0⟩ ⟨2, 0⟩ ⟨.white, 1⟩ :=
    Position.lists_iff.mpr ⟨castles, Position.mem_moves.mpr ⟨rfl, hcastles⟩, rfl, rfl, rfl⟩
  have hrefused : g.play? ⟨4, 3⟩ ⟨4, 2⟩ none = none := by cbv
  obtain ⟨hplays, hmade, -⟩ := play?_iff_lists (g := g) hp ⟨4, 0⟩ ⟨2, 0⟩ none
  obtain ⟨-, -, hkept⟩ := play?_iff_lists (g := g) hp ⟨4, 3⟩ ⟨4, 2⟩ none
  obtain ⟨played, hplay⟩ := hplays.mpr ⟨by decide, _, hlists⟩
  obtain ⟨hmover, -, -, -, hturn, -⟩ := hmade played hplay
  exact ⟨hp, hlists, ⟨played, hplay, hmover _ hlists, hturn⟩, hrefused, (hkept hrefused).1⟩

/-- The search is left without a move only where there is nothing to play. -/
theorem playBest_cases (hp : g.position.WellFormed) (depth : ℕ) (answer : Option Kind) :
    ((g.winner? = none ∧ g.position.moves g.turn ≠ []) ∧
      ∃ best, g.bestMove (depth + 1) = .ok (some best) ∧
        g.playBest (depth + 1) answer = .ok (some (g.make best.move answer))) ∨
    (¬(g.winner? = none ∧ g.position.moves g.turn ≠ []) ∧ g.playBest (depth + 1) answer = .ok none) := by
  cases hwinner : g.winner? with
  | some side => exact .inr ⟨by simp, (not_played_of_winner? (by rw [hwinner]; rfl) answer).2 (depth + 1)⟩
  | none =>
    obtain ⟨o, hsearch, hnone, hmem⟩ := g.position.search_eq_ok g.turn depth true
    have hbest : g.bestMove (depth + 1) = .ok o.best := by
      rw [bestMove, hwinner, hsearch]
      rfl
    cases hchoice : o.best with
    | none =>
      refine .inr ⟨fun h => h.2 (hnone.mp hchoice), ?_⟩
      rw [playBest, hbest, hchoice]
      rfl
    | some best =>
      -- The squares of the chosen move lead back to its own piece.
      have hallows : g.Allows best.move := (allows_iff hp).mpr ⟨hwinner, hmem best hchoice⟩
      have hmoves : g.position.moves g.turn ≠ [] := List.ne_nil_of_mem (hmem best hchoice)
      rw [hchoice] at hbest
      refine .inl ⟨⟨rfl, hmoves⟩, best, hbest, ?_⟩
      rw [playBest, hbest]
      exact congrArg Except.ok (hallows.play? answer)

/--
However a game is played and taken back, the move that the search chooses is the one that is played. One is
played if and only if the game is not over and the side has a legal move. Otherwise nothing changes.
-/
theorem playBest_run {source : String} {v : Variant} (h : Variant.read source = .ok v)
    (calls : List Call) (depth : ℕ) (answer : Option Kind) :
    let g := v.newGame.run calls
    ((∃ played, g.playBest (depth + 1) answer = .ok (some played)) ↔
      g.winner? = none ∧ g.position.moves g.turn ≠ []) ∧
    (∀ played, g.playBest (depth + 1) answer = .ok (some played) →
      g.run [.playBest (depth + 1) answer] = played.game ∧
      ∃ best, g.bestMove (depth + 1) = .ok (some best) ∧ played.record.move = best.move) ∧
    (¬(g.winner? = none ∧ g.position.moves g.turn ≠ []) →
      g.playBest (depth + 1) answer = .ok none ∧ g.run [.playBest (depth + 1) answer] = g ∧
        g.announced (.playBest (depth + 1) answer) = []) := by
  intro g
  have hp : g.position.WellFormed := (run_regular rfl (Variant.regular_of_read h).2 calls).toWellFormed
  rcases playBest_cases hp depth answer with ⟨hcan, best, hbest, hplay⟩ | ⟨hcannot, hplay⟩
  · refine ⟨iff_of_true ⟨_, hplay⟩ hcan, fun played hplayed => ?_, fun hcannot => absurd hcan hcannot⟩
    refine ⟨run_playBest hplayed, best, hbest, ?_⟩
    rw [hplay] at hplayed
    rw [← Option.some.inj (Except.ok.inj hplayed)]
    rfl
  · have hnone (played : Played) : g.playBest (depth + 1) answer ≠ .ok (some played) := by
      rw [hplay]
      exact nofun
    exact ⟨iff_of_false (fun ⟨played, hplayed⟩ => hnone played hplayed) hcannot,
      fun played hplayed => absurd hplayed (hnone played), fun _ => ⟨hplay, run_playBest_of_refused hplay⟩⟩

/-- The search captures the king, and then there is nothing left to play. -/
theorem playBest_run_rook :
    let board : Bounds := { left := 0, right := 3, bottom := 0, top := 1 }
    let king : Template :=
      ⟨"King", .king, 'K', 'k', 1000, { castleRole := some .king }, Kind.kingGrammar⟩
    let rook : Template :=
      ⟨"Rook", .rook, 'R', 'r', 5, { castleRole := some .rook }, Kind.sliderGrammar "n+" .orthogonal⟩
    let v : Variant := {
      title := "Hunt"
      bounds := board
      templates := [king, rook]
      position := [rook.spawn ⟨0, 0⟩ .white board, king.spawn ⟨2, 0⟩ .black board].foldl
        Position.add { bounds := board } }
    let calls : List Call := [.play ⟨0, 0⟩ ⟨1, 0⟩ none, .undo]
    Variant.read "Hunt\n3,1,0,0\n2\nKing,K,k,1000,k1*\nRook,R,r,5,n+\nR1k" = .ok v ∧
      (let g := v.newGame.run calls
        ∃ played best, g.playBest 2 none = .ok (some played) ∧ g.bestMove 2 = .ok (some best) ∧
          played.record.move = best.move) ∧
      let g := v.newGame.run (calls ++ [.playBest 2 none])
      g.winner? = some .white ∧ g.playBest 2 none = .ok none ∧ g.run [.playBest 2 none] = g := by
  intro board king rook v calls
  have hread : Variant.read "Hunt\n3,1,0,0\n2\nKing,K,k,1000,k1*\nRook,R,r,5,n+\nR1k" = .ok v := rfl
  obtain ⟨hplays, hchosen, -⟩ := playBest_run hread calls 1 none
  obtain ⟨-, -, hkept⟩ := playBest_run hread (calls ++ [.playBest 2 none]) 1 none
  have hmoves : ((v.newGame.run calls).position.moves (v.newGame.run calls).turn).length = 2 := by cbv
  have hwinner : (v.newGame.run (calls ++ [.playBest 2 none])).winner? = some .white := by cbv
  obtain ⟨played, hplay⟩ := hplays.mpr ⟨by cbv, List.ne_nil_of_length_eq_add_one hmoves⟩
  obtain ⟨-, best, hbest, hmove⟩ := hchosen played hplay
  obtain ⟨hnone, hsame, -⟩ := hkept (by simp [hwinner])
  exact ⟨hread, ⟨played, best, hplay, hbest, hmove⟩, hwinner, hnone, hsame⟩

end Game

end FairyChess
