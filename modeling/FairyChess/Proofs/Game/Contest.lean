import FairyChess.Contest
import FairyChess.Proofs.Game.Play
import FairyChess.Proofs.Game.Replay
import Mathlib

/-!
Contests. Every ply is a legal move that the search has chosen, and the end that is recorded is the one that
the last game is in. The ends exclude each other, so each can also be told from that game.
-/
namespace FairyChess

namespace Game

variable {g : Game} {m : Move} {depth plies : ℕ} {answer : Option Kind} {played : Played}

/-- The game after the search has moved for both sides for so many plies, or for as many as it could. -/
def searched (g : Game) (depth plies : ℕ) : Game :=
  g.run (List.replicate plies (.playBest depth none))

/-- The first ply may be taken before the others. -/
theorem searched_one_add (h : g.playBest depth none = .ok (some played)) (plies : ℕ) :
    g.searched depth (plies + 1) = played.game.searched depth plies := by
  have hcalls : List.replicate (plies + 1) (Call.playBest depth none) =
      [.playBest depth none] ++ List.replicate plies (.playBest depth none) := rfl
  rw [searched, hcalls, run_append, run_playBest h, searched]

theorem searched_add_one (h : (g.searched depth plies).playBest depth none = .ok (some played)) :
    g.searched depth (plies + 1) = played.game := by
  have hcalls : List.replicate (plies + 1) (Call.playBest depth none) =
      List.replicate plies (.playBest depth none) ++ [.playBest depth none] := List.replicate_succ'
  rw [searched, hcalls, run_append, ← searched, run_playBest h]

theorem allows_of_playBest (h : g.playBest depth answer = .ok (some played)) :
    ∃ m, g.Allows m ∧ played = g.make m answer := by
  obtain ⟨origin, target, hplay⟩ := play?_of_playBest h
  obtain ⟨m, hm, -, -, hplayed⟩ := of_play? hplay
  exact ⟨m, hm, hplayed⟩

theorem LostByLast.winner?_iff (h : g.LostByLast) {side : Side} : g.winner? = some side ↔
    ∃ r rest, g.history = r :: rest ∧ r.move.mover.side = side ∧ r.move.TakesKing g.position := by
  have hside (other : Side) : other ≠ side.opposite ↔ other = side := by
    cases other <;> cases side <;> simp [Side.opposite]
  rw [h.winner?_eq_some_iff, h side.opposite]
  simp only [hside]

/-- What a move has captured is a king after the move if and only if it was one before. -/
theorem Allows.takesKing_make (hm : g.Allows m) (hp : g.position.Regular) (answer : Option Kind) :
    m.TakesKing (g.make m answer).game.position ↔ m.TakesKing g.position := by
  constructor
  · rintro ⟨id, hid, king, hking, hisKing⟩
    obtain ⟨q, hq, -⟩ := Option.map_eq_some_iff.mp ((g.position.piece?_after m answer id).symm.trans hking)
    have hcaptured := hp.piece?_after_of_captured hm.legal hid hq answer
    obtain rfl : king = q.capture := Option.some.inj (hking.symm.trans hcaptured)
    exact ⟨id, hid, q, hq, hisKing⟩
  · rintro ⟨id, hid, king, hking, hisKing⟩
    exact ⟨id, hid, king.capture, hp.piece?_after_of_captured hm.legal hid hking answer, hisKing⟩

end Game

/-- What an end says of the last game of a contest. -/
def Ending.TrueOf (final : Game) (plies limit : ℕ) : Ending → Prop
  | .won winner => final.winner? = some winner
  | .stuck side =>
    plies < limit ∧ final.winner? = none ∧ final.turn = side ∧ final.position.moveList side = []
  | .unfinished => plies = limit ∧ final.winner? = none
  | .failed _ => False

/-- Only one end is true of a game. -/
theorem Ending.TrueOf.unique {final : Game} {plies limit : ℕ} {e e' : Ending}
    (h : e.TrueOf final plies limit) (h' : e'.TrueOf final plies limit) : e = e' := by
  cases e <;> cases e' <;> simp_all [TrueOf]

namespace Contest

/-- A contest in which the search plays from a game, and whose end is true. -/
structure Truthful (c : Contest) (g : Game) (depth limit : ℕ) : Prop where
  length_le : c.plays.length ≤ limit
  playBest {i : ℕ} {played : Played} (h : c.plays[i]? = some played) :
    (g.searched depth i).playBest depth none = .ok (some played)
  ending : c.ending.TrueOf (g.searched depth c.plays.length) c.plays.length limit

variable {c : Contest} {g : Game} {depth limit : ℕ} {played : Played}

theorem truthful_nil {e : Ending} (h : e.TrueOf g 0 limit) : (Contest.mk [] e).Truthful g depth limit where
  length_le := Nat.zero_le limit
  playBest := nofun
  ending := h

theorem Truthful.after (h : c.Truthful played.game depth limit)
    (hplay : g.playBest depth none = .ok (some played)) : (c.after played).Truthful g depth (limit + 1) where
  length_le := Nat.succ_le_succ h.length_le
  playBest {i played'} hi := by
    cases i with
    | zero =>
      obtain rfl : played = played' := Option.some.inj hi
      exact hplay
    | succ i =>
      rw [Game.searched_one_add hplay]
      exact h.playBest hi
  ending := by
    have hfinal : g.searched depth (c.after played).plays.length =
        played.game.searched depth c.plays.length := Game.searched_one_add hplay _
    have hending := h.ending
    rw [hfinal]
    change c.ending.TrueOf _ (c.plays.length + 1) (limit + 1)
    revert hending
    cases c.ending with
    -- The plies and the limit both grow by one, so how they compare does not change.
    | won winner => exact id
    | stuck side => exact And.imp_left Nat.succ_lt_succ
    | unfinished => exact And.imp_left (congrArg (· + 1))
    | failed error => exact id

end Contest

/-- The search plays until the game is won, the side has no move or the plies have run out. -/
theorem Game.contest_truthful {g : Game} (hp : g.position.Regular) (hwinner : g.winner? = none)
    (depth limit : ℕ) : (g.contest (depth + 1) limit).Truthful g (depth + 1) limit := by
  induction limit generalizing g with
  | zero => exact Contest.truthful_nil ⟨rfl, hwinner⟩
  | succ limit ih =>
    rw [contest]
    rcases playBest_cases hp.toWellFormed depth none with ⟨-, best, -, hplay⟩ | ⟨hcannot, hplay⟩
    · obtain ⟨m, hm, hplayed⟩ := allows_of_playBest hplay
      rw [hplay]
      -- From here on only the game after this ply matters, and not how the search found it.
      generalize g.make best.move none = played at hplay hplayed ⊢
      dsimp only
      have hafter : played.game.position.Regular := by
        rw [hplayed]
        exact hp.after (hp.fits hm.offers) none
      cases hover : played.game.winner? with
      | some winner =>
        have hlast : (Contest.mk [] (.won winner)).Truthful played.game (depth + 1) limit :=
          Contest.truthful_nil hover
        exact hlast.after hplay
      | none => exact (ih hafter hover).after hplay
    · have hmoves : g.position.moves g.turn = [] := by
        by_contra hmoves
        exact hcannot ⟨hwinner, hmoves⟩
      rw [hplay]
      exact Contest.truthful_nil ⟨Nat.succ_pos limit, hwinner, rfl, List.map_eq_nil_iff.mpr hmoves⟩

namespace Contest.Truthful

variable {c : Contest} {g : Game} {depth limit i : ℕ} {played : Played}

theorem ending_eq_iff (h : c.Truthful g depth limit) {e : Ending} :
    c.ending = e ↔ e.TrueOf (g.searched depth c.plays.length) c.plays.length limit := by
  constructor
  · rintro rfl
    exact h.ending
  · exact h.ending.unique

theorem searched_add_one (h : c.Truthful g depth limit) (hi : c.plays[i]? = some played) :
    g.searched depth (i + 1) = played.game := Game.searched_add_one (h.playBest hi)

theorem exists_allows (h : c.Truthful g depth limit) (hi : c.plays[i]? = some played) :
    ∃ m, (g.searched depth i).Allows m ∧ played = (g.searched depth i).make m none :=
  Game.allows_of_playBest (h.playBest hi)

theorem length_history (h : c.Truthful g depth limit) (hhistory : g.history = [])
    (hi : i ≤ c.plays.length) : (g.searched depth i).history.length = i := by
  induction i with
  | zero => exact congrArg List.length hhistory
  | succ i ih =>
    obtain ⟨played, hplayed⟩ : ∃ played, c.plays[i]? = some played := ⟨_, List.getElem?_eq_getElem hi⟩
    obtain ⟨m, -, hmade⟩ := h.exists_allows hplayed
    rw [h.searched_add_one hplayed, hmade]
    change (g.searched depth i).history.length + 1 = i + 1
    rw [ih (Nat.le_of_succ_le hi)]

/-- White has the even plies of a contest that starts a game. -/
theorem turn_iff (h : c.Truthful g depth limit) (hhistory : g.history = []) (hturn : g.turn = .white)
    (hi : i ≤ c.plays.length) : (g.searched depth i).turn = .white ↔ Even i := by
  have hstart : g.Alternates := {
    turn := by simp [hhistory, hturn]
    mover := by simp [hhistory] }
  have halternates : (g.searched depth i).Alternates :=
    Game.run_induction hhistory hstart (fun _ _ answer h hm => h.make hm answer) _
  rw [halternates.turn, h.length_history hhistory hi]

/-- Every ply is a listed move of the side whose turn it is. -/
theorem mover (h : c.Truthful g depth limit) (hhistory : g.history = []) (hturn : g.turn = .white)
    (hi : c.plays[i]? = some played) :
    let m := played.record.move
    m.mover.side = (g.searched depth i).turn ∧ (m.mover.side = .white ↔ Even i) ∧
      (m.mover, m.target) ∈ (g.searched depth i).position.moveList m.mover.side := by
  obtain ⟨m, hm, hmade⟩ := h.exists_allows hi
  have hmem : m ∈ (g.searched depth i).position.moves m.mover.side := Position.mem_moves.mpr ⟨rfl, hm.legal⟩
  have hplies : i ≤ c.plays.length := (List.getElem?_eq_some_iff.mp hi).1.le
  have hwhite : m.mover.side = .white ↔ Even i := by rw [hm.turn, h.turn_iff hhistory hturn hplies]
  rw [hmade]
  exact ⟨hm.turn, hwhite, List.mem_map_of_mem hmem⟩

/-- The last game of a contest of a variant is won if and only if the last ply has captured a king. -/
theorem winner?_iff {source : String} {v : Variant} (hread : Variant.read source = .ok v)
    (hbox : .box ∉ v.bounds) (h : c.Truthful v.newGame depth limit) {side : Side} :
    (v.newGame.searched depth c.plays.length).winner? = some side ↔
      ∃ i played, c.plays.length = i + 1 ∧ c.plays[i]? = some played ∧
        played.record.move.mover.side = side ∧
        played.record.move.TakesKing (v.newGame.searched depth i).position := by
  have hlast : (v.newGame.searched depth c.plays.length).LostByLast := Game.lostByLast_run hread hbox _
  have hlength := h.length_history rfl le_rfl
  rw [hlast.winner?_iff]
  cases hplies : c.plays.length with
  | zero =>
    rw [hplies] at hlength
    constructor
    · rintro ⟨r, rest, hhistory, -⟩
      rw [hhistory] at hlength
      cases hlength
    · rintro ⟨i, played, hzero, -⟩
      cases hzero
  | succ i =>
    have hlt : i < c.plays.length := by omega
    obtain ⟨played, hplayed⟩ : ∃ played, c.plays[i]? = some played := ⟨_, List.getElem?_eq_getElem hlt⟩
    obtain ⟨m, hm, hmade⟩ := h.exists_allows hplayed
    have hregular : (v.newGame.searched depth i).position.Regular :=
      Game.run_regular rfl (Variant.regular_of_read hread).2 _
    have hking := hm.takesKing_make hregular none
    rw [h.searched_add_one hplayed, hmade]
    constructor
    · rintro ⟨r, rest, hhistory, hmover, htakes⟩
      obtain ⟨rfl, -⟩ := List.cons.inj hhistory
      refine ⟨i, played, rfl, hplayed, ?_⟩
      rw [hmade]
      exact ⟨hmover, hking.mp htakes⟩
    · rintro ⟨i', played', hi, hplayed', hmover, htakes⟩
      obtain rfl : i = i' := Nat.succ.inj hi
      obtain rfl : played = played' := Option.some.inj (hplayed.symm.trans hplayed')
      rw [hmade] at hmover htakes
      exact ⟨_, _, rfl, hmover, hking.mpr htakes⟩

end Contest.Truthful

end FairyChess
