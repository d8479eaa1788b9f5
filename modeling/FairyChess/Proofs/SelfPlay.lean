import FairyChess.Proofs.Game.Contest
import FairyChess.SelfPlay
import Mathlib

/-! The report of self-play tells which moves were made and how the play ended. -/
namespace FairyChess.SelfPlay
open Text

/-- How the line on an end opens. No two ends of a contest open alike, whatever the number of plies. -/
def opening : Ending → String
  | .won winner => winner.name ++ " w"
  | .stuck side => side.name ++ " h"
  | .unfinished => "No resu"
  | .failed _ => ""

theorem take_endLine? {plies : ℕ} {e : Ending} {line : String} (h : endLine? plies e = some line) :
    line.toList.take 7 = (opening e).toList := by
  cases e with
  | won winner =>
    obtain rfl := Option.some.inj h
    cases winner <;> simp [opening, Side.name, String.toList_append]
  | stuck side =>
    obtain rfl := Option.some.inj h
    cases side <;> simp [opening, Side.name]
  | unfinished =>
    obtain rfl := Option.some.inj h
    simp [opening, String.toList_append]
  | failed error => cases h

/-- A line tells which end it is on. -/
theorem endLine?_inj {plies plies' : ℕ} {e e' : Ending} {line : String} (h : endLine? plies e = some line)
    (h' : endLine? plies' e' = some line) : e = e' := by
  have hopening : (opening e).toList = (opening e').toList :=
    (take_endLine? h).symm.trans (take_endLine? h')
  -- An end by an error has no line. All other ends open differently, so the sides are split as well.
  rcases e with (_ | _) | (_ | _) | _ | _ <;> rcases e' with (_ | _) | (_ | _) | _ | _ <;>
    first | rfl | exact absurd hopening (by decide) | (cases h; done) | cases h'

/-- An end that is true is reported, and is no error. -/
theorem exists_endLine? {final : Game} {plies limit : ℕ} {e : Ending} (h : e.TrueOf final plies limit) :
    (∃ line, endLine? plies e = some line) ∧ errorText? e = none := by
  cases e with
  | failed error => exact h.elim
  | _ => exact ⟨⟨_, rfl⟩, rfl⟩

/-- The line on a contest is the one on an end if and only if that end is true. The number of plies that the
two lines show can differ only where the ends do. -/
theorem line_eq_iff {c : Contest} {g : Game} {depth limit shown : ℕ} (hc : c.Truthful g depth limit) {e : Ending}
    {line text : String} (hline : endLine? c.plays.length c.ending = some line)
    (htext : endLine? shown e = some text) (hshown : c.ending = e → c.plays.length = shown) :
    line = text ↔ e.TrueOf (g.searched depth c.plays.length) c.plays.length limit := by
  rw [← hc.ending_eq_iff]
  constructor
  · intro hsame
    rw [hsame] at hline
    exact endLine?_inj hline htext
  · intro he
    have hplies : endLine? c.plays.length c.ending = some text := by rw [he, hshown he, htext]
    exact Option.some.inj (hline.symm.trans hplies)

variable {source : String} {v : Variant} {args : List String} {depth limit : ℕ}

theorem report_of_read (h : Variant.read source = .ok v) (hargs : readArguments args = (depth, limit)) :
    report (.ok source) args = run v depth limit := by
  have hsource : (Except.ok source).bind Variant.read = .ok v := h
  rw [report, hsource, hargs]

/--
A report tells truly of a contest of a variant. The search makes all the moves, as many as the limit allows at most.
White makes the even ones, counted from zero, and each is listed for the position it is made in. The last line
gives the winner if and only if the last move captures a king, says that a side has no moves if and only if the
limit is not reached and the side to move has none in a game that is not over, and gives no result if and only if
the limit is reached and the game is not over.
-/
structure Report.TellsOf (r : Report) (v : Variant) (depth limit : ℕ) (c : Contest) (game : ℕ → Game) :
    Prop where
  length_le : c.plays.length ≤ limit
  ply : ∀ i played, c.plays[i]? = some played →
    (game i).playBest depth none = .ok (some played) ∧ game (i + 1) = played.game ∧
    let m := played.record.move
    m.mover.side = (game i).turn ∧ (m.mover.side = .white ↔ Even i) ∧
      (m.mover, m.target) ∈ (game i).position.moveList m.mover.side
  exitCode : r.exitCode = 0
  lines : ∃ line,
    r.lines = [Template.table v.templates, v.newGame.text] ++ c.plays.flatMap moveLines ++ [line] ∧
    ((∃ side : Side, line = side.name ++ " wins after " ++ natText c.plays.length ++ " plies") ∨
      (∃ side : Side, line = side.name ++ " has no moves left") ∨
      line = "No result after " ++ natText limit ++ " plies") ∧
    (∀ side : Side, line = side.name ++ " wins after " ++ natText c.plays.length ++ " plies" ↔
      ∃ i played, c.plays.length = i + 1 ∧ c.plays[i]? = some played ∧ played.record.move.mover.side = side ∧
        played.record.move.TakesKing (game i).position) ∧
    (∀ side : Side, line = side.name ++ " has no moves left" ↔
      c.plays.length < limit ∧ (game c.plays.length).winner? = none ∧ (game c.plays.length).turn = side ∧
        (game c.plays.length).position.moveList side = []) ∧
    (line = "No result after " ++ natText limit ++ " plies" ↔
      c.plays.length = limit ∧ (game c.plays.length).winner? = none)

/-- On a board without the box, self-play reports the contest truly. -/
theorem tellsOf_of_read (h : Variant.read source = .ok v) (hbox : .box ∉ v.bounds)
    (hargs : readArguments args = (depth, limit)) (hdepth : 0 < depth) :
    (report (.ok source) args).TellsOf v depth limit (v.newGame.contest depth limit)
      (v.newGame.searched depth) := by
  let c := v.newGame.contest depth limit
  let plies := c.plays.length
  let game := v.newGame.searched depth
  have hregular : v.newGame.position.Regular := (Variant.regular_of_read h).2
  have hopen : v.newGame.winner? = none := by
    rw [Game.winner?_eq_none_iff]
    exact fun id q hq _ => Variant.stands_of_read h hbox hq
  have hc : c.Truthful v.newGame depth limit := by
    obtain ⟨depth, rfl⟩ := Nat.exists_eq_add_one_of_ne_zero hdepth.ne'
    exact Game.contest_truthful hregular hopen depth limit
  have hr : report (.ok source) args = run v depth limit := report_of_read h hargs
  obtain ⟨⟨line, hline⟩, herror⟩ := exists_endLine? hc.ending
  have hends {e : Ending} {shown : ℕ} {text : String} (htext : endLine? shown e = some text)
      (hshown : c.ending = e → plies = shown) : line = text ↔ e.TrueOf (game plies) plies limit :=
    line_eq_iff hc hline htext hshown
  refine ⟨hc.length_le, fun i played hi => ?_, ?_, line, ?_, ?_, fun side => ?_, fun side => ?_, ?_⟩
  · exact ⟨hc.playBest hi, hc.searched_add_one hi, hc.mover rfl rfl hi⟩
  · rw [hr, Report.exitCode, run, herror]
    rfl
  · rw [hr, run]
    exact congrArg (_ ++ Option.toList ·) hline
  · cases he : c.ending with
    | won side => exact .inl ⟨side, (hends rfl fun _ => rfl).mpr (hc.ending_eq_iff.mp he)⟩
    | stuck side => exact .inr (.inl ⟨side, (hends rfl fun _ => rfl).mpr (hc.ending_eq_iff.mp he)⟩)
    | unfinished =>
      have htrue := hc.ending_eq_iff.mp he
      exact .inr (.inr ((hends rfl fun _ => htrue.1).mpr htrue))
    | failed error => exact (hc.ending_eq_iff.mp he).elim
  · rw [hends (e := .won side) rfl fun _ => rfl]
    exact hc.winner?_iff h hbox
  · exact hends (e := .stuck side) rfl fun _ => rfl
  · exact hends (e := .unfinished) rfl fun he => (hc.ending_eq_iff.mp he).1

end FairyChess.SelfPlay
