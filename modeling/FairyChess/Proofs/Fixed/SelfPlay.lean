import FairyChess.Fixed.SelfPlay
import FairyChess.Proofs.Fixed.Game
import FairyChess.Proofs.SelfPlay
import FairyChess.Proofs.Text.Numeral
import Mathlib

/-!
Self-play in numbers of 32 bits. For a description whose numbers leave room enough, every build prints the lines of
the report that is made among all integers, and ends as it does.
-/
namespace FairyChess

open Fixed Text

section Start

theorem inRange_of_readInt? {cs : List Char} {n : ℤ} (h : readInt? cs = some n) : InRange n := by
  unfold readInt? at h
  split at h
  · obtain ⟨_, hk, rfl⟩ := Option.map_eq_some_iff.mp h
    obtain ⟨k, hfilter, hcast⟩ := Option.bind_eq_some_iff.mp hk
    obtain rfl := Option.some.inj hcast
    have hlimit : k ≤ 2147483648 := by simpa using (Option.filter_eq_some_iff.mp hfilter).2
    constructor <;> omega
  · obtain ⟨k, hk, rfl⟩ := Option.map_eq_some_iff.mp h
    have hlimit : k ≤ 2147483647 := by simpa using (Option.filter_eq_some_iff.mp hk).2
    constructor <;> simp only [Int.ofNat_eq_natCast] <;> omega

namespace Variant

theorem inRange_of_readNumber {line : ℕ} {item : String} {cs : List Char} {n : ℤ}
    (h : readNumber line item readInt? cs = .ok n) : InRange n := by
  unfold readNumber at h
  split at h
  · next hread =>
    obtain rfl := Except.ok.inj h
    exact inRange_of_readInt? hread
  · cases h

/-- The limits of a board that is read fit in 32 bits. -/
theorem inRange_of_readBounds {l : Line} {b : Bounds} (h : readBounds l = .ok b) :
    InRange b.left ∧ InRange b.right ∧ InRange b.bottom ∧ InRange b.top := by
  unfold readBounds at h
  split at h
  swap
  · cases h
  obtain ⟨right, hright, h⟩ := of_bind_eq_ok h
  obtain ⟨top, htop, h⟩ := of_bind_eq_ok h
  obtain ⟨left, hleft, h⟩ := of_bind_eq_ok h
  obtain ⟨bottom, hbottom, h⟩ := of_bind_eq_ok h
  dsimp only at h
  split at h
  · cases h
  · split at h
    · cases h
    · obtain rfl := Except.ok.inj h
      exact ⟨inRange_of_readNumber hleft, inRange_of_readNumber hright, inRange_of_readNumber hbottom,
        inRange_of_readNumber htop⟩

theorem Front.inRange {front : List Line} {title : String} {b : Bounds} {templates : List Template}
    {table : SymbolTable} (h : Front front title b templates table) :
    InRange b.left ∧ InRange b.right ∧ InRange b.bottom ∧ InRange b.top := by
  cases h with
  | intro hbounds _ _ => exact inRange_of_readBounds hbounds

variable {source : String} {v : Variant}

/-- A board that is read is a region to compute in for either side, if there is a file to spare on its left. -/
theorem computes_of_read (h : Variant.read source = .ok v) (hleft : -2147483648 < v.bounds.left) (side : Side) :
    v.bounds.Computes side.direction := by
  obtain ⟨front, table, placement, rest, hfront, -, -⟩ := exists_front_of_read h
  obtain ⟨hpos, harea⟩ := hfront.area
  obtain ⟨hfiles, hranks⟩ := Bounds.spans_of_area_le harea hpos
  have hfilesLe := Bounds.files_le_area hpos
  have hranksLe := Bounds.ranks_le_area hpos
  have hmax : maxArea = 4096 := rfl
  have hone : max 1 |side.direction| = 1 := by cases side <;> rfl
  obtain ⟨-, ⟨-, hright⟩, ⟨hbottom, -⟩, -, htop⟩ := hfront.inRange
  refine ⟨hleft, hright, hbottom, htop.le, ?_, ?_⟩ <;> rw [hone] <;> omega

/-- The game of a variant starts with room for as many plies as there are turns to count. -/
theorem computable_of_read (h : Variant.read source = .ok v) (hleft : -2147483648 < v.bounds.left)
    (hweight : v.position.weight ≤ 2147483647) {plies : ℕ} (hplies : plies < 4294967296) :
    v.newGame.position.Computable v.bounds plies where
  toWellFormed := (regular_of_read h).2.toWellFormed
  lies id q hq _ := by
    obtain ⟨t, hsquare, hspawn⟩ := spawned_of_read h hq
    have hbounds : q.bounds = v.bounds := congrArg Piece.bounds hspawn
    have hdirection : q.direction = id.side.direction := congrArg Piece.direction hspawn
    refine ⟨hsquare, fun s hs => hbounds ▸ hs, ?_⟩
    rw [hdirection]
    exact computes_of_read h hleft id.side
  weight := hweight
  turns {id q} hq := by
    obtain ⟨t, -, hspawn⟩ := spawned_of_read h hq
    have hturns : q.turns = 0 := congrArg Piece.turns hspawn
    omega

end Variant

end Start

namespace Fixed.SelfPlay

open FairyChess.SelfPlay

section Printing

variable {m : Type → Type} [Console m] [LawfulMonad m]

theorem printAll_append (lines more : List String) :
    (printAll (lines ++ more) : m Unit) = printAll lines >>= fun _ => printAll more := by
  rw [printAll, List.forM_append]
  rfl

omit [LawfulMonad m] in
theorem printAll_cons (line : String) (lines : List String) :
    (printAll (line :: lines) : m Unit) = Console.print line >>= fun _ => printAll lines :=
  List.forM_cons

/-- The events of a ply and then the game after it are the lines of that ply. -/
theorem announced_eq (played : Played) :
    (Game.announced (announce played.game.position.bounds) played : m Game) =
      printAll (played.events.filterMap (eventLine? played.game.position.bounds)) >>= fun _ =>
        pure played.game := by
  rw [printAll, Game.forM_filterMap]
  rfl

theorem printAll_moveLines (played : Played) : (printAll (moveLines played) : m Unit) =
    printAll (played.events.filterMap (eventLine? played.game.position.bounds)) >>= fun _ =>
      Console.print played.game.text := by
  rw [moveLines, printAll_append, printAll, printAll]
  simp

end Printing

section Playing

variable {m : Type → Type} [Console m] [LawfulMonad m] {z : Bounds} {depth limit : ℕ}

/-- The plies that are left are played as they are in the contest of a game, and lead to its end. -/
theorem playOn_eq {g : Game} {left : ℕ} (h : g.position.Computable z (left + depth))
    (hlimit : limit = g.history.length + left) :
    (playOn depth limit left g : m (Option String)) =
      let c := g.contest depth left
      printAll (c.plays.flatMap moveLines ++ (endLine? (g.history.length + c.plays.length) c.ending).toList) >>=
        fun _ => pure (errorText? c.ending) := by
  induction left generalizing g with
  | zero =>
    rw [playOn, Game.contest, hlimit]
    rfl
  | succ left ih =>
    rw [playOn, Game.playBest_eq (h.mono (by omega)), Game.contest]
    cases hbest : g.playBest depth none with
    | error e => simp [printAll, endLine?, errorText?]
    | ok best =>
      cases best with
      | none => simp [endLine?, errorText?]
      | some played =>
        obtain ⟨move, hallows, rfl⟩ := Game.allows_of_playBest hbest
        have hroom : g.position.Computable z (left + depth + 1) := h.mono (by omega)
        have hnext : (g.make move none).game.position.Computable z (left + depth) :=
          hroom.after hallows.legal none
        have hbounds : g.position.bounds = (g.make move none).game.position.bounds :=
          (g.position.bounds_after move none).symm
        have hpast : (g.make move none).game.history.length = g.history.length + 1 := rfl
        have hrest := ih hnext (by omega)
        rw [hbounds]
        simp only [bind_map_left, announced_eq, Game.text_eq hnext.lies, bind_assoc, pure_bind,
          Function.comp_apply]
        cases (g.make move none).game.winner? with
        | some winner =>
          simp only [List.flatMap_cons, List.flatMap_nil, List.append_nil, printAll_append, printAll_moveLines,
            bind_assoc, hpast]
          rfl
        | none =>
          have hshown (c : Contest) : g.history.length + (c.after (g.make move none)).plays.length =
              (g.make move none).game.history.length + c.plays.length := by
            rw [hpast, Contest.after, List.length_cons]
            omega
          have hlines (c : Contest) : (c.after (g.make move none)).plays.flatMap moveLines =
              moveLines (g.make move none) ++ c.plays.flatMap moveLines := rfl
          simp only [hrest, hshown, hlines, List.append_assoc, printAll_append, printAll_moveLines, bind_assoc]
          rfl

end Playing

section Reporting

variable {source : String} {v : Variant} {args : List String} {depth limit : ℕ}

theorem report_eq_run {m : Type → Type} [Console m] (h : Variant.read source = .ok v)
    (hargs : readArguments args = (depth, limit)) :
    (report (.ok source) args : m (Option String)) = run v depth limit := by
  have hsource : (Except.ok source).bind Variant.read = .ok v := h
  rw [report, hsource]
  dsimp only
  rw [hargs]

/-- In every build self-play prints the report that is made among all integers, and ends as it does. -/
theorem report_eq {m : Type → Type} [Console m] [LawfulMonad m] (h : Variant.read source = .ok v)
    (hleft : -2147483648 < v.bounds.left) (hweight : v.position.weight ≤ 2147483647)
    (hargs : readArguments args = (depth, limit)) (hplies : limit + depth < 4294967296) :
    (report (.ok source) args : m (Option String)) =
      printAll (FairyChess.SelfPlay.report (.ok source) args).lines >>= fun _ =>
        pure (FairyChess.SelfPlay.report (.ok source) args).error := by
  have hroom : v.newGame.position.Computable v.bounds (limit + depth) :=
    Variant.computable_of_read h hleft hweight hplies
  have hstart : v.newGame.history.length = 0 := rfl
  have hplay := playOn_eq (m := m) hroom (limit.zero_add.symm.trans (by rw [hstart]))
  rw [report_of_read h hargs, report_eq_run h hargs, run, Game.text_eq hroom.lies, hplay, pure_bind,
    FairyChess.SelfPlay.run, hstart]
  simp only [Nat.zero_add, List.cons_append, List.nil_append, printAll_cons, bind_assoc]

/-- Lines that are printed come after those that were. -/
theorem printAll_unchecked {α : Type} (lines printed : List String) (next : StateM (List String) α) :
    (printAll lines >>= fun _ => next).run printed = next.run (printed ++ lines) := by
  induction lines generalizing printed with
  | nil => rw [List.append_nil]; rfl
  | cons line lines ih =>
    have hrest := ih (printed ++ [line])
    rw [List.append_assoc] at hrest
    exact hrest

theorem printAll_checked {α : Type} (lines printed : List String) (next : OptionT (StateM (List String)) α) :
    (printAll lines >>= fun _ => next).run.run printed = next.run.run (printed ++ lines) := by
  induction lines generalizing printed with
  | nil => rw [List.append_nil]; rfl
  | cons line lines ih =>
    have hrest := ih (printed ++ [line])
    rw [List.append_assoc] at hrest
    exact hrest

/--
Self-play of a description whose numbers leave room enough prints a true report and exits without an error, whether
the build checks its numbers or not. There is room enough if the board keeps a file clear of the least number, the
pieces weigh no more than fits and so do the plies that are played and looked at.
-/
theorem prints_tellsOf (h : Variant.read source = .ok v) (hbox : .box ∉ v.bounds)
    (hleft : -2147483648 < v.bounds.left) (hweight : v.position.weight ≤ 2147483647)
    (hargs : readArguments args = (depth, limit)) (hdepth : 0 < depth) (hplies : limit + depth < 4294967296) :
    ∃ r : Report,
      r.TellsOf v depth limit (v.newGame.contest depth limit) (v.newGame.searched depth) ∧
      (report (.ok source) args : StateM (List String) (Option String)).run [] = (none, r.lines) ∧
      (report (.ok source) args : OptionT (StateM (List String)) (Option String)).run.run [] =
        (some none, r.lines) ∧
      exitCode (some none) = 0 := by
  have htells := tellsOf_of_read h hbox hargs hdepth
  have herror : (FairyChess.SelfPlay.report (.ok source) args).error = none := by
    have hexit := htells.exitCode
    rw [Report.exitCode] at hexit
    cases herror : (FairyChess.SelfPlay.report (.ok source) args).error with
    | none => rfl
    | some message =>
      rw [herror] at hexit
      cases hexit
  refine ⟨FairyChess.SelfPlay.report (.ok source) args, htells, ?_, ?_, rfl⟩
  · rw [report_eq h hleft hweight hargs hplies, herror, printAll_unchecked]
    rfl
  · rw [report_eq h hleft hweight hargs hplies, herror, printAll_checked]
    rfl

/-- The rook captures the king with the first move. -/
theorem prints_tellsOf_hunt :
    let source := "Hunt\n3,1,0,0\n2\nKing,K,k,1000,k1*\nRook,R,r,5,n+\nR1k"
    let board : Bounds := { left := 0, right := 3, bottom := 0, top := 1 }
    let king : Template :=
      ⟨"King", .king, 'K', 'k', 1000, { castleRole := some .king }, Kind.kingGrammar⟩
    let rook : Template :=
      ⟨"Rook", .rook, 'R', 'r', 5, { castleRole := some .rook }, Kind.sliderGrammar "n+" .orthogonal⟩
    let v : Variant := {
      title := "Hunt"
      bounds := board
      templates := [king, rook]
      position := [rook.spawn ⟨0, 0⟩ .white board, king.spawn ⟨2, 0⟩ .black board].foldl
        Position.add { bounds := board } }
    Variant.read source = .ok v ∧ .box ∉ v.bounds ∧ -2147483648 < v.bounds.left ∧
      v.position.weight ≤ 2147483647 ∧ readArguments ["2", "3"] = (2, 3) ∧
      (v.newGame.contest 2 3).plays.length = 1 ∧
      ∃ lines, lines.getLast? = some ("White" ++ " wins after " ++ natText 1 ++ " plies") ∧
        (report (.ok source) ["2", "3"] : StateM (List String) (Option String)).run [] = (none, lines) ∧
        (report (.ok source) ["2", "3"] : OptionT (StateM (List String)) (Option String)).run.run [] =
          (some none, lines) := by
  intro source board king rook v
  have hread : Variant.read source = .ok v := by decide +kernel
  have hbox : .box ∉ v.bounds := by decide
  have hleft : -2147483648 < v.bounds.left := by decide
  have hweight : v.position.weight ≤ 2147483647 := by decide
  have hargs : readArguments ["2", "3"] = (2, 3) := by decide
  have hlength : (v.newGame.contest 2 3).plays.length = 1 := by cbv
  have hwinner : (v.newGame.searched 2 1).winner? = some .white := by cbv
  obtain ⟨r, htells, hunchecked, hchecked, -⟩ :=
    prints_tellsOf hread hbox hleft hweight hargs two_pos (by decide)
  obtain ⟨line, hlines, hends, hwon, hstuck, hopen⟩ := htells.lines
  simp only [hlength] at hends hwon hstuck hopen
  refine ⟨hread, hbox, hleft, hweight, hargs, hlength, r.lines, ?_, hunchecked, hchecked⟩
  rw [hlines, List.getLast?_concat]
  rcases hends with ⟨side, hline⟩ | ⟨side, hline⟩ | hline
  · obtain ⟨i, played, hi, hplayed, hmover, -⟩ := (hwon side).mp hline
    obtain rfl : 0 = i := Nat.succ.inj hi
    obtain ⟨-, -, -, hwhite, -⟩ := htells.ply 0 played hplayed
    obtain rfl : Side.white = side := (hwhite.mpr Even.zero).symm.trans hmover
    rw [hline]
    rfl
  · obtain ⟨-, hnone, -⟩ := (hstuck side).mp hline
    rw [hwinner] at hnone
    cases hnone
  · obtain ⟨hlimit, -⟩ := hopen.mp hline
    cases hlimit

/-- The checked build prints what is set up, and stops if it finds no first move. -/
theorem run_checked_of_stop
    (hstatus : ∀ printed, (checkStatus v.newGame.position .white :
      OptionT (StateM (List String)) CheckStatus).run.run printed =
        (some (v.newGame.position.checkStatus .white), printed))
    (hstop : ∀ printed, (playOn depth limit limit v.newGame :
      OptionT (StateM (List String)) (Option String)).run.run printed = (none, printed)) :
    (run v depth limit : OptionT (StateM (List String)) (Option String)).run.run [] =
      (none, [Template.table v.templates, v.newGame.text]) := by
  have htext : (Game.text v.newGame : OptionT (StateM (List String)) String) = pure v.newGame.text := by
    have hwhite : v.newGame.turn = .white := rfl
    have hpure : (checkStatus v.newGame.position .white : OptionT (StateM (List String)) CheckStatus) =
        pure (v.newGame.position.checkStatus .white) := OptionT.ext (StateT.ext hstatus)
    rw [Game.text, hwhite, hpure, pure_bind, FairyChess.Game.text, hwhite]
  have hprinted : (run v depth limit : OptionT (StateM (List String)) (Option String)) =
      printAll [Template.table v.templates, v.newGame.text] >>= fun _ => playOn depth limit limit v.newGame := by
    rw [run, htext, pure_bind, printAll_cons, printAll_cons]
    rfl
  rw [hprinted, printAll_checked, hstop]
  rfl

/-- To lose a man of the least value is a balance that does not fit. -/
theorem stops_on_least_value :
    let source := "Min\n2,1,0,0\n1\nMan,M,m,-2147483648,n=\nMm"
    let play : OptionT (StateM (List String)) (Option String) := report (.ok source) ["1", "1"]
    ∃ v, Variant.read source = .ok v ∧ .box ∉ v.bounds ∧ readArguments ["1", "1"] = (1, 1) ∧
      play.run.run [] = (none, [Template.table v.templates, v.newGame.text]) ∧ exitCode none = 101 := by
  intro source play
  let board : Bounds := { left := 0, right := 2, bottom := 0, top := 1 }
  let man : Template := ⟨"Man", .custom, 'M', 'm', -2147483648, {},
    ⟨"n=", [{ source := "n=", pattern := .step { heading := .sideways, distance := .single .any } }]⟩⟩
  let v : Variant := {
    title := "Min"
    bounds := board
    templates := [man]
    position := [man.spawn ⟨0, 0⟩ .white board, man.spawn ⟨1, 0⟩ .black board].foldl Position.add
      { bounds := board } }
  have hread : Variant.read source = .ok v := by decide +kernel
  have hargs : readArguments ["1", "1"] = (1, 1) := by decide
  have hstatus (printed : List String) : (checkStatus v.newGame.position .white :
      OptionT (StateM (List String)) CheckStatus).run.run printed =
        (some (v.newGame.position.checkStatus .white), printed) := by cbv
  have hstop (printed : List String) : (playOn 1 1 1 v.newGame :
      OptionT (StateM (List String)) (Option String)).run.run printed = (none, printed) := by cbv
  have hplay : play = run v 1 1 := report_eq_run hread hargs
  exact ⟨v, hread, by decide, hargs, hplay ▸ run_checked_of_stop hstatus hstop, rfl⟩

/-- A king looks for a rook past the least file. -/
theorem stops_past_least_file :
    let source := "Edge\n-2147483640,1,-2147483648,0\n1\nKing,K,k,1000,k1*\n4K3"
    let play : OptionT (StateM (List String)) (Option String) := report (.ok source) ["1", "1"]
    ∃ v, Variant.read source = .ok v ∧ .box ∉ v.bounds ∧ v.position.weight ≤ 2147483647 ∧
      play.run.run [] = (none, [Template.table v.templates, v.newGame.text]) ∧ exitCode none = 101 := by
  intro source play
  let board : Bounds := { left := -2147483648, right := -2147483640, bottom := 0, top := 1 }
  let king : Template := ⟨"King", .king, 'K', 'k', 1000, { castleRole := some .king }, Kind.kingGrammar⟩
  let v : Variant := {
    title := "Edge"
    bounds := board
    templates := [king]
    position := [king.spawn ⟨-2147483644, 0⟩ .white board].foldl Position.add { bounds := board } }
  have hread : Variant.read source = .ok v := by decide +kernel
  have hargs : readArguments ["1", "1"] = (1, 1) := by decide
  have hstatus (printed : List String) : (checkStatus v.newGame.position .white :
      OptionT (StateM (List String)) CheckStatus).run.run printed =
        (some (v.newGame.position.checkStatus .white), printed) := by cbv
  have hstop (printed : List String) : (playOn 1 1 1 v.newGame :
      OptionT (StateM (List String)) (Option String)).run.run printed = (none, printed) := by cbv
  have hplay : play = run v 1 1 := report_eq_run hread hargs
  exact ⟨v, hread, by decide, by decide, hplay ▸ run_checked_of_stop hstatus hstop, rfl⟩

end Reporting

end Fixed.SelfPlay

end FairyChess
