import FairyChess.Proofs.Position.Lookup
import FairyChess.Proofs.Reading
import FairyChess.Proofs.Text.Blank
import FairyChess.Variant.Placement

/-! Complete placements: these and no others are read, and each of their symbols sets up a piece. -/
namespace FairyChess
open Text

namespace Rank

/-- The number of files that a text covers: one for each symbol, and the value of each run of digits. -/
def width (cs : List Char) : ℕ :=
  cs.countP (!·.isDigit) + ((cs.splitOnP (!·.isDigit)).map digitsValue).sum

/-- The width of a text that goes on from a run of digits with a value. -/
def widthAfter : ℕ → List Char → ℕ
  | run, [] => run
  | run, c :: cs =>
    if c.isDigit then widthAfter (10 * run + digitValue c) cs else run + 1 + widthAfter 0 cs

theorem le_widthAfter (run : ℕ) (cs : List Char) : run ≤ widthAfter run cs := by
  induction cs generalizing run with
  | nil => exact le_rfl
  | cons c cs ih =>
    rw [widthAfter]
    split
    · have hle := ih (10 * run + digitValue c)
      omega
    · omega

theorem widthAfter_eq (run : ℕ) (cs : List Char) :
    ∃ first rest, cs.splitOnP (!·.isDigit) = first :: rest ∧
      widthAfter run cs = cs.countP (!·.isDigit) +
        (first.foldl (fun n c => 10 * n + digitValue c) run + (rest.map digitsValue).sum) := by
  induction cs generalizing run with
  | nil => exact ⟨[], [], List.splitOnP_nil, by simp [widthAfter]⟩
  | cons c cs ih =>
    rw [List.splitOnP_cons_eq_if_modifyHead, List.countP_cons, widthAfter]
    cases hc : c.isDigit with
    | true =>
      obtain ⟨first, rest, hsplit, hwidth⟩ := ih (10 * run + digitValue c)
      exact ⟨c :: first, rest, by simp [hsplit], by simp [hwidth]⟩
    | false =>
      obtain ⟨first, rest, hsplit, hwidth⟩ := ih 0
      refine ⟨[], first :: rest, by simp [hsplit], ?_⟩
      simp only [Bool.false_eq_true, if_false, hwidth, List.foldl_nil, List.map_cons, List.sum_cons,
        digitsValue, Bool.not_false, if_true]
      omega

theorem width_eq (cs : List Char) : width cs = widthAfter 0 cs := by
  obtain ⟨first, rest, hsplit, hwidth⟩ := widthAfter_eq 0 cs
  rw [hwidth, width, hsplit, List.map_cons, List.sum_cons]
  rfl

end Rank

namespace Setup
open Rank

/-- The piece that a symbol stands for after `file` files of a rank. -/
def pieceAt? (s : Setup) (row file : ℕ) (c : Char) : Option Piece :=
  if c.isDigit then none
  else (s.table.find? c).map fun (t, side) =>
    t.spawn ⟨s.bounds.left + file, s.bounds.top - 1 - row⟩ side s.bounds

/-- The pieces of a rank from the left, each after the files that the text before it covers. -/
def rankPieces (s : Setup) (row : ℕ) (cs : List Char) : List Piece :=
  cs.zipIdx.filterMap fun (c, i) => s.pieceAt? row (width (cs.take i)) c

/-- The pieces of a placement in the order of reading. -/
def placed (s : Setup) (text : List Char) : List Piece :=
  (text.splitOn '/').zipIdx.flatMap fun (cs, row) => s.rankPieces row cs

/-- Each symbol is known, and the files of the rank are covered. -/
structure CompleteRank (s : Setup) (cs : List Char) : Prop where
  known : ∀ c ∈ cs, c.isDigit = false → (s.table.find? c).isSome
  width_eq : width cs = s.bounds.files

structure Complete (s : Setup) (text : List Char) : Prop where
  ranks : (text.splitOn '/').length = s.bounds.ranks
  rank : ∀ cs ∈ text.splitOn '/', s.CompleteRank cs

variable {s : Setup} {row file run : ℕ}

section Ranks

/-- The pieces of what is left of a rank after `file` files and a run of empty squares. -/
def rankPiecesAfter (s : Setup) (row file run : ℕ) (cs : List Char) : List Piece :=
  cs.zipIdx.filterMap fun (c, i) => s.pieceAt? row (file + widthAfter run (cs.take i)) c

theorem rankPieces_eq (cs : List Char) : s.rankPieces row cs = s.rankPiecesAfter row 0 0 cs := by
  simp only [rankPieces, rankPiecesAfter, width_eq, Nat.zero_add]

theorem rankPiecesAfter_cons (c : Char) (cs : List Char) :
    s.rankPiecesAfter row file run (c :: cs) =
      if c.isDigit then s.rankPiecesAfter row file (10 * run + digitValue c) cs
      else (s.pieceAt? row (file + run) c).toList ++ s.rankPiecesAfter row (file + run + 1) 0 cs := by
  rw [rankPiecesAfter, List.zipIdx_cons', List.filterMap_cons, List.filterMap_map]
  simp only [Function.comp_def, Prod.map, id_eq, List.take_zero, List.take_succ_cons, widthAfter]
  cases hc : c.isDigit with
  | true =>
    simp only [pieceAt?, hc, if_true]
    rfl
  | false =>
    have hshift (n : ℕ) : file + (run + 1 + n) = file + run + 1 + n := by omega
    simp only [Bool.false_eq_true, if_false, hshift]
    cases s.pieceAt? row (file + run) c <;> rfl

theorem checkSpan_eq_ok_iff {n k : ℕ} :
    s.checkSpan row n = .ok k ↔ n ≤ Bounds.maxSpan ∧ n = k := by
  unfold checkSpan
  split
  · next h => simp [h]
  · next h => simp [h]

theorem readRank_nil_eq_ok_iff {qs : List Piece} :
    s.readRank row file run [] = .ok qs ↔ file + run = s.bounds.files ∧ qs = [] := by
  have hspan : s.bounds.files ≤ Bounds.maxSpan := min_le_right _ _
  rw [readRank, bind_eq_ok_iff]
  simp only [checkSpan_eq_ok_iff]
  constructor
  · rintro ⟨n, ⟨hn, rfl⟩, h⟩
    split at h
    · next hfiles => exact ⟨hfiles, (Except.ok.inj h).symm⟩
    · cases h
  · rintro ⟨hfiles, rfl⟩
    exact ⟨file + run, ⟨by omega, rfl⟩, if_pos hfiles⟩

theorem readRank_digit_eq_ok_iff {c : Char} {cs : List Char} {qs : List Piece} (hc : c.isDigit = true) :
    s.readRank row file run (c :: cs) = .ok qs ↔ 10 * run + digitValue c ≤ Bounds.maxSpan ∧
      s.readRank row file (10 * run + digitValue c) cs = .ok qs := by
  rw [readRank, if_pos hc, bind_eq_ok_iff]
  simp only [checkSpan_eq_ok_iff]
  constructor
  · rintro ⟨n, ⟨hn, rfl⟩, h⟩
    exact ⟨hn, h⟩
  · rintro ⟨hn, h⟩
    exact ⟨_, ⟨hn, rfl⟩, h⟩

theorem readRank_symbol_eq_ok_iff {c : Char} {cs : List Char} {qs : List Piece}
    (hc : c.isDigit = false) : s.readRank row file run (c :: cs) = .ok qs ↔
      ∃ t side rest, s.table.find? c = some (t, side) ∧ file + run < s.bounds.files ∧
        s.readRank row (file + run + 1) 0 cs = .ok rest ∧
        qs = t.spawn ⟨s.bounds.left + (file + run : ℕ), s.bounds.top - 1 - row⟩ side s.bounds ::
          rest := by
  have hspan : s.bounds.files ≤ Bounds.maxSpan := min_le_right _ _
  rw [readRank, if_neg (Bool.eq_false_iff.mp hc), bind_eq_ok_iff]
  simp only [checkSpan_eq_ok_iff]
  constructor
  · rintro ⟨n, ⟨hn, rfl⟩, h⟩
    split at h
    · cases h
    · next t side hfind =>
      split at h
      · cases h
      · next hfile =>
        obtain ⟨rest, hrest, hqs⟩ := of_bind_eq_ok h
        exact ⟨t, side, rest, hfind, by omega, hrest, (Except.ok.inj hqs).symm⟩
  · rintro ⟨t, side, rest, hfind, hfile, hrest, rfl⟩
    refine ⟨file + run, ⟨by omega, rfl⟩, ?_⟩
    rw [hfind]
    dsimp only
    rw [if_neg (by omega), hrest]
    rfl

/-- No rank is wider than a count can be, so a count that is refused never belongs to a complete rank. -/
theorem readRank_eq_ok_iff {cs : List Char} {qs : List Piece} :
    s.readRank row file run cs = .ok qs ↔
      (∀ c ∈ cs, c.isDigit = false → (s.table.find? c).isSome) ∧
        file + widthAfter run cs = s.bounds.files ∧ qs = s.rankPiecesAfter row file run cs := by
  have hspan : s.bounds.files ≤ Bounds.maxSpan := min_le_right _ _
  induction cs generalizing file run qs with
  | nil =>
    rw [readRank_nil_eq_ok_iff, widthAfter]
    exact ⟨fun h => ⟨nofun, h⟩, fun h => h.2⟩
  | cons c cs ih =>
    rw [rankPiecesAfter_cons, widthAfter, List.forall_mem_cons]
    cases hc : c.isDigit with
    | true =>
      rw [readRank_digit_eq_ok_iff hc]
      simp only [if_true, ih]
      constructor
      · rintro ⟨-, hknown, hfiles, hqs⟩
        exact ⟨⟨nofun, hknown⟩, hfiles, hqs⟩
      · rintro ⟨⟨-, hknown⟩, hfiles, hqs⟩
        have hle := le_widthAfter (10 * run + digitValue c) cs
        exact ⟨by omega, hknown, hfiles, hqs⟩
    | false =>
      rw [readRank_symbol_eq_ok_iff hc]
      simp only [Bool.false_eq_true, if_false, forall_true_left, ih]
      constructor
      · rintro ⟨t, side, rest, hfind, -, ⟨hknown, hfiles, rfl⟩, rfl⟩
        refine ⟨⟨by rw [hfind]; rfl, hknown⟩, by omega, ?_⟩
        rw [pieceAt?, hc, hfind]
        rfl
      · rintro ⟨⟨hsymbol, hknown⟩, hfiles, rfl⟩
        obtain ⟨⟨t, side⟩, hfind⟩ := Option.isSome_iff_exists.mp hsymbol
        refine ⟨t, side, _, hfind, by omega, ⟨hknown, by omega, rfl⟩, ?_⟩
        rw [pieceAt?, hc, hfind]
        rfl

theorem readRank_start_eq_ok_iff {cs : List Char} {qs : List Piece} :
    s.readRank row 0 0 cs = .ok qs ↔ s.CompleteRank cs ∧ qs = s.rankPieces row cs := by
  rw [readRank_eq_ok_iff, Nat.zero_add, ← width_eq, ← rankPieces_eq, ← and_assoc]
  exact and_congr_left fun _ => ⟨fun h => ⟨h.1, h.2⟩, fun h => ⟨h.known, h.width_eq⟩⟩

theorem readRanks_eq_ok_iff {rows : List (List Char)} {qs : List Piece} :
    s.readRanks row rows = .ok qs ↔ (∀ cs ∈ rows, s.CompleteRank cs) ∧
      qs = (rows.zipIdx row).flatMap fun (cs, i) => s.rankPieces i cs := by
  induction rows generalizing row qs with
  | nil =>
    rw [readRanks, Except.ok.injEq]
    exact ⟨fun h => ⟨nofun, h.symm⟩, fun h => h.2.symm⟩
  | cons cs rows ih =>
    rw [readRanks, List.forall_mem_cons, List.zipIdx_cons, List.flatMap_cons]
    simp only [bind_eq_ok_iff, readRank_start_eq_ok_iff, ih, Except.ok.injEq]
    constructor
    · rintro ⟨front, ⟨hfirst, rfl⟩, back, ⟨hrest, rfl⟩, rfl⟩
      exact ⟨⟨hfirst, hrest⟩, rfl⟩
    · rintro ⟨⟨hfirst, hrest⟩, rfl⟩
      exact ⟨_, ⟨hfirst, rfl⟩, _, ⟨hrest, rfl⟩, rfl⟩

end Ranks

theorem readPlacement_eq_ok_iff {text : List Char} {p : Position} :
    s.readPlacement text = .ok p ↔
      s.Complete text ∧ p = (s.placed text).foldl Position.add { bounds := s.bounds } := by
  rw [readPlacement, fields_eq_splitOn]
  constructor
  · intro h
    split at h
    · next hlength =>
      obtain ⟨qs, hqs, hp⟩ := bind_eq_ok_iff.mp h
      obtain ⟨hranks, rfl⟩ := readRanks_eq_ok_iff.mp hqs
      exact ⟨⟨hlength, hranks⟩, (Except.ok.inj hp).symm⟩
    · cases h
  · rintro ⟨hcomplete, rfl⟩
    rw [if_pos hcomplete.ranks, bind_eq_ok_iff]
    exact ⟨_, readRanks_eq_ok_iff.mpr ⟨hcomplete.rank, rfl⟩, rfl⟩

/-- Every piece of a placement comes from a symbol in one of its ranks. -/
theorem exists_symbol_of_mem_placed {text : List Char} {q : Piece} (h : q ∈ s.placed text) :
    ∃ cs ∈ text.splitOn '/', ∃ c ∈ cs, c.isDigit = false ∧ ∃ t side square,
      s.table.find? c = some (t, side) ∧ q = t.spawn square side s.bounds := by
  obtain ⟨⟨cs, row⟩, hrow, hq⟩ := List.mem_flatMap.mp h
  obtain ⟨⟨c, i⟩, hc, hpiece⟩ := List.mem_filterMap.mp hq
  refine ⟨cs, List.fst_mem_of_mem_zipIdx hrow, c, List.fst_mem_of_mem_zipIdx hc, ?_⟩
  dsimp only [pieceAt?] at hpiece
  split at hpiece
  · cases hpiece
  · next hdigit =>
    obtain ⟨⟨t, side⟩, hfind, rfl⟩ := Option.map_eq_some_iff.mp hpiece
    exact ⟨Bool.eq_false_iff.mpr hdigit, t, side, _, hfind, rfl⟩

end Setup

/-- A symbol of a placement: the piece type and the side that it stands for, and its square. -/
structure Occurrence where
  template : Template
  side : Side
  square : Square

/-- The piece is a new one of the type of an occurrence, on its square. -/
structure Piece.NewAt (q : Piece) (board : Bounds) (o : Occurrence) : Prop where
  square : q.square = o.square
  bounds : q.bounds = board
  side : q.side = o.side
  direction : q.direction = match o.side with
    | .white => 1
    | .black => -1
  symbol : q.symbol = match o.side with
    | .white => o.template.whiteSymbol
    | .black => o.template.blackSymbol
  name : q.name = o.template.name
  kind : q.kind = o.template.kind
  value : q.value = o.template.value
  behavior : q.behavior = o.template.behavior
  grammar : q.grammar = o.template.grammar
  turns : q.turns = 0
  enPassant : q.enPassant = false

/-- A new piece is determined by the symbol that it is set up for. -/
theorem Piece.newAt_iff {q : Piece} {board : Bounds} {o : Occurrence} :
    q.NewAt board o ↔ q = o.template.spawn o.square o.side board := by
  constructor
  · intro h
    obtain ⟨t, side, square⟩ := o
    obtain ⟨hsquare, hbounds, -, hdirection, hsymbol, hname, hkind, hvalue, hbehavior, hgrammar, hturns,
      henPassant⟩ := h
    obtain ⟨⟩ := q
    dsimp only at hsquare hbounds hdirection hsymbol hname hkind hvalue hbehavior hgrammar hturns henPassant
    subst hsquare hbounds hdirection hsymbol hname hkind hvalue hbehavior hgrammar hturns henPassant
    cases side <;> rfl
  · rintro rfl
    obtain ⟨t, side, square⟩ := o
    cases side <;> exact ⟨rfl, rfl, rfl, rfl, rfl, rfl, rfl, rfl, rfl, rfl, rfl, rfl⟩

namespace Setup

/-- The symbol after `file` files of a rank. A digit is none. -/
def occurrenceAt? (s : Setup) (row file : ℕ) (c : Char) : Option Occurrence :=
  if c.isDigit then none
  else (s.table.find? c).map fun (t, side) => ⟨t, side, s.bounds.left + file, s.bounds.top - 1 - row⟩

/-- The symbols of a placement in the order of reading, each after the files that the text before it in
its rank covers. -/
def occurrences (s : Setup) (text : List Char) : List Occurrence :=
  (text.splitOn '/').zipIdx.flatMap fun (cs, row) =>
    cs.zipIdx.filterMap fun (c, i) => s.occurrenceAt? row (Rank.width (cs.take i)) c

theorem placed_eq_map (s : Setup) (text : List Char) :
    s.placed text = (s.occurrences text).map fun o => o.template.spawn o.square o.side s.bounds := by
  have hpiece (row file : ℕ) (c : Char) : s.pieceAt? row file c =
      (s.occurrenceAt? row file c).map fun o => o.template.spawn o.square o.side s.bounds := by
    rw [pieceAt?, occurrenceAt?]
    split
    · rfl
    · rw [Option.map_map]
      rfl
  simp only [placed, rankPieces, occurrences, List.map_flatMap, List.map_filterMap, hpiece]

theorem filter_placed (s : Setup) (text : List Char) (side : Side) :
    (s.placed text).filter (·.side = side) =
      ((s.occurrences text).filter (·.side = side)).map fun o =>
        o.template.spawn o.square o.side s.bounds := by
  rw [placed_eq_map, List.filter_map]
  congr 2
  funext o
  have hnew : (o.template.spawn o.square o.side s.bounds).NewAt s.bounds o := Piece.newAt_iff.mpr rfl
  rw [Function.comp_apply, hnew.side]

end Setup

/--
A placement is read exactly when it is complete: it has as many ranks as the board, and in each rank
every symbol is known and the symbols and the runs of empty squares cover the files. The pieces of
either side are those of its symbols in the order of reading. Each stands as many files from the left of
the board as the text before it in its rank covers, and as many ranks from the top as there are ranks
before its own. It is of its symbol's type and side and has not moved, and no piece is the last moved.
-/
theorem Setup.readPlacement_iff_complete (s : Setup) (text : List Char) (p : Position) :
    s.readPlacement text = .ok p ↔ s.Complete text ∧ p.bounds = s.bounds ∧ p.lastMoved = none ∧
      ∀ side, List.Forall₂ (fun q o => q.NewAt s.bounds o) (p.pieces side)
        ((s.occurrences text).filter (·.side = side)) := by
  have hpieces (side : Side) : List.Forall₂ (fun q o => q.NewAt s.bounds o) (p.pieces side)
      ((s.occurrences text).filter (·.side = side)) ↔
      p.pieces side = (s.placed text).filter (·.side = side) := by
    simp only [Piece.newAt_iff]
    rw [filter_placed, ← List.forall₂_eq_eq_eq, List.forall₂_map_right_iff]
  simp only [hpieces]
  rw [Setup.readPlacement_eq_ok_iff, Position.foldl_add_eq]
  apply and_congr_right
  intro _
  constructor
  · rintro rfl
    exact ⟨rfl, rfl, fun side => by cases side <;> rfl⟩
  · obtain ⟨bounds, white, black, lastMoved⟩ := p
    rintro ⟨rfl, rfl, hsides⟩
    obtain rfl : white = _ := hsides .white
    obtain rfl : black = _ := hsides .black
    rfl

end FairyChess
