import FairyChess.Proofs.Variant.Arrangement
import FairyChess.Proofs.Variant.Description
import FairyChess.Proofs.Variant.Ranks

/-! Placements that are read back: which arrangements of pieces can be written down. -/
namespace FairyChess
open Text

section Ranks

variable {s : Setup} {row file run : ℕ}

theorem le_foldl_digits (run : ℕ) (ds : List Char) :
    run ≤ ds.foldl (fun n c => 10 * n + digitValue c) run := by
  induction ds generalizing run with
  | nil => exact le_rfl
  | cons d ds ih =>
    have hle := ih (10 * run + digitValue d)
    rw [List.foldl_cons]
    omega

theorem Setup.readRank_digits {ds rest : List Char} {qs : List Piece}
    (hds : ∀ d ∈ ds, d.isDigit = true)
    (hspan : ds.foldl (fun n c => 10 * n + digitValue c) run ≤ Bounds.maxSpan) :
    s.readRank row file run (ds ++ rest) = .ok qs ↔
      s.readRank row file (ds.foldl (fun n c => 10 * n + digitValue c) run) rest = .ok qs := by
  induction ds generalizing run with
  | nil => rfl
  | cons d ds ih =>
    obtain ⟨hd, hds⟩ := List.forall_mem_cons.mp hds
    -- A count only grows with its digits: one that is not refused at the end was not refused before.
    have hle := le_foldl_digits (10 * run + digitValue d) ds
    rw [List.foldl_cons] at hspan ⊢
    rw [List.cons_append, readRank_digit_eq_ok_iff hd, ih hds hspan]
    exact and_iff_right (hle.trans hspan)

theorem Setup.readRank_runText {n : ℕ} {rest : List Char} {qs : List Piece}
    (hn : n ≤ Bounds.maxSpan) : s.readRank row file 0 (Rank.runText n ++ rest) = .ok qs ↔
      s.readRank row file n rest = .ok qs := by
  unfold Rank.runText
  split
  · next hzero =>
    rw [hzero]
    rfl
  · have hvalue : (Nat.toDigits 10 n).foldl (fun n c => 10 * n + digitValue c) 0 = n :=
      digitsValue_toDigits n
    rw [readRank_digits (fun _ => isDigit_of_mem_toDigits) (by rw [hvalue]; exact hn), hvalue]

/-- A rank in writing is read back square by square. -/
theorem Setup.readRank_write {cell : ℕ → Option (Template × Side)}
    (hcell : ∀ i t side, cell i = some (t, side) →
      s.table.find? (t.symbol side) = some (t, side) ∧ (t.symbol side).isDigit = false)
    {n : ℕ} (hfiles : file + run + n = s.bounds.files) :
    s.readRank row file 0 (Rank.write run ((List.range' (file + run) n).map fun i =>
        (cell i).map fun (t, side) => t.symbol side)) =
      .ok ((List.range' (file + run) n).filterMap fun i => (cell i).map fun (t, side) =>
        t.spawn ⟨s.bounds.left + i, s.bounds.top - 1 - row⟩ side s.bounds) := by
  have hspan : s.bounds.files ≤ Bounds.maxSpan := min_le_right _ _
  -- By induction on the squares that are left. An empty one only makes the run longer.
  induction n generalizing file run with
  | zero =>
    rw [List.range'_zero, List.map_nil, Rank.write, ← List.append_nil (Rank.runText run),
      readRank_runText (by omega), readRank_nil_eq_ok_iff]
    exact ⟨hfiles, rfl⟩
  | succ n ih =>
    rw [List.range'_succ, List.map_cons, List.filterMap_cons]
    cases hc : cell (file + run) with
    | none => exact @ih file (run + 1) (by omega)
    | some x =>
      obtain ⟨t, side⟩ := x
      obtain ⟨hfind, hdigit⟩ := hcell _ _ _ hc
      dsimp only [Option.map_some]
      rw [Rank.write, readRank_runText (by omega), readRank_symbol_eq_ok_iff hdigit]
      exact ⟨t, side, _, hfind, by omega, @ih (file + run + 1) 0 (by omega), rfl⟩

theorem Setup.readRanks_map {text : ℕ → List Char} {qs : ℕ → List Piece}
    (h : ∀ i, s.readRank i 0 0 (text i) = .ok (qs i)) (n : ℕ) :
    s.readRanks row ((List.range' row n).map text) = .ok ((List.range' row n).flatMap qs) := by
  induction n generalizing row with
  | zero => rfl
  | succ n ih =>
    rw [List.range'_succ, List.map_cons, List.flatMap_cons, readRanks, h, ok_bind, ih, ok_bind]

end Ranks

namespace Variant

variable {ls : List Line} {title : String} {b : Bounds} {templates : List Template}
  {table : SymbolTable} {line : ℕ} {a : Arrangement b templates}

/-- The pieces whose symbols mean nothing else are read back, each from its own symbol. -/
theorem Front.readPlacement_text (h : Front ls title b templates table) (hplain : a.Plain) :
    Setup.readPlacement ⟨b, table, line⟩ a.text = .ok a.position := by
  obtain ⟨hpos, harea⟩ := h.area
  have hrows : fields '/' a.text = a.ranks :=
    fields_intercalate (a.ranks_ne_nil hpos harea) fun _ => Arrangement.slash_not_mem hplain
  have hcell (s : Square) (t : Template) (side : Side) (hat : a.at? s = some (t, side)) :
      table.find? (t.symbol side) = some (t, side) ∧ (t.symbol side).isDigit = false :=
    ⟨h.symbols.found (a.listed hat) (a.hasSymbol hat), (hplain _ _ _ hat).1⟩
  have hread (i : ℕ) : Setup.readRank ⟨b, table, line⟩ i 0 0
      (Rank.write 0 ((List.range' 0 b.files).map fun j : ℕ =>
        a.symbolAt? ⟨b.left + j, b.top - 1 - i⟩)) =
      .ok ((List.range' 0 b.files).filterMap fun j : ℕ => a.pieceAt? ⟨b.left + j, b.top - 1 - i⟩) :=
    @Setup.readRank_write ⟨b, table, line⟩ i 0 0
      (fun j : ℕ => a.at? ⟨b.left + j, b.top - 1 - i⟩) (fun j => hcell _) b.files
      (Nat.zero_add b.files)
  have hranks : Setup.readRanks ⟨b, table, line⟩ 0 a.ranks = .ok a.pieces := by
    rw [a.ranks_eq hpos harea, a.pieces_eq hpos harea]
    exact Setup.readRanks_map hread _
  rw [Setup.readPlacement, hrows, if_pos, hranks, ok_bind, Position.foldl_add_eq]
  · rfl
  · rw [a.ranks_eq hpos harea, List.length_map, List.length_range']

/-- A piece that is read stands for its symbol, which is neither a digit nor a slash. -/
theorem Front.plain_of_readPlacement (h : Front ls title b templates table)
    (hread : Setup.readPlacement ⟨b, table, line⟩ a.text = .ok a.position) : a.Plain := by
  intro s t side hat
  obtain ⟨-, hposition⟩ := Setup.readPlacement_eq_ok_iff.mp hread
  have hmem : t.spawn s side b ∈ a.position.pieces side :=
    Arrangement.mem_pieces_position.mpr ⟨s, t, hat, rfl⟩
  rw [hposition, Position.pieces_foldl_add] at hmem
  have hplaced : t.spawn s side b ∈ Setup.placed ⟨b, table, line⟩ a.text := by
    rcases List.mem_append.mp hmem with hmem | hmem
    · cases side <;> cases hmem
    · exact (List.mem_filter.mp hmem).1
  obtain ⟨cs, hcs, c, hc, hdigit, t', side', s', hfind, hspawn⟩ :=
    Setup.exists_symbol_of_mem_placed hplaced
  have hsymbol : t.symbol side = c := (congrArg Piece.symbol hspawn).trans (h.symbols.listed hfind).2
  rw [← fields_eq_splitOn] at hcs
  rw [hsymbol]
  exact ⟨hdigit, fun hslash => not_mem_of_mem_fields hcs (hslash ▸ hc)⟩

/--
Pieces on any squares of a board are read back from their placement exactly if none of their symbols is
a digit or a slash. The position then holds the pieces that were written down, each on its square, and
no others.
-/
theorem read_arrangement {front old : String} {v : Variant}
    (hread : Variant.read (front ++ "\n" ++ old) = .ok v)
    (hfront : (contentLines front.toList).length = v.templates.length + 3)
    (a : Arrangement v.bounds v.templates) :
    (Variant.read (front ++ "\n" ++ String.ofList a.text) = .ok { v with position := a.position } ↔
      a.Plain) ∧
    (∀ side q, q ∈ a.position.pieces side ↔
      ∃ s t, a.at? s = some (t, side) ∧ q = t.spawn s side v.bounds) ∧
    (∀ side, ((a.position.pieces side).map (·.square)).Nodup) := by
  obtain ⟨table, h⟩ := exists_front hread hfront
  obtain ⟨hpos, harea⟩ := h.area
  have hblank := Arrangement.not_blank_of_mem_text (a := a) h.not_blank
  refine ⟨?_, fun side q => Arrangement.mem_pieces_position, a.nodup_squares_position⟩
  rw [h.read_word (a.text_ne_nil hpos harea) hblank]
  constructor
  · intro hnew
    obtain ⟨p, hp, hv⟩ := of_map_eq_ok hnew
    obtain rfl : p = a.position := congrArg Variant.position hv
    exact h.plain_of_readPlacement hp
  · intro hplain
    rw [h.readPlacement_text hplain]
    rfl

theorem read_arrangement_duel :
    let b : Bounds := ⟨0, 3, 0, 2⟩
    let templates := [Kind.king, Kind.rook].filterMap Kind.template?
    ∃ a : Arrangement b templates, a.text = ['K', '2', '/', '2', 'r'] ∧
      Variant.read ("Duel\n3,2,0,0\n2\nKing,K,k,1000,k1*\nRook,R,r,5,n+" ++ "\n" ++
        String.ofList a.text) = .ok ⟨"Duel", b, templates, a.position⟩ ∧
      (a.position.pieces .black).map (·.square) = [⟨2, 0⟩] := by
  intro b templates
  let a : Arrangement b templates := (Arrangement.empty.place ⟨0, 1⟩ _ .white (by decide)
    List.mem_cons_self (by decide)).place ⟨2, 0⟩ _ .black (by decide)
      (List.mem_cons_of_mem _ List.mem_cons_self) (by decide)
  have hplain : a.Plain := (Arrangement.plain_empty.place rfl (by decide)).place rfl (by decide)
  have hread : Variant.read ("Duel\n3,2,0,0\n2\nKing,K,k,1000,k1*\nRook,R,r,5,n+" ++ "\n" ++ "3/3") =
      .ok ⟨"Duel", b, templates, { bounds := b }⟩ := by decide +kernel
  exact ⟨a, rfl, (read_arrangement hread (by decide +kernel) a).1.mpr hplain, rfl⟩

/-- A rook with the symbol `1` is read as an empty square. -/
theorem digit_symbol_read_as_gap :
    let b : Bounds := ⟨0, 1, 0, 1⟩
    let rook : Template :=
      ⟨"Rook", .rook, '1', 'r', 5, Kind.rook.behavior, Kind.sliderGrammar "n+" .orthogonal⟩
    ∃ a : Arrangement b [rook], a.at? ⟨0, 0⟩ = some (rook, .white) ∧ a.text = ['1'] ∧
      Variant.read ("Digits\n1,1,0,0\n1\nRook,1,r,5,n+" ++ "\n" ++ String.ofList a.text) =
        .ok ⟨"Digits", b, [rook], { bounds := b }⟩ := by
  intro b rook
  let a : Arrangement b [rook] :=
    Arrangement.empty.place ⟨0, 0⟩ rook .white (by decide) List.mem_cons_self (by decide)
  exact ⟨a, rfl, rfl, by decide +kernel⟩

end Variant

end FairyChess
