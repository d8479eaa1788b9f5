import FairyChess.Display.Grid
import FairyChess.Piece.Template
import FairyChess.Proofs.Bounds
import FairyChess.Proofs.Position.Lookup
import FairyChess.Proofs.Text.Blank
import FairyChess.Proofs.Text.Numeral

/-!
Drawings of a board. Each square is shown in a line and a column of its own, and the lines are aligned as long as
two digits are enough for the numbers of the ranks.
-/
namespace FairyChess

namespace Text

/-- Between separators of three characters there is a cell in every fourth column. -/
theorem getElem?_intercalate_cells {sep : List Char} (hsep : sep.length = 3) (cells : List Char) (j : ℕ) :
    (sep.intercalate (cells.map ([·])))[4 * j]? = cells[j]? := by
  induction cells generalizing j with
  | nil => rfl
  | cons c rest ih =>
    cases rest with
    | nil => cases j <;> simp [Nat.mul_succ]
    | cons d rest =>
      rw [List.map_cons, List.map_cons, List.intercalate_cons_cons]
      cases j with
      | zero => rfl
      | succ j =>
        have hfront : ([c] ++ sep).length = 4 := by simp [hsep]
        rw [List.getElem?_append_right (by omega), hfront, List.getElem?_cons_succ,
          show 4 * (j + 1) - 4 = 4 * j by omega]
        exact ih j

theorem eq_or_mem_of_mem_intersperse {α : Type} {sep x : α} {xs : List α} (h : x ∈ xs.intersperse sep) :
    x = sep ∨ x ∈ xs := by
  induction xs with
  | nil => exact absurd h List.not_mem_nil
  | cons y rest ih =>
    cases rest with
    | nil => exact .inr h
    | cons z rest =>
      rw [List.intersperse_cons_cons] at h
      rcases List.mem_cons.mp h with rfl | h
      · exact .inr List.mem_cons_self
      rcases List.mem_cons.mp h with rfl | h
      · exact .inl rfl
      · exact (ih h).imp_right (List.mem_cons_of_mem y)

theorem toList_unlines (ls : List String) :
    (unlines ls).toList = (ls.map String.toList).flatMap (· ++ ['\n']) := by
  simp [unlines, List.flatMap_map]

end Text

namespace Grid
open Text

variable {b : Bounds} {cell : Square → Char}

/-- A single character, which does not end the line. -/
def Glyph (s : String) : Prop :=
  s.toList.length = 1 ∧ '\n' ∉ s.toList

instance (s : String) : Decidable (Glyph s) :=
  inferInstanceAs (Decidable (_ ∧ _))

/-- The line is drawn by single characters alone, as the borders and the rules between ranks are. -/
inductive Ruling (files : ℕ) : String → Prop
  | rule {left cross right stroke : String} (hleft : Glyph left) (hcross : Glyph cross)
      (hright : Glyph right) (hstroke : Glyph stroke) : Ruling files (rule left cross right stroke files)

section Rules

variable {stroke line : String} {files : ℕ}

theorem toList_rule (left cross right stroke : String) (files : ℕ) :
    (rule left cross right stroke files).toList = [' ', ' ', ' '] ++ left.toList ++
      cross.toList.intercalate (List.replicate files (times 3 stroke).toList) ++ right.toList := by
  simp [rule, List.map_replicate]

theorem length_times_three (h : Glyph stroke) : (times 3 stroke).toList.length = 3 := by
  simp only [times, List.replicate_succ, List.replicate_zero, String.toList_join, List.flatMap_cons,
    List.flatMap_nil, List.length_append, List.length_nil, h.1]

theorem newline_not_mem_times (h : Glyph stroke) (n : ℕ) : '\n' ∉ (times n stroke).toList := by
  simp only [times, String.toList_join, List.mem_flatMap, not_exists, not_and]
  intro s hs
  rw [List.eq_of_mem_replicate hs]
  exact h.2

theorem Ruling.length_eq (h : Ruling files line) (hfiles : 0 < files) :
    line.toList.length = 4 * files + 4 := by
  obtain @⟨_, _, _, stroke, hleft, hcross, hright, hstroke⟩ := h
  have hparts : ∀ part ∈ List.replicate files (times 3 stroke).toList, part.length = 3 := fun part hpart => by
    rw [List.eq_of_mem_replicate hpart]
    exact length_times_three hstroke
  simp only [toList_rule, List.length_append, length_intercalate _ hparts, List.length_replicate,
    List.length_cons, List.length_nil, hleft.1, hcross.1, hright.1]
  omega

theorem Ruling.newline_not_mem (h : Ruling files line) : '\n' ∉ line.toList := by
  obtain @⟨_, cross, _, stroke, hleft, hcross, hright, hstroke⟩ := h
  have hstrokes : '\n' ∉ cross.toList.intercalate (List.replicate files (times 3 stroke).toList) := by
    refine not_mem_intercalate hcross.2 fun part hpart => ?_
    rw [List.eq_of_mem_replicate hpart]
    exact newline_not_mem_times hstroke 3
  rw [toList_rule]
  simp [hleft.2, hright.2, hstrokes]

end Rules

section Ranks

/-- How many digits of a rank's number are more than the two that the grid has room for. -/
def overhang (b : Bounds) (rank : ℤ) : ℕ :=
  (twoPlaces (rank - b.bottom + 1)).length - 2

variable {rank : ℤ}

theorem toList_label (hrank : b.bottom ≤ rank) :
    (twoPlaces (rank - b.bottom + 1)).toList = twoDigits ((rank - b.bottom).toNat + 1) := by
  have hnumber : rank - b.bottom + 1 = ((rank - b.bottom).toNat + 1 : ℕ) := by omega
  rw [hnumber, toList_twoPlaces]

theorem length_label (hrank : b.bottom ≤ rank) :
    (twoPlaces (rank - b.bottom + 1)).toList.length = 2 + overhang b rank := by
  have htwo := two_le_length_twoDigits ((rank - b.bottom).toNat + 1)
  rw [overhang, ← String.length_toList, toList_label hrank]
  omega

theorem overhang_eq_zero_iff (hrank : b.bottom ≤ rank) : overhang b rank = 0 ↔ rank - b.bottom < 99 := by
  have hlength := length_label hrank
  have htwo := length_twoDigits_eq_two_iff (n := (rank - b.bottom).toNat + 1)
  rw [toList_label hrank] at hlength
  omega

/-- The characters on the squares of a rank, from the left. -/
def rankCells (b : Bounds) (cell : Square → Char) (rank : ℤ) : List Char :=
  (Bounds.interval b.left b.right).map fun file => cell ⟨file, rank⟩

theorem toList_rankLine (b : Bounds) (cell : Square → Char) (rank : ℤ) :
    (rankLine b cell rank).toList = (twoPlaces (rank - b.bottom + 1)).toList ++ ([' ', '║', ' '] ++
      ([' ', '│', ' '].intercalate ((rankCells b cell rank).map ([·])) ++ [' ', '║'])) := by
  simp [rankLine, rankCells, Function.comp_def]

theorem length_rankLine (hrank : b.bottom ≤ rank) (harea : b.area ≤ maxArea) (hpos : 0 < b.area) :
    (rankLine b cell rank).toList.length = 4 * b.files + 4 + overhang b rank := by
  have hfiles : 0 < b.files := Nat.pos_of_mul_pos_right hpos
  have hcells : ((rankCells b cell rank).map ([·])).length = b.files := by
    rw [List.length_map, rankCells, Bounds.interval_files harea hpos]
    simp
  have hparts : ∀ part ∈ (rankCells b cell rank).map ([·]), part.length = 1 :=
    List.forall_mem_map.mpr fun _ _ => rfl
  rw [toList_rankLine]
  simp only [List.length_append, length_label hrank, length_intercalate _ hparts, hcells,
    List.length_cons, List.length_nil]
  omega

/-- The square of a file is four columns behind the one to its left. -/
theorem getElem?_rankLine (hrank : b.bottom ≤ rank) {file : ℤ} (hleft : b.left ≤ file)
    (hright : file < b.right) :
    (rankLine b cell rank).toList[5 + 4 * (file - b.left).toNat + overhang b rank]? =
      some (cell ⟨file, rank⟩) := by
  have hlabel := length_label hrank
  have hfile : (Bounds.interval b.left b.right)[(file - b.left).toNat]? = some file := by
    rw [Bounds.interval, List.getElem?_map, List.getElem?_range (by omega), Option.map_some]
    congr 1
    omega
  have hcell : ([' ', '│', ' '].intercalate ((rankCells b cell rank).map ([·])))[
      4 * (file - b.left).toNat]? = some (cell ⟨file, rank⟩) := by
    rw [getElem?_intercalate_cells rfl, rankCells, List.getElem?_map, hfile, Option.map_some]
  have hcolumn : 5 + 4 * (file - b.left).toNat + overhang b rank =
      (twoPlaces (rank - b.bottom + 1)).toList.length + (3 + 4 * (file - b.left).toNat) := by omega
  have hwall : [' ', '║', ' '].length = 3 := rfl
  rw [toList_rankLine, hcolumn, List.getElem?_append_right (Nat.le_add_right _ _), Nat.add_sub_cancel_left,
    List.getElem?_append_right (hwall ▸ Nat.le_add_right _ _), hwall, Nat.add_sub_cancel_left,
    List.getElem?_append_left (List.getElem?_eq_some_iff.mp hcell).1, hcell]

theorem newline_not_mem_rankLine (hrank : b.bottom ≤ rank) (hcell : ∀ s, cell s ≠ '\n') :
    '\n' ∉ (rankLine b cell rank).toList := by
  have hlabel : '\n' ∉ (twoPlaces (rank - b.bottom + 1)).toList := by
    rw [toList_label hrank]
    intro hmem
    exact absurd (isDigit_of_mem_twoDigits hmem) (by decide)
  have hcells : '\n' ∉ [' ', '│', ' '].intercalate ((rankCells b cell rank).map ([·])) := by
    refine not_mem_intercalate (by decide) (List.forall_mem_map.mpr (List.forall_mem_map.mpr ?_))
    intro file _
    simpa using (hcell _).symm
  rw [toList_rankLine]
  simp [hlabel, hcells]

end Ranks

section Frame

/-- The lines of a drawing from its top border to its bottom border. -/
def frame (b : Bounds) (cell : Square → Char) : List String :=
  rule "╔" "╤" "╗" "═" b.files ::
    (((Bounds.interval b.bottom b.top).reverse.map (rankLine b cell)).intersperse
      (rule "╟" "┼" "╢" "─" b.files) ++ [rule "╚" "╧" "╝" "═" b.files])

theorem lines_eq_frame (b : Bounds) (cell : Square → Char) : lines b cell = frame b cell ++ [labelLine b] := by
  simp [lines, frame]

theorem length_frame (harea : b.area ≤ maxArea) (hpos : 0 < b.area) :
    (frame b cell).length = 2 * b.ranks + 1 := by
  have hranks : 0 < b.ranks := Nat.pos_of_mul_pos_left hpos
  simp only [frame, Bounds.reverse_interval_ranks harea hpos, List.length_cons, List.length_append,
    List.length_intersperse, List.length_map, List.length_range', List.length_nil]
  omega

theorem ruling_or_exists_of_mem_frame {line : String} (h : line ∈ frame b cell) :
    Ruling b.files line ∨ ∃ rank, b.bottom ≤ rank ∧ rank < b.top ∧ line = rankLine b cell rank := by
  rcases List.mem_cons.mp h with rfl | h
  · exact .inl ⟨by decide, by decide, by decide, by decide⟩
  rcases List.mem_append.mp h with h | h
  · rcases eq_or_mem_of_mem_intersperse h with rfl | h
    · exact .inl ⟨by decide, by decide, by decide, by decide⟩
    · obtain ⟨rank, hrank, rfl⟩ := List.mem_map.mp h
      obtain ⟨hbottom, htop⟩ := Bounds.mem_interval.mp (List.mem_reverse.mp hrank)
      exact .inr ⟨rank, hbottom, htop, rfl⟩
  · obtain rfl := List.mem_singleton.mp h
    exact .inl ⟨by decide, by decide, by decide, by decide⟩

/-- The line of a rank is two lines below that of the rank above it. -/
theorem getElem?_frame {rank : ℤ} (hbottom : b.bottom ≤ rank) (htop : rank < b.top) :
    (frame b cell)[1 + 2 * (b.top - 1 - rank).toNat]? = some (rankLine b cell rank) := by
  have hrank : ((Bounds.interval b.bottom b.top).reverse.map (rankLine b cell))[
      (b.top - 1 - rank).toNat]? = some (rankLine b cell rank) := by
    rw [Bounds.reverse_interval, List.getElem?_map, List.getElem?_map, List.getElem?_range (by omega)]
    simp only [Option.map_some, Option.some.injEq]
    congr 1
    omega
  rw [← List.getElem?_intersperse_two_mul] at hrank
  rw [frame, Nat.add_comm, List.getElem?_cons_succ,
    List.getElem?_append_left (List.getElem?_eq_some_iff.mp hrank).1, hrank]

theorem length_of_mem_frame {line : String} (harea : b.area ≤ maxArea) (hpos : 0 < b.area)
    (hranks : b.ranks < 100) (h : line ∈ frame b cell) : line.toList.length = 4 * b.files + 4 := by
  rcases ruling_or_exists_of_mem_frame h with hrule | ⟨rank, hbottom, htop, rfl⟩
  · exact hrule.length_eq (Nat.pos_of_mul_pos_right hpos)
  · have hspan := (Bounds.spans_of_area_le harea hpos).2
    rw [length_rankLine hbottom harea hpos, (overhang_eq_zero_iff hbottom).mpr (by omega)]

/-- The lines are aligned as long as two digits are enough for the number of every rank. -/
theorem aligned_iff (harea : b.area ≤ maxArea) (hpos : 0 < b.area) :
    (∀ line ∈ frame b cell, ∀ other ∈ frame b cell, line.toList.length = other.toList.length) ↔
      b.ranks < 100 := by
  constructor
  · intro haligned
    have hspan := (Bounds.spans_of_area_le harea hpos).2
    have hranks : 0 < b.ranks := Nat.pos_of_mul_pos_left hpos
    have hbottom : b.bottom ≤ b.top - 1 := by omega
    have hborder : Ruling b.files (rule "╔" "╤" "╗" "═" b.files) :=
      ⟨by decide, by decide, by decide, by decide⟩
    have htop : rankLine b cell (b.top - 1) ∈ frame b cell :=
      List.mem_of_getElem? (getElem?_frame hbottom (by omega))
    have hsame := haligned _ htop _ List.mem_cons_self
    rw [length_rankLine hbottom harea hpos, hborder.length_eq (Nat.pos_of_mul_pos_right hpos)] at hsame
    have hoverhang := (overhang_eq_zero_iff hbottom).mp (by omega)
    omega
  · intro hranks line hline other hother
    rw [length_of_mem_frame harea hpos hranks hline, length_of_mem_frame harea hpos hranks hother]

theorem lines_draw (hpos : 0 < b.area) (hcell : ∀ s, cell s ≠ '\n') : Text.lines (draw b cell).toList =
    (frame b cell).map String.toList ++ Text.lines ((labelLine b).toList ++ ['\n']) := by
  have hframe : ∀ line ∈ (frame b cell).map String.toList, '\n' ∉ line := by
    refine List.forall_mem_map.mpr fun line hline => ?_
    rcases ruling_or_exists_of_mem_frame hline with hrule | ⟨rank, hbottom, -, rfl⟩
    · exact hrule.newline_not_mem
    · exact newline_not_mem_rankLine hbottom hcell
  rw [draw, if_neg hpos.ne', toList_unlines, lines_eq_frame, List.map_append, List.flatMap_append,
    lines_flatMap_append hframe]
  simp

end Frame

end Grid

namespace Position
open Grid

variable {p : Position}

/-- The lines of the drawing of a position. -/
def drawn (p : Position) : List (List Char) :=
  Text.lines p.draw.toList

def shownAt (p : Position) (s : Square) : Char :=
  ((p.occupant? s).map (·.piece.symbol)).getD ' '

theorem shownAt_ne_newline (h : ∀ side, ∀ q ∈ p.pieces side, q.symbol ≠ '\n') (s : Square) :
    p.shownAt s ≠ '\n' := by
  rw [shownAt]
  cases hslot : p.occupant? s with
  | none => decide
  | some slot =>
    obtain ⟨-, hpiece, -⟩ := p.of_occupant? hslot
    exact h slot.id.side slot.piece (List.mem_of_getElem? hpiece)

theorem drawn_eq (hpos : 0 < p.bounds.area) (h : ∀ side, ∀ q ∈ p.pieces side, q.symbol ≠ '\n') :
    p.drawn = (frame p.bounds p.shownAt).map String.toList ++
      Text.lines ((labelLine p.bounds).toList ++ ['\n']) :=
  lines_draw hpos (shownAt_ne_newline h)

theorem take_drawn (hpos : 0 < p.bounds.area) (harea : p.bounds.area ≤ maxArea)
    (h : ∀ side, ∀ q ∈ p.pieces side, q.symbol ≠ '\n') :
    p.drawn.take (2 * p.bounds.ranks + 1) = (frame p.bounds p.shownAt).map String.toList := by
  rw [drawn_eq hpos h, List.take_left' (by rw [List.length_map, length_frame harea hpos])]

theorem getElem?_drawn (hpos : 0 < p.bounds.area) (h : ∀ side, ∀ q ∈ p.pieces side, q.symbol ≠ '\n')
    {i : ℕ} {line : String} (hline : (frame p.bounds p.shownAt)[i]? = some line) :
    p.drawn[i]? = some line.toList := by
  have hmap : ((frame p.bounds p.shownAt).map String.toList)[i]? = some line.toList := by
    rw [List.getElem?_map, hline, Option.map_some]
  rw [drawn_eq hpos h, List.getElem?_append_left (List.getElem?_eq_some_iff.mp hmap).1, hmap]

/--
A square is shown in the column of its file and the line of its rank. From the hundredth rank on, the line is shifted
by the digits of its number that are more than two, so the lines have one length on boards of fewer ranks only.
-/
theorem drawn_shows (hpos : 0 < p.bounds.area) (harea : p.bounds.area ≤ maxArea)
    (hsymbols : ∀ side, ∀ q ∈ p.pieces side, q.symbol ≠ '\n') :
    (∀ s ∈ p.bounds, ∃ shown, p.drawn[1 + 2 * (p.bounds.top - 1 - s.rank).toNat]? = some shown ∧
      shown[5 + 4 * (s.file - p.bounds.left).toNat + overhang p.bounds s.rank]? =
        some (((p.occupant? s).map (·.piece.symbol)).getD ' ')) ∧
    (∀ s ∈ p.bounds, overhang p.bounds s.rank = 0 ↔ s.rank - p.bounds.bottom < 99) ∧
    (p.drawn[0]? = some (rule "╔" "╤" "╗" "═" p.bounds.files).toList ∧
      p.drawn[2 * p.bounds.ranks]? = some (rule "╚" "╧" "╝" "═" p.bounds.files).toList) ∧
    ((∀ line ∈ p.drawn.take (2 * p.bounds.ranks + 1),
      ∀ other ∈ p.drawn.take (2 * p.bounds.ranks + 1), line.length = other.length) ↔
        p.bounds.ranks < 100) := by
  refine ⟨fun s hs => ?_, fun s hs => overhang_eq_zero_iff hs.2.1, ⟨?_, ?_⟩, ?_⟩
  · exact ⟨_, getElem?_drawn hpos hsymbols (getElem?_frame hs.2.1 hs.2.2),
      getElem?_rankLine hs.2.1 hs.1.1 hs.1.2⟩
  · exact getElem?_drawn hpos hsymbols rfl
  · refine getElem?_drawn hpos hsymbols ?_
    rw [← Nat.add_sub_cancel (2 * p.bounds.ranks) 1, ← length_frame harea hpos,
      ← List.getLast?_eq_getElem?, frame, List.getLast?_cons, List.getLast?_concat, Option.getD_some]
  · simp only [take_drawn hpos harea hsymbols, List.forall_mem_map]
    exact aligned_iff harea hpos

/-- Of two kings on a board of two files and a hundred ranks, the one on the hundredth rank is shifted. -/
theorem drawn_shows_kings :
    let board : Bounds := { left := 3, right := 5, bottom := -50, top := 50 }
    let whites := (Piece.standard? .king ⟨4, 49⟩ .white board).toList
    let blacks := (Piece.standard? .king ⟨3, -50⟩ .black board).toList
    let p : Position := { bounds := board, white := whites, black := blacks }
    (0 < p.bounds.area ∧ p.bounds.area ≤ maxArea ∧ ∀ side, ∀ q ∈ p.pieces side, q.symbol ≠ '\n') ∧
      (∃ shown, p.drawn[1]? = some shown ∧ shown[10]? = some 'K') ∧
      (∃ shown, p.drawn[199]? = some shown ∧ shown[5]? = some 'k') ∧
      ¬ ∀ line ∈ p.drawn.take 201, ∀ other ∈ p.drawn.take 201, line.length = other.length := by
  intro board whites blacks p
  have hpos : 0 < p.bounds.area := by decide
  have harea : p.bounds.area ≤ maxArea := by decide
  have hsymbols : ∀ side, ∀ q ∈ p.pieces side, q.symbol ≠ '\n' := by
    rintro (_ | _) q hq <;> obtain rfl := List.mem_singleton.mp hq <;> decide
  have hupper : 5 + 4 * ((4 : ℤ) - board.left).toNat + overhang board 49 = 10 := by decide +kernel
  have hlower : 5 + 4 * ((3 : ℤ) - board.left).toNat + overhang board (-50) = 5 := by decide +kernel
  obtain ⟨hshows, -, -, haligned⟩ := drawn_shows hpos harea hsymbols
  have hwhite := hshows ⟨4, 49⟩ (by decide)
  have hblack := hshows ⟨3, -50⟩ (by decide)
  dsimp only [p] at hwhite hblack
  rw [hupper] at hwhite
  rw [hlower] at hblack
  exact ⟨⟨hpos, harea, hsymbols⟩, hwhite, hblack, fun h => absurd (haligned.mp h) (by decide)⟩

/-- A king on the hundredth rank of a board of one file is not shown in the column of its file. -/
theorem hundredth_rank_shifted :
    let board : Bounds := { left := 0, right := 1, bottom := 0, top := 100 }
    let p : Position := { bounds := board, white := (Piece.standard? .king ⟨0, 99⟩ .white board).toList }
    (0 < p.bounds.area ∧ p.bounds.area ≤ maxArea ∧ ∀ side, ∀ q ∈ p.pieces side, q.symbol ≠ '\n') ∧
      (⟨0, 99⟩ : Square) ∈ p.bounds ∧ p.shownAt ⟨0, 99⟩ = 'K' ∧
      p.drawn[0]? = some "   ╔═══╗".toList ∧ p.drawn[1]? = some "100 ║ K ║".toList ∧
      "100 ║ K ║".toList[5]? = some ' ' ∧
      "100 ║ K ║".toList.length ≠ "   ╔═══╗".toList.length := by
  intro board p
  have hpos : 0 < p.bounds.area := by decide
  have hsymbols : ∀ side, ∀ q ∈ p.pieces side, q.symbol ≠ '\n' := by
    rintro (_ | _) q hq
    · obtain rfl := List.mem_singleton.mp hq
      decide
    · exact absurd hq List.not_mem_nil
  have hshown : p.shownAt ⟨0, 99⟩ = 'K' := by decide
  have hrank : (frame p.bounds p.shownAt)[1]? = some (rankLine p.bounds p.shownAt 99) :=
    getElem?_frame (show board.bottom ≤ 99 by decide) (show 99 < board.top by decide)
  have htext : rankLine p.bounds p.shownAt 99 = "100 ║ K ║" := by decide +kernel
  refine ⟨⟨hpos, by decide, hsymbols⟩, by decide, hshown, ?_, ?_, by decide, by decide⟩
  · exact getElem?_drawn hpos hsymbols rfl
  · rw [← htext]
    exact getElem?_drawn hpos hsymbols hrank

end Position

end FairyChess
