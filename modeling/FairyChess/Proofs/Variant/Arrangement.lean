import FairyChess.Proofs.Bounds
import FairyChess.Proofs.Text.Blank
import FairyChess.Proofs.Text.Numeral
import FairyChess.Variant.Placement

/-! Arrangements of pieces on a board: the position they make, and the placement that writes them down. -/
namespace FairyChess
open Text

/-- The squares of a board as they are read, from the left of the top rank. -/
def Bounds.readingOrder (b : Bounds) : List Square :=
  (interval b.bottom b.top).reverse.flatMap fun y => (interval b.left b.right).map fun x => ⟨x, y⟩

/-- Pieces on some squares of a board, each of a piece type and a side for which it has a symbol. -/
structure Arrangement (b : Bounds) (templates : List Template) where
  at? : Square → Option (Template × Side)
  onBoard {s : Square} {x : Template × Side} : at? s = some x → s ∈ b
  listed {s : Square} {t : Template} {side : Side} : at? s = some (t, side) → t ∈ templates
  hasSymbol {s : Square} {t : Template} {side : Side} : at? s = some (t, side) → t.symbol side ≠ '_'

theorem of_update_eq_some {α : Type} {f : Square → Option α} {s s' : Square} {x y : α}
    (h : Function.update f s (some x) s' = some y) : s' = s ∧ y = x ∨ f s' = some y := by
  by_cases hs : s' = s
  · subst hs
    rw [Function.update_self] at h
    exact .inl ⟨rfl, (Option.some.inj h).symm⟩
  · rw [Function.update_of_ne hs] at h
    exact .inr h

namespace Rank

/-- The length of a run of empty squares, where there is one. -/
def runText (n : ℕ) : List Char :=
  if n = 0 then [] else Nat.toDigits 10 n

/-- Writes what is left of a rank after a run of empty squares, the symbols of its squares given. -/
def write : ℕ → List (Option Char) → List Char
  | run, [] => runText run
  | run, none :: cells => write (run + 1) cells
  | run, some c :: cells => runText run ++ c :: write 0 cells

end Rank

namespace Arrangement

variable {b : Bounds} {templates : List Template}

def symbolAt? (a : Arrangement b templates) (s : Square) : Option Char :=
  (a.at? s).map fun (t, side) => t.symbol side

/-- The ranks in writing, from the top. -/
def ranks (a : Arrangement b templates) : List (List Char) :=
  (Bounds.interval b.bottom b.top).reverse.map fun y =>
    Rank.write 0 ((Bounds.interval b.left b.right).map fun x => a.symbolAt? ⟨x, y⟩)

def text (a : Arrangement b templates) : List Char :=
  ['/'].intercalate a.ranks

def pieceAt? (a : Arrangement b templates) (s : Square) : Option Piece :=
  (a.at? s).map fun (t, side) => t.spawn s side b

def pieces (a : Arrangement b templates) : List Piece :=
  b.readingOrder.filterMap a.pieceAt?

def position (a : Arrangement b templates) : Position where
  bounds := b
  white := a.pieces.filter (·.side = .white)
  black := a.pieces.filter (·.side = .black)

def empty : Arrangement b templates where
  at? _ := none
  onBoard h := nomatch h
  listed h := nomatch h
  hasSymbol h := nomatch h

/-- Puts a piece on a square, in place of one that may be there. -/
def place (a : Arrangement b templates) (s : Square) (t : Template) (side : Side) (hs : s ∈ b)
    (ht : t ∈ templates) (hsymbol : t.symbol side ≠ '_') : Arrangement b templates where
  at? := Function.update a.at? s (some (t, side))
  onBoard h := by
    rcases of_update_eq_some h with ⟨rfl, -⟩ | h
    · exact hs
    · exact a.onBoard h
  listed h := by
    rcases of_update_eq_some h with ⟨-, heq⟩ | h
    · obtain ⟨rfl, rfl⟩ := Prod.mk.inj heq
      exact ht
    · exact a.listed h
  hasSymbol h := by
    rcases of_update_eq_some h with ⟨-, heq⟩ | h
    · obtain ⟨rfl, rfl⟩ := Prod.mk.inj heq
      exact hsymbol
    · exact a.hasSymbol h

/-- No piece has a digit or a slash for its symbol, which mean something else in a placement. -/
def Plain (a : Arrangement b templates) : Prop :=
  ∀ s t side, a.at? s = some (t, side) → (t.symbol side).isDigit = false ∧ t.symbol side ≠ '/'

theorem plain_empty : (empty : Arrangement b templates).Plain :=
  fun _ _ _ h => nomatch h

theorem Plain.place {a : Arrangement b templates} (h : a.Plain) {s : Square} {t : Template}
    {side : Side} {hs : s ∈ b} {ht : t ∈ templates} {hsymbol : t.symbol side ≠ '_'}
    (hdigit : (t.symbol side).isDigit = false) (hslash : t.symbol side ≠ '/') :
    (a.place s t side hs ht hsymbol).Plain := by
  intro s' t' side' hat
  rcases of_update_eq_some hat with ⟨-, heq⟩ | hat
  · obtain ⟨rfl, rfl⟩ := Prod.mk.inj heq
    exact ⟨hdigit, hslash⟩
  · exact h s' t' side' hat

end Arrangement

namespace Bounds

theorem mem_readingOrder {b : Bounds} {s : Square} : s ∈ b.readingOrder ↔ s ∈ b := by
  obtain ⟨file, rank⟩ := s
  simp only [readingOrder, List.mem_flatMap, List.mem_reverse, List.mem_map, mem_interval,
    Square.mk.injEq]
  constructor
  · rintro ⟨y, hy, x, hx, rfl, rfl⟩
    exact ⟨hx, hy⟩
  · rintro ⟨hfile, hrank⟩
    exact ⟨rank, hrank, file, hfile, rfl, rfl⟩

theorem nodup_readingOrder (b : Bounds) : b.readingOrder.Nodup := by
  rw [readingOrder, List.nodup_flatMap]
  constructor
  · intro y _
    have hinjective : Function.Injective fun x => Square.mk x y := fun x x' h => (Square.mk.inj h).1
    exact (nodup_interval b.left b.right).map hinjective
  · refine (List.nodup_reverse.mpr (nodup_interval b.bottom b.top)).imp fun {y y'} hne s hs hs' => ?_
    obtain ⟨x, -, rfl⟩ := List.mem_map.mp hs
    obtain ⟨x', -, h⟩ := List.mem_map.mp hs'
    exact hne (Square.mk.inj h).2.symm

end Bounds

@[simp] theorem Template.side_spawn (t : Template) (s : Square) (side : Side) (b : Bounds) :
    (t.spawn s side b).side = side := by
  cases side <;> rfl

namespace Rank

theorem isDigit_of_mem_runText {n : ℕ} {c : Char} (h : c ∈ runText n) : c.isDigit = true := by
  unfold runText at h
  split at h
  · cases h
  · exact isDigit_of_mem_toDigits h

theorem mem_write {c : Char} {run : ℕ} {cells : List (Option Char)} (h : c ∈ write run cells) :
    c.isDigit = true ∨ some c ∈ cells := by
  induction cells generalizing run with
  | nil => exact .inl (isDigit_of_mem_runText h)
  | cons cell cells ih =>
    cases cell with
    | none => exact (ih h).imp_right (List.mem_cons_of_mem none)
    | some d =>
      rw [write] at h
      rcases List.mem_append.mp h with h | h
      · exact .inl (isDigit_of_mem_runText h)
      · rcases List.mem_cons.mp h with rfl | h
        · exact .inr List.mem_cons_self
        · exact (ih h).imp_right (List.mem_cons_of_mem (some d))

theorem write_ne_nil {run : ℕ} {cells : List (Option Char)} (h : 0 < run + cells.length) :
    write run cells ≠ [] := by
  induction cells generalizing run with
  | nil =>
    rw [write, runText, if_neg (by simpa using h.ne')]
    exact Nat.toDigits_ne_nil
  | cons cell cells ih =>
    cases cell with
    | none => exact ih (by rw [List.length_cons] at h; omega)
    | some d => exact List.append_ne_nil_of_right_ne_nil _ (List.cons_ne_nil _ _)

end Rank

namespace Arrangement

variable {b : Bounds} {templates : List Template} {a : Arrangement b templates}

section Pieces

theorem pieceAt?_eq_some_iff {s : Square} {q : Piece} : a.pieceAt? s = some q ↔
    ∃ t side, a.at? s = some (t, side) ∧ q = t.spawn s side b := by
  rw [pieceAt?, Option.map_eq_some_iff]
  constructor
  · rintro ⟨⟨t, side⟩, hat, rfl⟩
    exact ⟨t, side, hat, rfl⟩
  · rintro ⟨t, side, hat, rfl⟩
    exact ⟨(t, side), hat, rfl⟩

theorem pieces_position (side : Side) :
    a.position.pieces side = a.pieces.filter (·.side = side) := by
  cases side <;> rfl

theorem mem_pieces_position {side : Side} {q : Piece} : q ∈ a.position.pieces side ↔
    ∃ s t, a.at? s = some (t, side) ∧ q = t.spawn s side b := by
  rw [pieces_position, List.mem_filter, pieces, List.mem_filterMap, decide_eq_true_eq]
  constructor
  · rintro ⟨⟨s, -, hpiece⟩, hside⟩
    obtain ⟨t, side', hat, rfl⟩ := pieceAt?_eq_some_iff.mp hpiece
    rw [Template.side_spawn] at hside
    exact ⟨s, t, hside ▸ hat, hside ▸ rfl⟩
  · rintro ⟨s, t, hat, rfl⟩
    exact ⟨⟨s, Bounds.mem_readingOrder.mpr (a.onBoard hat), pieceAt?_eq_some_iff.mpr ⟨t, side, hat, rfl⟩⟩,
      Template.side_spawn ..⟩

theorem nodup_squares_position (a : Arrangement b templates) (side : Side) :
    ((a.position.pieces side).map (·.square)).Nodup := by
  have hsquares : (a.pieces.map (·.square)).Nodup := by
    rw [pieces, List.map_filterMap]
    refine (Bounds.nodup_readingOrder b).filterMap fun s s' square hs hs' => ?_
    have hsquare {s : Square} (hs : square ∈ (a.pieceAt? s).map (·.square)) : square = s := by
      obtain ⟨q, hq, rfl⟩ := Option.map_eq_some_iff.mp hs
      obtain ⟨t, side, -, rfl⟩ := pieceAt?_eq_some_iff.mp hq
      rfl
    exact (hsquare hs).symm.trans (hsquare hs')
  rw [pieces_position]
  exact (List.filter_sublist.map _).nodup hsquares

end Pieces

section Text

theorem mem_ranks {cs : List Char} (hcs : cs ∈ a.ranks) {c : Char} (hc : c ∈ cs) :
    c.isDigit = true ∨ ∃ s t side, a.at? s = some (t, side) ∧ t.symbol side = c := by
  obtain ⟨y, -, rfl⟩ := List.mem_map.mp hcs
  refine (Rank.mem_write hc).imp_right fun hcell => ?_
  obtain ⟨x, -, hsymbol⟩ := List.mem_map.mp hcell
  obtain ⟨⟨t, side⟩, hat, hc⟩ := Option.map_eq_some_iff.mp hsymbol
  exact ⟨⟨x, y⟩, t, side, hat, hc⟩

theorem slash_not_mem (hplain : a.Plain) {cs : List Char} (hcs : cs ∈ a.ranks) : '/' ∉ cs := by
  intro hmem
  rcases mem_ranks hcs hmem with hdigit | ⟨s, t, side, hat, hslash⟩
  · exact absurd hdigit (by decide)
  · exact (hplain s t side hat).2 hslash

theorem not_blank_of_mem_text (h : ∀ t ∈ templates, ∀ side, isBlank (t.symbol side) = false) :
    ∀ c ∈ a.text, isBlank c = false := by
  intro c hc
  rcases mem_or_exists_of_mem_intercalate hc with hsep | ⟨cs, hcs, hc⟩
  · obtain rfl := List.mem_singleton.mp hsep
    decide
  · rcases mem_ranks hcs hc with hdigit | ⟨s, t, side, hat, rfl⟩
    · exact not_blank_of_isDigit hdigit
    · exact h t (a.listed hat) side

variable (hpos : 0 < b.area) (harea : b.area ≤ maxArea)

include hpos harea

theorem ranks_eq (a : Arrangement b templates) : a.ranks = (List.range' 0 b.ranks).map fun i : ℕ =>
    Rank.write 0 ((List.range' 0 b.files).map fun j : ℕ =>
      a.symbolAt? ⟨b.left + j, b.top - 1 - i⟩) := by
  rw [ranks, Bounds.reverse_interval_ranks harea hpos, Bounds.interval_files harea hpos, List.map_map]
  simp only [List.map_map, Function.comp_def]

theorem pieces_eq (a : Arrangement b templates) : a.pieces = (List.range' 0 b.ranks).flatMap fun i : ℕ =>
    (List.range' 0 b.files).filterMap fun j : ℕ => a.pieceAt? ⟨b.left + j, b.top - 1 - i⟩ := by
  rw [pieces, Bounds.readingOrder, Bounds.reverse_interval_ranks harea hpos,
    Bounds.interval_files harea hpos, List.filterMap_flatMap, List.flatMap_map]
  simp only [List.map_map, List.filterMap_map, Function.comp_def]

theorem ranks_ne_nil (a : Arrangement b templates) : a.ranks ≠ [] := by
  have hranks : 0 < b.ranks := Nat.pos_of_mul_pos_left hpos
  rw [ranks_eq hpos harea, ne_eq, List.map_eq_nil_iff, List.range'_eq_nil_iff]
  omega

theorem text_ne_nil (a : Arrangement b templates) : a.text ≠ [] := by
  obtain ⟨first, rest, hranks⟩ := List.exists_cons_of_ne_nil (ranks_ne_nil hpos harea a)
  have hfirst : first ∈ a.ranks := hranks ▸ List.mem_cons_self
  rw [ranks_eq hpos harea] at hfirst
  obtain ⟨i, -, rfl⟩ := List.mem_map.mp hfirst
  have hfiles : 0 < b.files := Nat.pos_of_mul_pos_right hpos
  have hne : Rank.write 0 ((List.range' 0 b.files).map fun j : ℕ =>
      a.symbolAt? ⟨b.left + j, b.top - 1 - i⟩) ≠ [] := Rank.write_ne_nil (by simpa using hfiles)
  rw [text, hranks]
  cases rest with
  | nil => rwa [List.intercalate_singleton]
  | cons next rest =>
    rw [List.intercalate_cons_cons]
    exact List.append_ne_nil_of_left_ne_nil (List.append_ne_nil_of_left_ne_nil hne _) _

end Text

end Arrangement

end FairyChess
