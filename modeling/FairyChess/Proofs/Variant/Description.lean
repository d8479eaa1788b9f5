import FairyChess.Proofs.Reading
import FairyChess.Proofs.Text.Blank
import FairyChess.Variant.Reader

/-! Descriptions up to their placement: the table of symbols, and the lines that are read before it. -/
namespace FairyChess

namespace SymbolTable

variable {table table' : SymbolTable} {P : Template → Side → Prop} {t : Template} {side : Side}

/-- The table holds the symbols of the piece types and sides with a property, and no others. -/
structure Holds (table : SymbolTable) (P : Template → Side → Prop) : Prop where
  listed {c : Char} {t : Template} {side : Side} :
    table.find? c = some (t, side) → P t side ∧ t.symbol side = c
  found {t : Template} {side : Side} :
    P t side → t.symbol side ≠ '_' → table.find? (t.symbol side) = some (t, side)

theorem find?_append {c d : Char} (hnew : table.find? c = none) :
    (table ++ [(c, t, side)]).find? d = if d = c then some (t, side) else table.find? d := by
  unfold find? at *
  rw [List.lookup_append, List.lookup_cons, List.lookup_nil]
  by_cases hd : d = c
  · subst hd
    simp [hnew]
  · have hne : (d == c) = false := beq_false_of_ne hd
    simp [hd, hne]

theorem holds_nil : Holds [] fun _ _ => False where
  listed h := nomatch h
  found h := nomatch h

theorem Holds.congr {Q : Template → Side → Prop} (h : table.Holds P)
    (hPQ : ∀ t side, P t side ↔ Q t side) : table.Holds Q where
  listed hfind := ⟨(hPQ _ _).mp (h.listed hfind).1, (h.listed hfind).2⟩
  found hQ := h.found ((hPQ _ _).mpr hQ)

theorem Holds.insertSide (h : table.Holds P)
    (hinsert : (if t.symbol side = '_' then .ok table
      else if (table.find? (t.symbol side)).isSome then .error (t.symbol side)
      else .ok (table ++ [(t.symbol side, t, side)]) : Except Char SymbolTable) = .ok table') :
    table'.Holds fun t' side' => P t' side' ∨ t' = t ∧ side' = side := by
  split at hinsert
  · next hnone =>
    obtain rfl := Except.ok.inj hinsert
    refine ⟨fun hfind => ⟨.inl (h.listed hfind).1, (h.listed hfind).2⟩, ?_⟩
    rintro t' side' (hP | ⟨rfl, rfl⟩) hsymbol
    · exact h.found hP hsymbol
    · exact absurd hnone hsymbol
  · split at hinsert
    · cases hinsert
    · next hfree =>
      obtain rfl := Except.ok.inj hinsert
      have hnew : table.find? (t.symbol side) = none := by simpa using hfree
      constructor
      · intro c t' side' hfind
        rw [find?_append hnew] at hfind
        split at hfind
        · next hc =>
          obtain ⟨rfl, rfl⟩ := Prod.mk.inj (Option.some.inj hfind)
          exact ⟨.inr ⟨rfl, rfl⟩, hc.symm⟩
        · exact ⟨.inl (h.listed hfind).1, (h.listed hfind).2⟩
      · rintro t' side' (hP | ⟨rfl, rfl⟩) hsymbol
        · have hold := h.found hP hsymbol
          rw [find?_append hnew, if_neg, hold]
          intro hsame
          rw [hsame, hnew] at hold
          cases hold
        · rw [find?_append hnew, if_pos rfl]

theorem Holds.insert (h : table.Holds P) (hinsert : table.insert t = .ok table') :
    table'.Holds fun t' side => P t' side ∨ t' = t := by
  rw [SymbolTable.insert, List.foldlM_cons] at hinsert
  obtain ⟨first, hfirst, hinsert⟩ := of_bind_eq_ok hinsert
  rw [List.foldlM_cons] at hinsert
  obtain ⟨second, hsecond, hpure⟩ := of_bind_eq_ok hinsert
  obtain rfl : second = table' := Except.ok.inj hpure
  refine ((h.insertSide hfirst).insertSide hsecond).congr fun t' side => ?_
  cases side
  · simp
  · simp

end SymbolTable

namespace Variant
open Text

variable {n count : ℕ} {table table' : SymbolTable} {ls rest : List Line} {ts : List Template}

theorem of_takeLine {item : String} {l : Line} (h : takeLine count item ls = .ok (l, rest)) :
    ls = l :: rest := by
  cases ls with
  | nil => cases h
  | cons l' rest' =>
    obtain ⟨rfl, rfl⟩ := Prod.mk.inj (Except.ok.inj h)
    rfl

theorem not_blank_of_readSymbol {line : ℕ} {cs : List Char} {c : Char}
    (h : readSymbol line cs = .ok c) : isBlank c = false := by
  unfold readSymbol at h
  split at h
  · next d htrim =>
    obtain rfl := Except.ok.inj h
    exact not_blank_of_trim_eq_singleton htrim
  · cases h

theorem not_blank_of_readTemplate {l : Line} {t : Template} (h : readTemplate l = .ok t) (side : Side) :
    isBlank (t.symbol side) = false := by
  unfold readTemplate at h
  split at h
  swap
  · cases h
  dsimp only at h
  split at h
  · cases h
  obtain ⟨white, hwhite, h⟩ := of_bind_eq_ok h
  obtain ⟨black, hblack, h⟩ := of_bind_eq_ok h
  obtain ⟨value, -, h⟩ := of_bind_eq_ok h
  obtain ⟨grammar, -, ht⟩ := of_bind_eq_ok (of_mapError_eq_ok h)
  obtain rfl := Except.ok.inj ht
  cases side
  · exact not_blank_of_readSymbol hwhite
  · exact not_blank_of_readSymbol hblack

/-- One piece type after another is read from a line of its own and added to the table. -/
theorem of_readTemplates_succ (h : readTemplates count (n + 1) table ls = .ok ((ts, table'), rest)) :
    ∃ l more t next ts', ls = l :: more ∧ readTemplate l = .ok t ∧ table.insert t = .ok next ∧
      readTemplates count n next more = .ok ((ts', table'), rest) ∧ ts = t :: ts' := by
  obtain ⟨⟨l, more⟩, hline, h⟩ := of_bind_eq_ok h
  obtain ⟨t, ht, h⟩ := of_bind_eq_ok h
  obtain ⟨next, hnext, h⟩ := of_bind_eq_ok h
  obtain ⟨⟨⟨ts', last⟩, rest'⟩, hrest, h⟩ := of_bind_eq_ok h
  obtain ⟨htable, rfl⟩ := Prod.mk.inj (Except.ok.inj h)
  obtain ⟨rfl, rfl⟩ := Prod.mk.inj htable
  exact ⟨l, more, t, next, ts', of_takeLine hline, ht, of_mapError_eq_ok hnext, hrest, rfl⟩

theorem holds_of_readTemplates {P : Template → Side → Prop} (htable : table.Holds P)
    (h : readTemplates count n table ls = .ok ((ts, table'), rest)) :
    table'.Holds fun t side => P t side ∨ t ∈ ts := by
  induction n generalizing table ls ts P with
  | zero =>
    obtain ⟨hpair, rfl⟩ := Prod.mk.inj (Except.ok.inj h)
    obtain ⟨rfl, rfl⟩ := Prod.mk.inj hpair
    exact htable.congr (by simp)
  | succ n ih =>
    obtain ⟨l, more, t, next, ts', -, -, hnext, hrest, rfl⟩ := of_readTemplates_succ h
    refine (ih (htable.insert hnext) hrest).congr fun t' side => ?_
    rw [List.mem_cons, or_assoc]

theorem not_blank_of_readTemplates (h : readTemplates count n table ls = .ok ((ts, table'), rest)) :
    ∀ t ∈ ts, ∀ side, isBlank (t.symbol side) = false := by
  induction n generalizing table ls ts with
  | zero =>
    obtain ⟨hpair, rfl⟩ := Prod.mk.inj (Except.ok.inj h)
    obtain ⟨rfl, rfl⟩ := Prod.mk.inj hpair
    exact fun _ ht => absurd ht List.not_mem_nil
  | succ n ih =>
    obtain ⟨l, more, t, next, ts', -, ht, -, hrest, rfl⟩ := of_readTemplates_succ h
    exact List.forall_mem_cons.mpr ⟨not_blank_of_readTemplate ht, ih hrest⟩

/-- The lines of the piece types are all that is read for them, whatever follows. -/
theorem exists_lines_of_readTemplates
    (h : readTemplates count n table ls = .ok ((ts, table'), rest)) :
    ∃ used, ls = used ++ rest ∧ used.length = ts.length ∧ ∀ count' more,
      readTemplates count' n table (used ++ more) = .ok ((ts, table'), more) := by
  induction n generalizing table ls ts with
  | zero =>
    obtain ⟨hpair, rfl⟩ := Prod.mk.inj (Except.ok.inj h)
    obtain ⟨rfl, rfl⟩ := Prod.mk.inj hpair
    exact ⟨[], rfl, rfl, fun _ _ => rfl⟩
  | succ n ih =>
    obtain ⟨l, more, t, next, ts', rfl, ht, hnext, hrest, rfl⟩ := of_readTemplates_succ h
    obtain ⟨used, rfl, hlength, hread⟩ := ih hrest
    refine ⟨l :: used, rfl, by rw [List.length_cons, List.length_cons, hlength], fun count' more => ?_⟩
    rw [readTemplates, List.cons_append, takeLine, ok_bind]
    dsimp only
    rw [ht, ok_bind, hnext, Except.mapError, ok_bind, hread, ok_bind]

theorem bounds_of_readBounds {l : Line} {b : Bounds} (h : readBounds l = .ok b) :
    0 < b.area ∧ b.area ≤ maxArea := by
  unfold readBounds at h
  split at h
  swap
  · cases h
  obtain ⟨right, -, h⟩ := of_bind_eq_ok h
  obtain ⟨top, -, h⟩ := of_bind_eq_ok h
  obtain ⟨left, -, h⟩ := of_bind_eq_ok h
  obtain ⟨bottom, -, h⟩ := of_bind_eq_ok h
  dsimp only at h
  split at h
  · cases h
  · next hempty =>
    split at h
    · cases h
    · next hlarge =>
      obtain rfl := Except.ok.inj h
      exact ⟨Nat.pos_of_ne_zero hempty, Nat.le_of_not_lt hlarge⟩

section Lines

def contentLine? (chars : List Char) (number : ℕ) : Option Line :=
  if (trim chars).isEmpty then none else some ⟨number, trim chars⟩

/-- An empty line at the end has no content. -/
theorem contentLines_eq (text : List Char) :
    contentLines text = ((fields '\n' text).zipIdx 1).filterMap fun (chars, number) =>
      contentLine? chars number := by
  rcases fields_eq_lines text with h | h
  · rw [h]
    rfl
  · rw [h, List.zipIdx_append, List.filterMap_append]
    exact (List.append_nil _).symm

/-- A word on a line of its own is the content of that line. -/
theorem contentLines_append_word (front : List Char) {word : List Char} (hne : word ≠ [])
    (hword : ∀ c ∈ word, isBlank c = false) :
    contentLines (front ++ '\n' :: word) =
      contentLines front ++ [⟨1 + (fields '\n' front).length, word⟩] := by
  have hfeed : '\n' ∉ word := fun hmem => absurd (hword _ hmem) (by decide)
  have hcontent (number : ℕ) : contentLine? word number = some ⟨number, word⟩ := by
    rw [contentLine?, trim_of_not_blank hword, List.isEmpty_eq_false_iff.mpr hne]
    rfl
  have hlines : contentLines (front ++ '\n' :: word) =
      ((lines (front ++ '\n' :: word)).zipIdx 1).filterMap fun (chars, number) =>
        contentLine? chars number := rfl
  rw [hlines, lines_append, lines_of_not_mem hne hfeed, List.zipIdx_append, List.filterMap_append,
    contentLines_eq]
  simp [hcontent]

theorem contentLines_append (front rest : List Char) :
    ∃ more, contentLines (front ++ '\n' :: rest) = contentLines front ++ more := by
  have hlines : contentLines (front ++ '\n' :: rest) =
      ((lines (front ++ '\n' :: rest)).zipIdx 1).filterMap fun (chars, number) =>
        contentLine? chars number := rfl
  rw [hlines, lines_append, List.zipIdx_append, List.filterMap_append, contentLines_eq]
  exact ⟨_, rfl⟩

end Lines

/-- The lines of a description before its placement, and what is read from them. -/
inductive Front : List Line → String → Bounds → List Template → SymbolTable → Prop
  | intro {title board count : Line} {used : List Line} {n : ℕ} {b : Bounds}
      {templates : List Template} {table : SymbolTable} (hbounds : readBounds board = .ok b)
      (hcount : readNumber count.number "piece definition count" (readNat? maxTemplates)
        count.chars = .ok n)
      (htemplates : ∀ lineCount more,
        readTemplates lineCount n [] (used ++ more) = .ok ((templates, table), more)) :
      Front (title :: board :: count :: used) (String.ofList title.chars) b templates table

namespace Front

variable {front : List Line} {title : String} {b : Bounds} {templates : List Template}

theorem area (h : Front front title b templates table) : 0 < b.area ∧ b.area ≤ maxArea := by
  cases h with
  | intro hbounds _ _ => exact bounds_of_readBounds hbounds

theorem symbols (h : Front front title b templates table) :
    table.Holds fun t _ => t ∈ templates := by
  cases h with
  | intro _ _ htemplates =>
    exact (holds_of_readTemplates SymbolTable.holds_nil (htemplates 0 [])).congr (by simp)

theorem not_blank (h : Front front title b templates table) :
    ∀ t ∈ templates, ∀ side, isBlank (t.symbol side) = false := by
  cases h with
  | intro _ _ htemplates => exact not_blank_of_readTemplates (htemplates 0 [])

theorem length_eq (h : Front front title b templates table) : front.length = templates.length + 3 := by
  cases h with
  | intro _ _ htemplates =>
    obtain ⟨used, hused, hlength, -⟩ := exists_lines_of_readTemplates (htemplates 0 [])
    obtain rfl := List.append_cancel_right hused
    rw [List.length_cons, List.length_cons, List.length_cons, hlength]

/-- After these lines all depends on the placement. -/
theorem read_eq (h : Front front title b templates table) {source : String} {placement : Line}
    (hlines : contentLines source.toList = front ++ placement :: rest) :
    Variant.read source = (Setup.readPlacement ⟨b, table, placement.number⟩
      (firstWord placement.chars)).map (Variant.mk title b templates) := by
  cases h with
  | intro hbounds hcount htemplates =>
    rw [Variant.read]
    dsimp only
    rw [hlines, List.cons_append, takeLine, ok_bind]
    dsimp only
    rw [List.cons_append, takeLine, ok_bind]
    dsimp only
    rw [hbounds, ok_bind, List.cons_append, takeLine, ok_bind]
    dsimp only
    rw [hcount, ok_bind, htemplates, ok_bind]
    dsimp only
    rw [takeLine, ok_bind]
    dsimp only
    cases Setup.readPlacement _ (firstWord placement.chars) <;> rfl

end Front

variable {source : String} {v : Variant}

theorem exists_front_of_read (h : Variant.read source = .ok v) :
    ∃ front table placement rest, Front front v.title v.bounds v.templates table ∧
      contentLines source.toList = front ++ placement :: rest ∧
      Setup.readPlacement ⟨v.bounds, table, placement.number⟩ (firstWord placement.chars) =
        .ok v.position := by
  obtain ⟨⟨title, titleRest⟩, htitle, h⟩ := of_bind_eq_ok h
  obtain ⟨⟨board, boardRest⟩, hboard, h⟩ := of_bind_eq_ok h
  obtain ⟨bounds, hbounds, h⟩ := of_bind_eq_ok h
  obtain ⟨⟨count, countRest⟩, hcount, h⟩ := of_bind_eq_ok h
  obtain ⟨n, hn, h⟩ := of_bind_eq_ok h
  obtain ⟨⟨⟨templates, table⟩, rest⟩, htemplates, h⟩ := of_bind_eq_ok h
  obtain ⟨⟨placement, placementRest⟩, hplacement, h⟩ := of_bind_eq_ok h
  obtain ⟨position, hposition, hv⟩ := of_bind_eq_ok h
  obtain rfl := Except.ok.inj hv
  obtain ⟨used, rfl, -, hused⟩ := exists_lines_of_readTemplates htemplates
  refine ⟨title :: board :: count :: used, table, placement, placementRest, ⟨hbounds, hn, hused⟩,
    ?_, hposition⟩
  rw [of_takeLine htitle, of_takeLine hboard, of_takeLine hcount, of_takeLine hplacement]
  rfl

section Word

variable {front : String}

theorem toList_append_line (front rest : String) :
    (front ++ "\n" ++ rest).toList = front.toList ++ '\n' :: rest.toList := by
  rw [String.toList_append, String.toList_append, List.append_assoc]
  rfl

/-- What comes before the placement of a description that is read is all but its last line. -/
theorem exists_front {old : String} (hread : Variant.read (front ++ "\n" ++ old) = .ok v)
    (hfront : (contentLines front.toList).length = v.templates.length + 3) :
    ∃ table, Front (contentLines front.toList) v.title v.bounds v.templates table := by
  obtain ⟨ls, table, placement, rest, hls, hlines, -⟩ := exists_front_of_read hread
  obtain ⟨more, hmore⟩ := contentLines_append front.toList old.toList
  rw [← toList_append_line, hlines] at hmore
  have hlength : ls.length = (contentLines front.toList).length := hls.length_eq.trans hfront.symm
  exact ⟨table, (List.append_inj hmore hlength).1 ▸ hls⟩

/-- A word on the line after it is read as the placement. -/
theorem Front.read_word {title : String} {b : Bounds} {templates : List Template}
    (h : Front (contentLines front.toList) title b templates table) {word : List Char}
    (hne : word ≠ []) (hword : ∀ c ∈ word, isBlank c = false) :
    Variant.read (front ++ "\n" ++ String.ofList word) =
      (Setup.readPlacement ⟨b, table, 1 + (fields '\n' front.toList).length⟩ word).map
        (Variant.mk title b templates) := by
  have hlines : contentLines (front ++ "\n" ++ String.ofList word).toList =
      contentLines front.toList ++ [⟨1 + (fields '\n' front.toList).length, word⟩] := by
    rw [toList_append_line, String.toList_ofList, contentLines_append_word _ hne hword]
  rw [h.read_eq hlines, firstWord_of_not_blank hword]

end Word

end Variant

end FairyChess
