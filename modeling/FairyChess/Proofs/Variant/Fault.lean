import FairyChess.Proofs.Variant.Description

/-!
Faults in descriptions. An error that names a line is found on that line, and the lines after it have no part
in it.
-/
namespace FairyChess

/-- The line that an error is about. One for a missing line is about none that is there. -/
def VariantError.line? : VariantError → Option ℕ
  | unreadable _ => none
  | malformed _ (.missing _) => none
  | malformed line _ => some line
  | unknownSymbol line _ => some line
  | boardTooLarge _ => none
  | badMovement line _ => some line

/-- All errors that name a line name this one. -/
def FaultsAt {α : Type} (line : ℕ) (x : Except VariantError α) : Prop :=
  ∀ ⦃e n⦄, x = .error e → e.line? = some n → n = line

section FaultsAt

variable {α β : Type} {line : ℕ}

theorem FaultsAt.ok (a : α) : FaultsAt line (.ok a) := nofun

theorem FaultsAt.error {e : VariantError} (he : e.line? = none ∨ e.line? = some line) :
    FaultsAt (α := α) line (.error e) := by
  intro e' n h hn
  obtain rfl := Except.error.inj h
  rcases he with he | he
  · rw [he] at hn
    cases hn
  · exact Option.some.inj (hn.symm.trans he)

theorem FaultsAt.bind {x : Except VariantError α} {f : α → Except VariantError β}
    (hx : FaultsAt line x) (hf : ∀ a, FaultsAt line (f a)) : FaultsAt line (x >>= f) := by
  cases x with
  | error e =>
    intro e' n h hn
    obtain rfl := Except.error.inj h
    exact hx rfl hn
  | ok a => exact hf a

theorem FaultsAt.mapError {ε : Type} (x : Except ε α) {f : ε → VariantError}
    (hf : ∀ e, (f e).line? = some line) : FaultsAt line (x.mapError f) := by
  cases x with
  | error e => exact .error (.inr (hf e))
  | ok a => exact .ok a

end FaultsAt

namespace Setup

variable (s : Setup) (row : ℕ)

theorem faultsAt_checkSpan (n : ℕ) : FaultsAt s.line (s.checkSpan row n) := by
  unfold checkSpan
  split
  · exact .ok n
  · exact .error (.inr rfl)

theorem faultsAt_readRank (file run : ℕ) (cs : List Char) :
    FaultsAt s.line (s.readRank row file run cs) := by
  induction cs generalizing file run with
  | nil =>
    unfold readRank
    refine (s.faultsAt_checkSpan row _).bind fun covered => ?_
    split
    · exact .ok []
    · exact .error (.inr rfl)
  | cons c cs ih =>
    unfold readRank
    split
    · exact (s.faultsAt_checkSpan row _).bind fun run => ih file run
    · refine (s.faultsAt_checkSpan row _).bind fun file => ?_
      split
      · exact .error (.inr rfl)
      · split
        · exact .error (.inr rfl)
        · exact (ih _ _).bind fun rest => .ok _

theorem faultsAt_readRanks (rows : List (List Char)) : FaultsAt s.line (s.readRanks row rows) := by
  induction rows generalizing row with
  | nil => exact .ok []
  | cons cs rows ih =>
    exact (s.faultsAt_readRank row 0 0 cs).bind fun front => (ih (row + 1)).bind fun back => .ok _

theorem faultsAt_readPlacement (text : List Char) : FaultsAt s.line (s.readPlacement text) := by
  unfold readPlacement
  dsimp only
  split
  · exact (s.faultsAt_readRanks 0 _).bind fun qs => .ok _
  · exact .error (.inr rfl)

end Setup

namespace Variant
open Text

section Fields

theorem faultsAt_readNumber {α : Type} (line : ℕ) (item : String) (read? : List Char → Option α)
    (cs : List Char) : FaultsAt line (readNumber line item read? cs) := by
  unfold readNumber
  split
  · exact .ok _
  · exact .error (.inr rfl)

theorem faultsAt_readBounds (l : Line) : FaultsAt l.number (readBounds l) := by
  unfold readBounds
  split
  · refine (faultsAt_readNumber ..).bind fun right => (faultsAt_readNumber ..).bind fun top =>
      (faultsAt_readNumber ..).bind fun left => (faultsAt_readNumber ..).bind fun bottom => ?_
    dsimp only
    split
    · exact .error (.inr rfl)
    · split
      · exact .error (.inl rfl)
      · exact .ok _
  · exact .error (.inr rfl)

theorem faultsAt_readSymbol (line : ℕ) (cs : List Char) : FaultsAt line (readSymbol line cs) := by
  unfold readSymbol
  split
  · exact .ok _
  · exact .error (.inr rfl)

theorem faultsAt_readValue (line : ℕ) (cs : List Char) : FaultsAt line (readValue line cs) := by
  unfold readValue
  split
  · exact .ok _
  · exact faultsAt_readNumber ..

theorem faultsAt_readTemplate (l : Line) : FaultsAt l.number (readTemplate l) := by
  unfold readTemplate
  split
  · dsimp only
    split
    · exact .error (.inr rfl)
    · exact (faultsAt_readSymbol ..).bind fun white => (faultsAt_readSymbol ..).bind fun black =>
        (faultsAt_readValue ..).bind fun value => .mapError _ fun e => rfl
  · exact .error (.inr rfl)

end Fields

section Prompt

variable {α β : Type}

/-- An error that names a line is found once that line is read, whatever follows. -/
def Prompt (read : ℕ → List Line → Except VariantError α) : Prop :=
  ∀ ⦃count ls e n⦄, read count ls = .error e → e.line? = some n →
    ∃ before l after, ls = before ++ l :: after ∧ l.number = n ∧
      ∀ count' after', read count' (before ++ l :: after') = .error e

/-- Reads the next line and goes on with what it holds. -/
def onLine (item : String) (f : Line → Except VariantError α)
    (go : α → ℕ → List Line → Except VariantError β) (count : ℕ) (ls : List Line) :
    Except VariantError β := do
  let (l, rest) ← takeLine count item ls
  go (← f l) count rest

theorem Prompt.ok (a : α) : Prompt fun _ _ => .ok a := by
  intro count ls e n h hn
  cases h

theorem Prompt.onLine {item : String} {f : Line → Except VariantError α}
    {go : α → ℕ → List Line → Except VariantError β} (hf : ∀ l, FaultsAt l.number (f l))
    (hgo : ∀ a, Prompt (go a)) : Prompt (onLine item f go) := by
  intro count ls e n h hn
  cases ls with
  | nil =>
    obtain rfl := Except.error.inj h
    cases hn
  | cons l rest =>
    have hline (count : ℕ) (rest : List Line) :
        Variant.onLine item f go count (l :: rest) = f l >>= fun a => go a count rest := rfl
    rw [hline] at h
    cases hl : f l with
    | error e' =>
      rw [hl] at h
      obtain rfl := Except.error.inj h
      refine ⟨[], l, rest, rfl, (hf l hl hn).symm, fun count' after' => ?_⟩
      rw [List.nil_append, hline, hl]
      rfl
    | ok a =>
      rw [hl] at h
      obtain ⟨before, l', after, rfl, hnumber, hread⟩ := hgo a h hn
      refine ⟨l :: before, l', after, rfl, hnumber, fun count' after' => ?_⟩
      rw [List.cons_append, hline, hl]
      exact hread count' after'

/-- Reads a number of piece types and goes on with them and the table of their symbols. -/
def onTemplates (n : ℕ) (table : SymbolTable)
    (go : List Template × SymbolTable → ℕ → List Line → Except VariantError β) (count : ℕ)
    (ls : List Line) : Except VariantError β := do
  let (x, rest) ← readTemplates count n table ls
  go x count rest

/-- Reads a piece type and adds its symbols to the table. -/
def readInto (table : SymbolTable) (l : Line) : Except VariantError (Template × SymbolTable) := do
  let t ← readTemplate l
  let table ← (table.insert t).mapError fun c => .malformed l.number (.duplicateSymbol c)
  .ok (t, table)

theorem faultsAt_readInto (table : SymbolTable) (l : Line) : FaultsAt l.number (readInto table l) :=
  (faultsAt_readTemplate l).bind fun _ => (FaultsAt.mapError _ fun _ => rfl).bind fun _ => .ok _

theorem onTemplates_succ (n : ℕ) (table : SymbolTable)
    (go : List Template × SymbolTable → ℕ → List Line → Except VariantError β) :
    onTemplates (n + 1) table go = onLine "piece definition" (readInto table) fun x =>
      onTemplates n x.2 fun y => go (x.1 :: y.1, y.2) := by
  funext count ls
  cases ls with
  | nil => rfl
  | cons l rest =>
    unfold onTemplates onLine readInto
    rw [readTemplates, takeLine, ok_bind, ok_bind]
    dsimp only
    cases readTemplate l with
    | error e => rfl
    | ok t =>
      rw [ok_bind, ok_bind]
      cases (table.insert t).mapError fun c => VariantError.malformed l.number (.duplicateSymbol c) with
      | error e => rfl
      | ok table =>
        rw [ok_bind, ok_bind, ok_bind]
        dsimp only
        cases readTemplates count n table rest <;> rfl

theorem Prompt.onTemplates {go : List Template × SymbolTable → ℕ → List Line → Except VariantError β}
    (hgo : ∀ x, Prompt (go x)) (n : ℕ) (table : SymbolTable) :
    Prompt (Variant.onTemplates n table go) := by
  induction n generalizing table go with
  | zero => exact hgo ([], table)
  | succ n ih =>
    rw [onTemplates_succ]
    exact .onLine (faultsAt_readInto table) fun x => ih (fun y => hgo (x.1 :: y.1, y.2)) x.2

/-- Reads a description from its lines that are not blank. -/
def readLines : ℕ → List Line → Except VariantError Variant :=
  onLine "title" .ok fun title =>
    onLine "board limits" readBounds fun bounds =>
      onLine "piece definition count"
        (fun l => readNumber l.number "piece definition count" (readNat? maxTemplates) l.chars)
        fun n => onTemplates n [] fun x =>
          onLine "placement"
            (fun l => Setup.readPlacement ⟨bounds, x.2, l.number⟩ (firstWord l.chars))
            fun position _ _ => .ok ⟨String.ofList title.chars, bounds, x.1, position⟩

theorem read_eq_readLines (source : String) :
    Variant.read source = readLines (lines source.toList).length (contentLines source.toList) := rfl

theorem prompt_readLines : Prompt readLines :=
  .onLine (fun _ => .ok _) fun _ => .onLine faultsAt_readBounds fun bounds =>
    .onLine (fun _ => faultsAt_readNumber ..) fun n => .onTemplates (fun x =>
      .onLine (fun l => Setup.faultsAt_readPlacement ⟨bounds, x.2, l.number⟩ _) fun _ => .ok _) n []

end Prompt

section Numbers

/-- The lines that are not blank among trimmed lines, which are numbered from `start` on. -/
def numbered (start : ℕ) (trimmed : List (List Char)) : List Line :=
  (trimmed.zipIdx start).filterMap fun (chars, number) =>
    if chars.isEmpty then none else some ⟨number, chars⟩

theorem contentLines_eq_numbered (text : List Char) :
    contentLines text = numbered 1 ((lines text).map trim) := by
  rw [numbered, List.zipIdx_map, List.filterMap_map]
  rfl

theorem numbered_append (start : ℕ) (xs ys : List (List Char)) :
    numbered start (xs ++ ys) = numbered start xs ++ numbered (start + xs.length) ys := by
  rw [numbered, List.zipIdx_append, List.filterMap_append]
  rfl

theorem of_mem_numbered {start : ℕ} {trimmed : List (List Char)} {l : Line} (h : l ∈ numbered start trimmed) :
    start ≤ l.number ∧ trimmed[l.number - start]? = some l.chars ∧ l.chars ≠ [] := by
  obtain ⟨⟨chars, number⟩, hmem, hline⟩ := List.mem_filterMap.mp h
  obtain ⟨hstart, hchars⟩ := List.mk_mem_zipIdx_iff_le_and_getElem?_sub.mp hmem
  dsimp only at hline
  split at hline
  · cases hline
  · next hne =>
    obtain rfl := Option.some.inj hline
    exact ⟨hstart, hchars, by simpa using hne⟩

/-- A line with a number up to `n` is among the first `n` lines. -/
theorem exists_numbered_take {n : ℕ} {trimmed : List (List Char)} {before after : List Line} {l : Line}
    (h : numbered 1 trimmed = before ++ l :: after) (hl : l.number ≤ n) :
    ∃ more, numbered 1 (trimmed.take n) = before ++ l :: more := by
  rw [← List.take_append_drop n trimmed, numbered_append] at h
  have hlater : l ∉ numbered (1 + (trimmed.take n).length) (trimmed.drop n) := by
    intro hmem
    obtain ⟨hstart, hchars, -⟩ := of_mem_numbered hmem
    have hsome := (List.getElem?_eq_some_iff.mp hchars).1
    rw [List.length_drop] at hsome
    rw [List.length_take] at hstart
    omega
  obtain ⟨more, -, hmore⟩ | ⟨more, hbefore, hmore⟩ := List.append_eq_append_iff.mp h
  · rw [hmore] at hlater
    exact absurd (List.mem_append_right more List.mem_cons_self) hlater
  · cases more with
    | nil =>
      rw [← List.nil_append (numbered _ _), ← hmore] at hlater
      exact absurd List.mem_cons_self hlater
    | cons first more =>
      obtain ⟨rfl, -⟩ := List.cons.inj hmore
      exact ⟨more, hbefore⟩

end Numbers

/--
A description that is refused for a fault on a line has a line with that number, and it is not blank. Every
text whose lines up to this one are the same, but for blanks around them, is refused with the same error.
-/
theorem error_of_same_lines {source : String} {e : VariantError} {n : ℕ}
    (h : Variant.read source = .error e) (hn : e.line? = some n) :
    (1 ≤ n ∧ ∃ chars, (lines source.toList)[n - 1]? = some chars ∧ trim chars ≠ []) ∧
      ∀ other : String, ((lines other.toList).take n).map trim = ((lines source.toList).take n).map trim →
        Variant.read other = .error e := by
  rw [read_eq_readLines, contentLines_eq_numbered] at h
  obtain ⟨before, l, after, hlines, rfl, hread⟩ := prompt_readLines h hn
  constructor
  · obtain ⟨hnumber, hchars, hne⟩ := of_mem_numbered (hlines ▸ List.mem_append_right before List.mem_cons_self)
    rw [List.getElem?_map, Option.map_eq_some_iff] at hchars
    obtain ⟨chars, hchars, htrim⟩ := hchars
    exact ⟨hnumber, chars, hchars, htrim ▸ hne⟩
  · intro other hsame
    obtain ⟨more, hmore⟩ := exists_numbered_take hlines le_rfl
    rw [← List.map_take, ← hsame, List.map_take] at hmore
    have hother := numbered_append 1 (((lines other.toList).map trim).take l.number)
      (((lines other.toList).map trim).drop l.number)
    rw [List.take_append_drop, hmore, List.append_assoc, List.cons_append] at hother
    rw [read_eq_readLines, contentLines_eq_numbered, hother]
    exact hread _ _

/-- A symbol that is used twice is found before the placement, which the other text has not even got. -/
theorem error_of_same_lines_duplicate :
    let source := "Duel\n\n2,2,0,0\n2\nKing,K,k,1000,k1*\nRook,R,K,5,n+\nK1/1q"
    let other := "Duel\n\n 2,2,0,0\r\n2\nKing,K,k,1000,k1*\nRook,R,K,5,n+"
    let e := VariantError.malformed 6 (.duplicateSymbol 'K')
    Variant.read source = .error e ∧ e.line? = some 6 ∧
      (∃ chars, (lines source.toList)[5]? = some chars ∧ trim chars ≠ []) ∧
      ((lines other.toList).take 6).map trim = ((lines source.toList).take 6).map trim ∧
      Variant.read other = .error e := by
  intro source other e
  have hread : Variant.read source = .error e := by decide +kernel
  have hsame : ((lines other.toList).take 6).map trim = ((lines source.toList).take 6).map trim := by
    decide +kernel
  obtain ⟨⟨-, hline⟩, hother⟩ := error_of_same_lines hread rfl
  exact ⟨hread, rfl, hline, hsame, hother other hsame⟩

end Variant

end FairyChess
