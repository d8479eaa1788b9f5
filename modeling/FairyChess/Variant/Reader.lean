import FairyChess.Game
import FairyChess.Variant.Placement

/-!
Descriptions of variants. The lines that are not blank hold the title, the limits of the board, the
number of piece types, one type each, and the placement of the pieces.
-/
namespace FairyChess

structure Variant where
  title : String
  bounds : Bounds
  templates : List Template
  position : Position
  deriving DecidableEq, Repr

def Variant.newGame (v : Variant) : Game :=
  { title := v.title, position := v.position }

namespace Variant
open Text

/-- A line that is not blank, without the blanks around it, and its number in the text. -/
structure Line where
  number : Nat
  chars : List Char

def contentLines (text : List Char) : List Line :=
  ((lines text).zipIdx 1).filterMap fun (chars, number) =>
    let chars := trim chars
    if chars.isEmpty then none else some ⟨number, chars⟩

/-- Takes the next line of a text with `count` lines. -/
def takeLine (count : Nat) (item : String) : List Line → Except VariantError (Line × List Line)
  | [] => .error (.malformed count (.missing item))
  | l :: rest => .ok (l, rest)

def readNumber (line : Nat) (item : String) (read? : List Char → Option α) (cs : List Char) :
    Except VariantError α :=
  match read? (trim cs) with
  | some n => .ok n
  | none => .error (.malformed line (.badNumber item (String.ofList (trim cs))))

/-- Reads the limits of a board: right, top, left, bottom. -/
def readBounds (l : Line) : Except VariantError Bounds :=
  match fields ',' l.chars with
  | [right, top, left, bottom] => do
    let right ← readNumber l.number "x limit" readInt? right
    let top ← readNumber l.number "y limit" readInt? top
    let left ← readNumber l.number "lower x limit" readInt? left
    let bottom ← readNumber l.number "lower y limit" readInt? bottom
    let bounds : Bounds := ⟨left, right, bottom, top⟩
    if bounds.area = 0 then .error (.malformed l.number .noSquares)
    else if maxArea < bounds.area then .error (.boardTooLarge bounds.area)
    else .ok bounds
  | _ => .error (.malformed l.number .boardFields)

/-- Reads a symbol, a single character with blanks around it. -/
def readSymbol (line : Nat) (cs : List Char) : Except VariantError Char :=
  match trim cs with
  | [c] => .ok c
  | cs => .error (.malformed line (.badSymbol (String.ofList cs)))

/-- The value written `inf`. -/
def infiniteValue : Int := 65535

def readValue (line : Nat) (cs : List Char) : Except VariantError Int :=
  if trim cs = ['i', 'n', 'f'] then .ok infiniteValue
  else readNumber line "piece value" readInt? cs

/-- The marks before a name: `^` for a pawn-like piece, `#` for one that castles as the king and `!`
for one that castles as the rook. -/
def isBehaviorMark (c : Char) : Bool :=
  c == '^' || c == '#' || c == '!'

/-- The behavior of a kind together with that of the marks before its name. -/
def markedBehavior (marks : List Char) (kind : Kind) : Behavior where
  pawnLike := marks.contains '^' || kind.behavior.pawnLike
  castleRole :=
    if marks.contains '#' then some .king
    else if marks.contains '!' then some .rook
    else kind.behavior.castleRole

/-- Reads a piece type: its name, the two symbols, the value and the grammar, commas and all. -/
def readTemplate (l : Line) : Except VariantError Template :=
  match fieldsUpTo ',' 4 l.chars with
  | [marked, white, black, value, grammar] => do
    let name := (trim marked).dropWhile isBehaviorMark
    if name.isEmpty then .error (.malformed l.number .emptyName)
    else
      let kind := Kind.ofName (String.ofList name)
      let behavior := markedBehavior ((trim marked).takeWhile isBehaviorMark) kind
      let white ← readSymbol l.number white
      let black ← readSymbol l.number black
      let value ← readValue l.number value
      (Template.read (String.ofList name) kind white black value behavior
        (String.ofList (trim grammar))).mapError (.badMovement l.number)
  | _ => .error (.malformed l.number .pieceFields)

/-- Reads as many piece types as are announced. They take room as they come: a count that no memory has room for is
not refused before its lines are missing. -/
def readTemplates (lineCount : Nat) :
    Nat → SymbolTable → List Line → Except VariantError ((List Template × SymbolTable) × List Line)
  | 0, table, rest => .ok (([], table), rest)
  | n + 1, table, rest => do
    let (l, rest) ← takeLine lineCount "piece definition" rest
    let t ← readTemplate l
    let table ← (table.insert t).mapError fun c => .malformed l.number (.duplicateSymbol c)
    let ((ts, table), rest) ← readTemplates lineCount n table rest
    .ok ((t :: ts, table), rest)

/-- No count of piece types goes above this one. -/
def maxTemplates : Nat := 18446744073709551615

/-- Reads the description of a variant. Only the first word of the placement counts, and nothing after
its line does. -/
def read (source : String) : Except VariantError Variant := do
  let text := source.toList
  let lineCount := (lines text).length
  let (title, rest) ← takeLine lineCount "title" (contentLines text)
  let (board, rest) ← takeLine lineCount "board limits" rest
  let bounds ← readBounds board
  let (count, rest) ← takeLine lineCount "piece definition count" rest
  let count ← readNumber count.number "piece definition count" (readNat? maxTemplates) count.chars
  let ((templates, table), rest) ← readTemplates lineCount count [] rest
  let (placement, _) ← takeLine lineCount "placement" rest
  let position ←
    Setup.readPlacement ⟨bounds, table, placement.number⟩ (firstWord placement.chars)
  .ok { title := String.ofList title.chars, bounds, templates, position }

end Variant

end FairyChess
