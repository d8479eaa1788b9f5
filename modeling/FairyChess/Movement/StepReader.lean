import FairyChess.Movement.Basic
import FairyChess.Movement.Error
import FairyChess.Text.Numeral

/-!
Reading one step. Its distance is the leftmost text that has the form of one; every other character
is a mark on its own.
-/
namespace FairyChess.Movement
open Text

/-- Lengths are written with digits, or with `n` for any. -/
def isLength (c : Char) : Bool :=
  c.isDigit || c == 'n'

/-- A run of length characters and what follows it. -/
def run? (cs : List Char) : Option (List Char × List Char) :=
  match cs.takeWhile isLength with
  | [] => none
  | run => some (run, cs.dropWhile isLength)

/-- The longest text at the front in the form of a span, a run or two runs around a hyphen. -/
def spanText? (cs : List Char) : Option (List Char × List Char) := do
  let (lo, rest) ← run? cs
  match rest with
  | '-' :: after =>
    match run? after with
    | some (hi, rest) => some (lo ++ '-' :: hi, rest)
    | none => some (lo, rest)
  | _ => some (lo, rest)

/-- Two span texts around a slash at the front. -/
def pairText? (cs : List Char) : Option ((List Char × List Char) × List Char) := do
  let (first, rest) ← spanText? cs
  match rest with
  | '/' :: after => do
    let (second, rest) ← spanText? after
    some ((first, second), rest)
  | _ => none

/-- Takes out the leftmost text that `read?` accepts and joins what stands around it. -/
def extract? (read? : List Char → Option (α × List Char)) : List Char → Option (α × List Char)
  | [] => none
  | c :: cs =>
    match read? (c :: cs) with
    | some found => some found
    | none => (extract? read? cs).map fun (a, rest) => (a, c :: rest)

/-- Lengths above this one are malformed. -/
def maxLength : Nat := 4294967295

/-- An end of a span, `none` when it is open. -/
def readLength (span cs : List Char) : Except MovementError (Option Nat) :=
  if cs = ['n'] then .ok none
  else match (readDigits? cs).filter (· ≤ maxLength) with
    | some n => .ok (some n)
    | none => .error (.malformedDistance (String.ofList span))

/-- An open lower end is one, and the ends must not cross. -/
def readSpan (span : List Char) : Except MovementError Span :=
  match span.dropWhile (· != '-') with
  | [] => do
    match ← readLength span span with
    | some n => .ok (.exact n)
    | none => .ok .any
  | _ :: upper => do
    let lo := (← readLength span (span.takeWhile (· != '-'))).getD 1
    let hi ← readLength span upper
    if hi.any (· < lo) then .error (.malformedDistance (String.ofList span))
    else .ok (.range lo hi)

/-- The distance of a step and the marks that are left. -/
def readDistance (text : List Char) : Except MovementError (Distance × List Char) :=
  match extract? pairText? text with
  | some ((first, second), marks) => do
    .ok (.paired (← readSpan first) (← readSpan second) (text.contains 's'), marks)
  | none =>
    match extract? spanText? text with
    | some (span, marks) => do .ok (.single (← readSpan span), marks)
    | none => .ok (.unbounded, text)

/-- Marks that can only belong to a second distance. -/
def isDistanceMark (c : Char) : Bool :=
  isLength c || c == '-' || c == '/'

def shapeMark? : Char → Option Shape
  | '*' => some .omni
  | '+' => some .orthogonal
  | 'x' => some .diagonal
  | _ => none

/-- A step without a shape follows any line, or no line at all when its distance is a pair. -/
def readShape (clause marks : List Char) (distance : Distance) : Except MovementError Shape :=
  match marks.filterMap shapeMark? with
  | [] => .ok (match distance with
    | .paired .. => .free
    | _ => .omni)
  | shape :: shapes =>
    if shapes.all (· == shape) then .ok shape
    else .error (.conflictingShape (String.ofList clause))

/-- A mark for a side of the piece lets a heading go sideways too. -/
def readHeading (marks : List Char) : Heading :=
  let sideways := marks.contains '=' || marks.contains 'r' || marks.contains 'l'
  match marks.contains '>', marks.contains '<' with
  | true, false => .forward sideways
  | false, true => .backward sideways
  | true, true => .vertical
  | false, false => if marks.contains '=' then .sideways else .any

def readLateral (marks : List Char) : Lateral :=
  match marks.contains 'r', marks.contains 'l' with
  | true, false => .right
  | false, true => .left
  | true, true => .either
  | false, false => .any

/-- Reads a step of a clause. Marks that say nothing about a step are passed over. -/
def readStep (clause text : List Char) : Except MovementError Step := do
  let (distance, marks) ← readDistance text
  if marks.any isDistanceMark then .error (.malformedDistance (String.ofList text))
  else
    let shape ← readShape clause marks distance
    .ok {
      shape
      heading := readHeading marks
      lateral := readLateral marks
      distance
      firstMove := marks.contains 'i'
      dummy := marks.contains 'd'
      gait := ⟨marks.contains '~', marks.contains '^'⟩ }

end FairyChess.Movement
