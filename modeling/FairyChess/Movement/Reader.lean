import FairyChess.Movement.StepReader
import FairyChess.Text.Blank
import FairyChess.Text.Lowercase

/-!
Reading movement grammars. A clause is read in one pass from the left that keeps the groups still
open on a stack. A closing parenthesis with no group open is dropped as part of a step, and groups
left open are closed at the end.
-/
namespace FairyChess.Movement
open Text

/-- The count at the end of what stands before a group, and the marks before it. -/
def readCount (clause lead : List Char) : Except MovementError (Count × List Char) :=
  match lead.reverse with
  | 'n' :: marks => .ok (.wildcard, marks.reverse)
  | back =>
    match (back.takeWhile Char.isDigit).reverse with
    | [] => .ok (.fixed 1, lead)
    | digits =>
      let n := digitsValue digits
      if 0 < n ∧ n ≤ Count.limit then .ok (.fixed n, (back.dropWhile Char.isDigit).reverse)
      else .error (.malformedDistance (String.ofList clause))

/-- The marks that may stand beside a group. -/
def rideMarks : List Char :=
  ['c', 'o', 'i', 'd', 'k', '~', '^']

/-- A ride of a group, with the text before and after it. -/
def readRide (clause lead : List Char) (pattern : Pattern) (trail : List Char) :
    Except MovementError Pattern := do
  let (count, before) ← readCount clause lead
  let marks := before ++ trail
  match marks.find? (!rideMarks.contains ·) with
  | some c => .error (.unexpectedToken c (String.ofList clause))
  | none => .ok (.ride count ⟨marks.contains '~', marks.contains '^'⟩ pattern)

/-- The part of a sequence that is being read. -/
inductive Part
  /-- The text of a step, or what stands before a group. -/
  | text (chars : List Char)
  /-- A closed group with the text before it and, so far, after it. -/
  | group (lead : List Char) (pattern : Pattern) (trail : List Char)

/-- The pattern of a part that has come to its end. -/
def Part.close (clause : List Char) : Part → Except MovementError Pattern
  | .text [] => .error (.emptyPattern (String.ofList clause))
  | .text chars => (readStep clause chars).map .step
  | .group lead pattern trail => readRide clause lead pattern trail

/-- The parts of a sequence that are read already, the latest first, and the one being read. -/
structure Level where
  done : List Pattern := []
  part : Part := .text []

/-- The pattern of a sequence that has come to its end, grouped to the right. -/
def Level.close (clause : List Char) (level : Level) : Except MovementError Pattern := do
  .ok (level.done.foldl (fun rest p => .andThen p rest) (← level.part.close clause))

/-- What stands before an open group: earlier parts of its sequence and the text of the part itself. -/
structure Opening where
  done : List Pattern
  lead : List Char

/-- The innermost level and the groups that are open around it, the innermost first. -/
structure Reader where
  level : Level := {}
  outer : List Opening := []

/-- The level around a group, once the group has closed. -/
def Opening.resume (opening : Opening) (pattern : Pattern) : Level :=
  ⟨opening.done, .group opening.lead pattern []⟩

/-- Reads one character of a clause. -/
def Reader.next (clause : List Char) (r : Reader) (c : Char) : Except MovementError Reader :=
  match c with
  | '.' => do
    .ok { r with level := ⟨(← r.level.part.close clause) :: r.level.done, .text []⟩ }
  | '(' =>
    match r.level.part with
    | .text lead => .ok ⟨{}, ⟨r.level.done, lead⟩ :: r.outer⟩
    | .group .. => .error (.unexpectedToken c (String.ofList clause))
  | ')' =>
    match r.outer, r.level.part with
    | opening :: outer, _ => do .ok ⟨opening.resume (← r.level.close clause), outer⟩
    | [], .text _ => .ok r
    | [], part => do
      let _ ← part.close clause
      .error (.unexpectedToken c (String.ofList clause))
  | _ =>
    let part := match r.level.part with
      | .text chars => .text (chars ++ [c])
      | .group lead pattern trail => .group lead pattern (trail ++ [c])
    .ok { r with level := ⟨r.level.done, part⟩ }

/-- Closes a level and every group around it. -/
def Level.finish (clause : List Char) : Level → List Opening → Except MovementError Pattern
  | level, [] => level.close clause
  | level, opening :: outer => do
    Level.finish clause (opening.resume (← level.close clause)) outer

/-- Reads the pattern of a clause. -/
def readPattern (clause : List Char) : Except MovementError Pattern := do
  let r ← clause.foldlM (Reader.next clause) {}
  r.level.finish clause r.outer

/-- The characters outside every group. -/
def outside : Nat → List Char → List Char
  | _, [] => []
  | depth, c :: cs =>
    if c = '(' then outside (depth + 1) cs
    else if c = ')' then outside (depth - 1) cs
    else if depth = 0 then c :: outside depth cs
    else outside depth cs

/-- Reads a clause. All of its marks but the leaper's hold for it wherever they stand. -/
def readClause (clause : List Char) : Except MovementError Clause := do
  let pattern ← readPattern clause
  .ok {
    source := String.ofList clause
    pattern
    captureOnly := clause.contains 'c'
    quietOnly := clause.contains 'o'
    firstMove := clause.contains 'i'
    dummy := clause.contains 'd'
    king := clause.contains 'k'
    leaper := (outside 0 clause).contains '~' }

/-- The characters of movement grammars that are not digits. -/
def tokens : List Char :=
  ['n', '-', '/', '*', '+', 'x', '<', '>', '=', 'r', 'l', 'i', 'c', 'o', 's', 'd', 'k', '~', '^',
   '(', ')', '.', ',']

def isToken (c : Char) : Bool :=
  c.isDigit || tokens.contains c

/-- Case and white space carry no meaning. -/
def normalize (source : String) : List Char :=
  (source.toList.filter (!isBlank ·)).flatMap lowercase

end FairyChess.Movement

namespace FairyChess
open Movement Text

/-- Reads a grammar. Empty clauses are passed over. -/
def Grammar.read (source : String) : Except MovementError Grammar :=
  let text := normalize source
  let clauses := fields ',' text
  if text.contains '&' then .error .repeatOperator
  else match text.find? (!isToken ·) with
    | some token =>
      .error (.unexpectedToken token (String.ofList ((clauses.find? (·.contains token)).getD text)))
    | none => do
      .ok ⟨source, ← (clauses.filter (!·.isEmpty)).mapM readClause⟩

end FairyChess
