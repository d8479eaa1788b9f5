/-!
Movement grammars. A grammar lists clauses, and a move that matches any of them is allowed. The
pattern of a clause is a tree of single steps, rides (a pattern repeated along a line) and sequences
(two patterns that meet on a square in between).
-/
namespace FairyChess

/-- A set of lengths. A range includes its ends and may have no upper one. -/
inductive Span
  | exact (length : Nat)
  | any
  | range (lo : Nat) (hi : Option Nat)
  deriving DecidableEq, Repr

def Span.admits : Span → Nat → Bool
  | .exact n, length => n == length
  | .any, _ => true
  | .range lo hi, length => decide (lo ≤ length) && hi.all fun n => decide (length ≤ n)

/--
How far a step goes. A single span measures the longer axis. A pair measures the two axes, files
first when it is strict and in either order when it is not.
-/
inductive Distance
  | unbounded
  | single (span : Span)
  | paired (first second : Span) (strict : Bool)
  deriving DecidableEq, Repr

/-- The lines that a step may follow. `free` allows displacements off every line. -/
inductive Shape
  | omni
  | orthogonal
  | diagonal
  | free
  deriving DecidableEq, Repr

/-- The way a step goes along the ranks, as its piece faces. -/
inductive Heading
  | any
  | forward (sideways : Bool)
  | backward (sideways : Bool)
  | vertical
  | sideways
  deriving DecidableEq, Repr

/-- The way a step goes along the files, as its piece faces. -/
inductive Lateral
  | any
  | right
  | left
  | either
  deriving DecidableEq, Repr

/-- How a move treats what it passes: a leaper jumps it, a locust captures it. -/
structure Gait where
  leaper : Bool := false
  locust : Bool := false
  deriving DecidableEq, Repr

/-- The gait that has each property of either. -/
def Gait.join (a b : Gait) : Gait :=
  ⟨a.leaper || b.leaper, a.locust || b.locust⟩

structure Step where
  shape : Shape := .omni
  heading : Heading := .any
  lateral : Lateral := .any
  distance : Distance := .unbounded
  firstMove : Bool := false
  dummy : Bool := false
  gait : Gait := {}
  deriving DecidableEq, Repr

inductive Count
  | fixed (times : Nat)
  | wildcard
  deriving DecidableEq, Repr

/-- Rides repeat no more often than this. -/
def Count.limit : Nat := 2147483647

inductive Pattern
  | step (step : Step)
  | ride (count : Count) (gait : Gait) (pattern : Pattern)
  | andThen (first second : Pattern)
  deriving DecidableEq, Repr

namespace Pattern

/-- Whether some part of the pattern captures what it passes. -/
def hasLocust : Pattern → Bool
  | step s => s.gait.locust
  | ride _ gait pattern => gait.locust || pattern.hasLocust
  | andThen first second => first.hasLocust || second.hasLocust

def isCompound : Pattern → Bool
  | step _ => false
  | _ => true

end Pattern

/-- One alternative of a grammar. The marks hold for the move as a whole. -/
structure Clause where
  source : String
  pattern : Pattern
  captureOnly : Bool := false
  quietOnly : Bool := false
  firstMove : Bool := false
  dummy : Bool := false
  king : Bool := false
  leaper : Bool := false
  deriving DecidableEq, Repr

/-- The alternatives in the order they are tried, with the text they were read from. -/
structure Grammar where
  source : String := ""
  clauses : List Clause := []
  deriving DecidableEq, Repr

namespace Grammar

/-- The piece is one whose capture loses the game. -/
def isKing (g : Grammar) : Bool :=
  g.clauses.any (·.king)

/-- The piece neither moves nor is captured. -/
def isDummy (g : Grammar) : Bool :=
  g.clauses.any (·.dummy)

def hasLocust (g : Grammar) : Bool :=
  g.clauses.any (·.pattern.hasLocust)

end Grammar

end FairyChess
