import FairyChess.Square

/-! Rectangular boards anywhere in the plane. -/
namespace FairyChess

/-- No board has more squares than this. -/
def maxArea : Nat := 4096

/-- The limits of a board. `left` and `bottom` are on it, `right` and `top` are past its end. -/
structure Bounds where
  left : Int
  right : Int
  bottom : Int
  top : Int
  deriving DecidableEq, Repr

namespace Bounds

def standard : Bounds := ⟨0, 8, 0, 8⟩

instance : Inhabited Bounds := ⟨standard⟩

instance : Membership Square Bounds where
  mem b s := (b.left ≤ s.file ∧ s.file < b.right) ∧ b.bottom ≤ s.rank ∧ s.rank < b.top

instance (s : Square) (b : Bounds) : Decidable (s ∈ b) :=
  inferInstanceAs (Decidable ((b.left ≤ s.file ∧ s.file < b.right) ∧ b.bottom ≤ s.rank ∧ s.rank < b.top))

/-- No count of files or ranks goes above this one. -/
def maxSpan : Nat := 2147483647

def files (b : Bounds) : Nat :=
  min (b.right - b.left).toNat maxSpan

def ranks (b : Bounds) : Nat :=
  min (b.top - b.bottom).toNat maxSpan

def area (b : Bounds) : Nat :=
  b.files * b.ranks

/-- Squares are numbered from the left of the bottom rank, rank by rank. -/
def index? (b : Bounds) (s : Square) : Option Nat :=
  if s ∈ b then some ((s.rank - b.bottom).toNat * b.files + (s.file - b.left).toNat) else none

/-- The square with a number, counted on beyond the last rank where the number is too large. -/
def square (b : Bounds) (index : Int) : Square :=
  ⟨b.left + index.tmod b.files, b.bottom + index.tdiv b.files⟩

/-- The integers from `lo` up to but not including `hi`. -/
def interval (lo hi : Int) : List Int :=
  (List.range (hi - lo).toNat).map fun i : Nat => lo + i

/-- Every square of the board, file by file from the left, each file upward. -/
def squares (b : Bounds) : List Square :=
  (interval b.left b.right).flatMap fun x => (interval b.bottom b.top).map fun y => ⟨x, y⟩

end Bounds

end FairyChess
