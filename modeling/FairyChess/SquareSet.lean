import FairyChess.Bounds

/-! Sets of squares of a board, kept as the binary digits of a word. -/
namespace FairyChess

/-- A word with a binary digit for each square of the largest board. -/
abbrev Word := BitVec maxArea

namespace Word

/-- Makes digit `i` a one. -/
def mark (w : Word) (i : Nat) : Word :=
  w ||| BitVec.twoPow maxArea i

/-- Makes digit `i` a zero. -/
def unmark (w : Word) (i : Nat) : Word :=
  w &&& ~~~BitVec.twoPow maxArea i

/-- The number of zeros below the lowest one, which is also the number of that one. -/
def trailingZeros (w : Word) : Nat :=
  ((List.range maxArea).find? (w.getLsbD ·)).getD maxArea

theorem getLsbD_trailingZeros {w : Word} (h : w ≠ 0) : w.getLsbD w.trailingZeros = true := by
  unfold trailingZeros
  cases hfind : (List.range maxArea).find? (w.getLsbD ·) with
  | some i => exact List.find?_some hfind
  | none =>
    have hzero : w = 0 := by
      refine BitVec.eq_of_getLsbD_eq fun i hi => ?_
      have hi := List.find?_eq_none.mp hfind i (List.mem_range.mpr hi)
      rw [Bool.eq_false_iff.mpr hi, BitVec.ofNat_eq_ofNat, BitVec.getLsbD_zero]
    exact absurd hzero h

theorem getLsbD_unmark (w : Word) (i j : Nat) :
    (w.unmark i).getLsbD j = (w.getLsbD j && decide (j ≠ i)) := by
  rw [unmark, BitVec.getLsbD_and, BitVec.getLsbD_not, BitVec.getLsbD_twoPow]
  cases hj : w.getLsbD j with
  | false => rfl
  | true =>
    have hlt := BitVec.lt_of_getLsbD hj
    by_cases hij : i = j
    · subst hij
      simp [hlt]
    · simp [hlt, hij, Ne.symm hij]

theorem toNat_unmark_lt {w : Word} {i : Nat} (h : w.getLsbD i = true) :
    (w.unmark i).toNat < w.toNat := by
  refine Nat.lt_of_le_of_ne ?_ fun heq => ?_
  · rw [unmark, BitVec.toNat_and]
    exact Nat.and_le_left
  · have hsame := getLsbD_unmark w i i
    rw [BitVec.eq_of_toNat_eq heq, h] at hsame
    simp at hsame

/-- The numbers of the ones, found from the lowest by taking out one after another. -/
def ones (w : Word) : List Nat :=
  if _ : w = 0 then [] else w.trailingZeros :: ones (w.unmark w.trailingZeros)
termination_by w.toNat
decreasing_by exact toNat_unmark_lt (getLsbD_trailingZeros ‹w ≠ 0›)

end Word

/-- The square with index `i` is a member when digit `i` of the word is a one. -/
structure SquareSet where
  bounds : Bounds
  bits : Word := 0
  deriving DecidableEq, Repr

namespace SquareSet

def insert (b : SquareSet) (s : Square) : SquareSet :=
  match b.bounds.index? s with
  | some i => { b with bits := b.bits.mark i }
  | none => b

def erase (b : SquareSet) (s : Square) : SquareSet :=
  match b.bounds.index? s with
  | some i => { b with bits := b.bits.unmark i }
  | none => b

def contains (b : SquareSet) (s : Square) : Bool :=
  (b.bounds.index? s).any (b.bits.getLsbD ·)

def union (a b : SquareSet) : SquareSet :=
  { a with bits := a.bits ||| b.bits }

def inter (a b : SquareSet) : SquareSet :=
  { a with bits := a.bits &&& b.bits }

def squares (b : SquareSet) : List Square :=
  b.bits.ones.map fun i : Nat => b.bounds.square i

def size (b : SquareSet) : Nat :=
  b.bits.cpop.toNat

def isEmpty (b : SquareSet) : Bool :=
  b.bits == 0

/-- The member with the lowest index. -/
def first? (b : SquareSet) : Option Square :=
  if b.isEmpty then none else some (b.bounds.square b.bits.trailingZeros)

def ofList (bounds : Bounds) (squares : List Square) : SquareSet :=
  squares.foldl insert ⟨bounds, 0⟩

end SquareSet

end FairyChess
