/-!
Numbers of 32 bits. The rules are stated over all integers; here they are computed with numbers that fit
in 32 bits. Where a result does not fit, one build of the program stops, and another goes on with the low
bits of it.
-/
namespace FairyChess

/-- The computations of a build, and what it does where a result does not fit, before it goes on. -/
class Build (m : Type → Type) extends Monad m where
  overflow : m Unit

/-- The build that checks nothing. -/
instance : Build Id where
  overflow := pure ()

/-- The build that stops at the first result that does not fit. -/
instance : Build Option where
  overflow := none

namespace Fixed

/-- The signed numbers of 32 bits. -/
def InRange (n : Int) : Prop :=
  -2147483648 ≤ n ∧ n < 2147483648

instance (n : Int) : Decidable (InRange n) :=
  inferInstanceAs (Decidable (_ ∧ _))

/-- The number in range with the same 32 low bits. -/
def wrap (n : Int) : Int :=
  n.bmod 4294967296

variable {m : Type → Type} [Build m]

def check (n : Int) : m Unit :=
  if InRange n then pure () else Build.overflow

/-- A signed result. -/
def word (n : Int) : m Int := do
  check n
  return wrap n

/-- A result that is counted without a sign. -/
def count (n : Nat) : m Nat := do
  if n < 4294967296 then pure () else Build.overflow
  return n % 4294967296

end Fixed

end FairyChess
