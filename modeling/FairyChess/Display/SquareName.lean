import FairyChess.Bounds
import FairyChess.Text.Blank
import FairyChess.Text.Numeral

/-!
Names of squares. On boards of up to 26 files a square is named by the letter of its file and the
number of its rank from one. On wider boards both are numbers of two digits from zero.
-/
namespace FairyChess

namespace Bounds

def hasLetters (b : Bounds) : Bool :=
  decide (b.files ≤ 26)

end Bounds

namespace Square
open Text

/-- The letter of a file. Files off the board continue through the first 256 characters. -/
def fileLetter (file : Int) : Char :=
  Char.ofNat ((97 + file) % 256).toNat

def name (b : Bounds) (s : Square) : String :=
  let file := s.file - b.left
  let rank := s.rank - b.bottom
  if b.hasLetters then (fileLetter file).toString ++ intText (rank + 1)
  else twoPlaces file ++ twoPlaces rank

/-- The file and rank that a name gives, counted from the corner of the board. -/
def offsetsOfName? (b : Bounds) (text : List Char) : Option (Int × Int) :=
  if b.hasLetters then
    match text with
    | [] => none
    | c :: digits =>
      let letter := c.toLower
      if letter.isLower then do
        let rank ← readInt? digits
        some ((letter.toNat : Int) - 97, rank - 1)
      else none
  else
    match text with
    | [a, b, c, d] => do
      let file ← readInt? [a, b]
      let rank ← readInt? [c, d]
      some (file, rank)
    | _ => none

/-- The square of the board with a name in either case and with blanks around it. -/
def ofName? (b : Bounds) (text : String) : Option Square := do
  let (file, rank) ← offsetsOfName? b (trim text.toList)
  let s : Square := ⟨b.left + file, b.bottom + rank⟩
  if s ∈ b then some s else none

end Square

end FairyChess
