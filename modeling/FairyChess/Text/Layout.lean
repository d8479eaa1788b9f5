/-! Text set in lines and columns. Widths count characters. -/
namespace FairyChess.Text

def times (n : Nat) (s : String) : String :=
  String.join (List.replicate n s)

/-- A text of several lines, each ended by a line feed. -/
def unlines (lines : List String) : String :=
  String.join (lines.map (· ++ "\n"))

def padRight (width : Nat) (s : String) : String :=
  s ++ times (width - s.length) " "

/-- Pads on both sides to a width; of an odd number of spaces the right side has one more. -/
def centre (width : Nat) (s : String) : String :=
  let spare := width - s.length
  times (spare / 2) " " ++ s ++ times (spare - spare / 2) " "

end FairyChess.Text
