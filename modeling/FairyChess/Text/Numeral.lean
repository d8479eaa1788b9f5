/-! Decimal numerals: reading them within limits and writing them at a least width. -/
namespace FairyChess.Text

def digitValue (c : Char) : Nat :=
  c.toNat - '0'.toNat

/-- The value of a run of digits, the most significant first. -/
def digitsValue (cs : List Char) : Nat :=
  cs.foldl (fun n c => 10 * n + digitValue c) 0

/-- Reads one or more ASCII digits and nothing else. -/
def readDigits? (cs : List Char) : Option Nat :=
  if cs.isEmpty || !cs.all Char.isDigit then none else some (digitsValue cs)

/-- Reads digits after an optional plus sign; a value above `limit` is refused. -/
def readNat? (limit : Nat) (cs : List Char) : Option Nat :=
  let digits := match cs with
    | '+' :: rest => rest
    | _ => cs
  (readDigits? digits).filter (· ≤ limit)

/-- Reads digits after an optional sign; a value that needs more than 32 bits is refused. -/
def readInt? (cs : List Char) : Option Int :=
  match cs with
  | '-' :: rest => ((readDigits? rest).filter (· ≤ 2147483648)).map fun n => -(n : Int)
  | _ => (readNat? 2147483647 cs).map Int.ofNat

def natText (n : Nat) : String :=
  String.ofList (Nat.toDigits 10 n)

/-- A minus sign before the digits of a negative number. -/
def intText : Int → String
  | .ofNat n => natText n
  | .negSucc n => "-" ++ natText (n + 1)

/-- At least two characters wide: a single digit is written after a zero. -/
def twoPlaces (n : Int) : String :=
  if 0 ≤ n ∧ n < 10 then "0" ++ intText n else intText n

/-- Lower-case hexadecimal digits, the most significant first. -/
def hexText (n : Nat) : String :=
  String.ofList (Nat.toDigits 16 n)

end FairyChess.Text
