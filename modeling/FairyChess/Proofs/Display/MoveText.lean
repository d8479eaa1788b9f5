import FairyChess.Display.MoveText
import FairyChess.Proofs.Display.SquareName

/-!
Moves in writing. A text tells the squares of its move, what the mover becomes, whether the move is special
and how many pieces it captures, and it tells nothing else.
-/
namespace FairyChess
open Text

/-- What a text tells of a special move. A castling move is toward the higher files or toward the lower. -/
inductive Manner
  | normal
  | enPassant
  | castleHigher
  | castleLower
  deriving DecidableEq

def Move.manner (m : Move) : Manner :=
  match m.special with
  | .normal => .normal
  | .enPassant => .enPassant
  | .castle _ rookFrom _ => if m.origin.file < rookFrom.file then .castleHigher else .castleLower

section Parts

def Manner.chars : Manner → List Char
  | normal => []
  | enPassant => [' ', 'e', '.', 'p', '.']
  | castleHigher => [' ', '(', 'O', '-', 'O', ')']
  | castleLower => [' ', '(', 'O', '-', 'O', '-', 'O', ')']

theorem toList_specialText (m : Move) : m.specialText.toList = m.manner.chars := by
  unfold Move.specialText Move.manner
  cases m.special with
  | normal => rfl
  | enPassant =>
    dsimp only
    rfl
  | castle rook rookFrom rookTo =>
    dsimp only
    split <;> rfl

/-- The characters for a number of captured pieces. -/
def countChars (n : ℕ) : List Char :=
  if 1 < n then ' ' :: '[' :: (Nat.toDigits 10 n ++ " captured]".toList) else []

theorem toList_countText (m : Move) : m.countText.toList = countChars m.captured.length := by
  unfold Move.countText countChars
  split
  · simp [toList_natText]
  · rfl

theorem countChars_cases (n : ℕ) : countChars n = [] ∨ ∃ more, countChars n = ' ' :: '[' :: more := by
  unfold countChars
  split
  · exact .inr ⟨_, rfl⟩
  · exact .inl rfl

/-- The number is not told where there is at most one. -/
theorem countChars_inj {m n : ℕ} (h : countChars m = countChars n) : m = n ∨ m ≤ 1 ∧ n ≤ 1 := by
  unfold countChars at h
  split at h <;> split at h
  · have htail := (List.cons.inj (List.cons.inj h).2).2
    exact .inl (toDigits_inj (List.append_cancel_right htail))
  · cases h
  · cases h
  · next hm hn => exact .inr ⟨Nat.le_of_not_lt hm, Nat.le_of_not_lt hn⟩

/-- The manner that the text after the squares and the promotion begins with. -/
def Manner.read : List Char → Manner
  | ' ' :: 'e' :: _ => enPassant
  | ' ' :: '(' :: 'O' :: '-' :: 'O' :: ')' :: _ => castleHigher
  | ' ' :: '(' :: _ => castleLower
  | _ => normal

/-- What follows a manner is told from it by the bracket. -/
theorem Manner.read_chars_append (a : Manner) (n : ℕ) : read (a.chars ++ countChars n) = a := by
  obtain hn | ⟨more, hn⟩ := countChars_cases n <;> rw [hn] <;> cases a <;> rfl

theorem Manner.chars_append_inj {a a' : Manner} {m n : ℕ}
    (h : a.chars ++ countChars m = a'.chars ++ countChars n) : a = a' ∧ countChars m = countChars n := by
  have hmanner : a = a' := by rw [← read_chars_append a m, h, read_chars_append]
  subst hmanner
  exact ⟨rfl, List.append_cancel_left h⟩

theorem Manner.chars_append_cases (a : Manner) (n : ℕ) :
    a.chars ++ countChars n = [] ∨ ∃ more, a.chars ++ countChars n = ' ' :: more := by
  cases a with
  | normal =>
    obtain hn | ⟨more, hn⟩ := countChars_cases n
    · exact .inl hn
    · exact .inr ⟨_, hn⟩
  | enPassant => exact .inr ⟨_, rfl⟩
  | castleHigher => exact .inr ⟨_, rfl⟩
  | castleLower => exact .inr ⟨_, rfl⟩

def captureChar (n : ℕ) : Char :=
  if 0 < n then 'x' else '-'

theorem toList_captureText (m : Move) :
    (if m.isCapture then "x" else "-").toList = [captureChar m.captured.length] := by
  unfold Move.isCapture captureChar
  cases m.captured with
  | nil => rfl
  | cons id ids => simp

theorem captureChar_inj {m n : ℕ} (h : captureChar m = captureChar n) : 0 < m ↔ 0 < n := by
  unfold captureChar at h
  split at h <;> split at h
  · next hm hn => exact iff_of_true hm hn
  · exact absurd h (by decide)
  · exact absurd h (by decide)
  · next hm hn => exact iff_of_false hm hn

def promotionChars : Option Kind → List Char
  | some kind => ['=', kind.letter]
  | none => []

theorem toList_promotionText (r : Record) : r.promotionText.toList = promotionChars r.promotion := by
  unfold Record.promotionText promotionChars
  cases r.promotion with
  | none => rfl
  | some kind => simp

theorem Kind.letter_injective : Function.Injective Kind.letter := by
  intro a b h
  cases a <;> cases b <;> first | rfl | exact absurd h (by decide)

end Parts

/-- All that follows the squares. -/
def tailChars (promotion : Option Kind) (manner : Manner) (n : ℕ) : List Char :=
  promotionChars promotion ++ (manner.chars ++ countChars n)

theorem tailChars_inj {k k' : Option Kind} {a a' : Manner} {m n : ℕ}
    (h : tailChars k a m = tailChars k' a' n) : k = k' ∧ a = a' ∧ countChars m = countChars n := by
  have hequals (a : Manner) (n : ℕ) (rest : List Char) : a.chars ++ countChars n ≠ '=' :: rest := by
    intro h
    obtain hn | ⟨more, hn⟩ := a.chars_append_cases n
    · exact List.cons_ne_nil _ _ (h.symm.trans hn)
    · exact absurd (List.cons.inj (h.symm.trans hn)).1 (by decide)
  unfold tailChars promotionChars at h
  cases k with
  | none =>
    cases k' with
    | none => exact ⟨rfl, Manner.chars_append_inj h⟩
    | some kind => exact absurd h (hequals _ _ _)
  | some kind =>
    cases k' with
    | none => exact absurd h.symm (hequals _ _ _)
    | some kind' =>
      obtain ⟨hletter, htail⟩ := List.cons.inj (List.cons.inj h).2
      exact ⟨congrArg some (Kind.letter_injective hletter), Manner.chars_append_inj htail⟩

theorem takeWhile_tailChars (k : Option Kind) (a : Manner) (n : ℕ) :
    (tailChars k a n).takeWhile Char.isDigit = [] := by
  cases k with
  | none =>
    rw [tailChars, promotionChars, List.nil_append]
    obtain hn | ⟨more, hn⟩ := a.chars_append_cases n <;> rw [hn] <;> rfl
  | some kind => rfl

theorem Record.toList_text (r : Record) (b : Bounds) :
    (r.text b).toList = (r.move.origin.name b).toList ++ captureChar r.move.captured.length ::
      ((r.move.target.name b).toList ++
        tailChars r.promotion r.move.manner r.move.captured.length) := by
  simp only [Record.text, String.toList_append, toList_captureText, toList_promotionText,
    toList_specialText, toList_countText, tailChars, List.append_assoc, List.cons_append,
    List.nil_append]

/--
Two moves between squares of a board have the same text if and only if they agree on their squares, on what
the mover becomes, on whether and how they are special and on how many pieces they capture.
-/
theorem Record.text_eq_iff {b : Bounds} (harea : b.area ≤ maxArea) {r r' : Record}
    (horigin : r.move.origin ∈ b) (htarget : r.move.target ∈ b)
    (horigin' : r'.move.origin ∈ b) (htarget' : r'.move.target ∈ b) :
    r.text b = r'.text b ↔
      r.move.origin = r'.move.origin ∧ r.move.target = r'.move.target ∧ r.promotion = r'.promotion ∧
        r.move.manner = r'.move.manner ∧ r.move.captured.length = r'.move.captured.length := by
  rw [← String.toList_inj, toList_text, toList_text]
  constructor
  · intro h
    have hstop (n : ℕ) (rest : List Char) :
        (captureChar n :: rest).takeWhile Char.isDigit = [] := by
      unfold captureChar
      split <;> rfl
    obtain ⟨hfrom, h⟩ := Square.name_append_inj harea horigin horigin' (hstop _ _) (hstop _ _) h
    obtain ⟨hcapture, h⟩ := List.cons.inj h
    obtain ⟨hto, h⟩ := Square.name_append_inj harea htarget htarget' (takeWhile_tailChars _ _ _)
      (takeWhile_tailChars _ _ _) h
    obtain ⟨hpromotion, hmanner, hcount⟩ := tailChars_inj h
    refine ⟨hfrom, hto, hpromotion, hmanner, ?_⟩
    have hsome := captureChar_inj hcapture
    rcases countChars_inj hcount with hequal | ⟨hle, hle'⟩
    · exact hequal
    · omega
  · rintro ⟨hfrom, hto, hpromotion, hmanner, hcount⟩
    rw [hfrom, hto, hpromotion, hmanner, hcount]

/-- Two men that become a queen where they take two pieces, on a board with files of three digits. -/
theorem Record.text_eq_iff_queens :
    let b : Bounds := ⟨-2, 118, 7, 41⟩
    let move (mover : PieceId) (captured : List PieceId) : Move :=
      { mover, origin := ⟨103, 39⟩, target := ⟨104, 40⟩, captured }
    let r : Record := ⟨move ⟨.white, 0⟩ [⟨.black, 3⟩, ⟨.black, 1⟩], some .queen, [], none⟩
    let r' : Record := ⟨move ⟨.white, 5⟩ [⟨.black, 0⟩, ⟨.black, 2⟩], some .queen, [], some ⟨.black, 1⟩⟩
    b.area ≤ maxArea ∧ r.move.origin ∈ b ∧ r.move.target ∈ b ∧ r'.move.origin ∈ b ∧ r'.move.target ∈ b ∧
      r ≠ r' ∧ r.text b = r'.text b ∧ r.move.manner = r'.move.manner ∧
      r.move.captured.length = r'.move.captured.length := by
  intro b move r r'
  have harea : b.area ≤ maxArea := by decide
  have horigin : r.move.origin ∈ b := by decide
  have htarget : r.move.target ∈ b := by decide
  have horigin' : r'.move.origin ∈ b := by decide
  have htarget' : r'.move.target ∈ b := by decide
  have htext : r.text b = r'.text b := rfl
  obtain ⟨-, -, -, hmanner, hcount⟩ := (text_eq_iff harea horigin htarget horigin' htarget').mp htext
  exact ⟨harea, horigin, htarget, horigin', htarget', by decide, htext, hmanner, hcount⟩

end FairyChess
