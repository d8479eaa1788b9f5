import FairyChess.Text.Numeral
import Mathlib.Tactic

/-! Numbers in writing are read back. -/
namespace FairyChess.Text

variable {n : ℕ}

theorem isDigit_of_mem_toDigits {c : Char} (h : c ∈ Nat.toDigits 10 n) : c.isDigit = true :=
  Nat.isDigit_of_mem_toDigits (by decide) (by decide) h

theorem digitsValue_toDigits (n : ℕ) : digitsValue (Nat.toDigits 10 n) = n := by
  have h := Nat.ofDigitChars_ten_toDigits (n := n)
  rw [Nat.ofDigitChars_eq_foldl] at h
  exact h

theorem toDigits_inj {m n : ℕ} (h : Nat.toDigits 10 m = Nat.toDigits 10 n) : m = n := by
  rw [← digitsValue_toDigits m, h, digitsValue_toDigits]

/-- Two texts that start with digits and go on with something else have the same digits. -/
theorem digits_append_inj {xs ys rest rest' : List Char} (hxs : ∀ c ∈ xs, c.isDigit = true)
    (hys : ∀ c ∈ ys, c.isDigit = true) (hrest : rest.takeWhile Char.isDigit = [])
    (hrest' : rest'.takeWhile Char.isDigit = []) (h : xs ++ rest = ys ++ rest') :
    xs = ys ∧ rest = rest' := by
  have hdigits := congrArg (List.takeWhile Char.isDigit) h
  rw [List.takeWhile_append_of_pos hxs, List.takeWhile_append_of_pos hys, hrest, hrest',
    List.append_nil, List.append_nil] at hdigits
  rw [hdigits] at h
  exact ⟨hdigits, List.append_cancel_left h⟩

theorem readDigits?_eq {cs : List Char} (hne : cs ≠ []) (h : ∀ c ∈ cs, c.isDigit = true) :
    readDigits? cs = some (digitsValue cs) := by
  have hall : cs.all Char.isDigit = true := List.all_eq_true.mpr h
  rw [readDigits?, hall, List.isEmpty_eq_false_iff.mpr hne]
  rfl

/-- Digits alone are a number without a sign. -/
theorem readInt?_eq {cs : List Char} (hne : cs ≠ []) (h : ∀ c ∈ cs, c.isDigit = true)
    (hlimit : digitsValue cs ≤ 2147483647) : readInt? cs = some (digitsValue cs : ℤ) := by
  have hread := readDigits?_eq hne h
  obtain ⟨c, rest, rfl⟩ := List.exists_cons_of_ne_nil hne
  have hc : c.isDigit = true := h c List.mem_cons_self
  have hminus : c ≠ '-' := by
    rintro rfl
    exact absurd hc (by decide)
  have hplus : c ≠ '+' := by
    rintro rfl
    exact absurd hc (by decide)
  have hnat : readNat? 2147483647 (c :: rest) = some (digitsValue (c :: rest)) := by
    unfold readNat?
    split
    · next hcs => exact absurd (List.cons.inj hcs).1 hplus
    · dsimp only
      rw [hread, Option.filter_some, if_pos (decide_eq_true hlimit)]
  unfold readInt?
  split
  · next hcs => exact absurd (List.cons.inj hcs).1 hminus
  · rw [hnat]
    rfl

/-- The characters of a number below 100 at two places. -/
def twoDigits (n : ℕ) : List Char :=
  if n < 10 then '0' :: Nat.toDigits 10 n else Nat.toDigits 10 n

theorem toList_natText (n : ℕ) : (natText n).toList = Nat.toDigits 10 n :=
  String.toList_ofList

theorem intText_natCast (n : ℕ) : intText n = natText n := rfl

theorem toList_twoPlaces (n : ℕ) : (twoPlaces n).toList = twoDigits n := by
  unfold twoPlaces twoDigits
  rw [intText_natCast]
  by_cases hn : n < 10
  · rw [if_pos hn, if_pos ⟨by omega, by omega⟩, String.toList_append, toList_natText]
    rfl
  · rw [if_neg hn, if_neg (by omega), toList_natText]

theorem isDigit_of_mem_twoDigits {c : Char} (h : c ∈ twoDigits n) : c.isDigit = true := by
  unfold twoDigits at h
  split at h
  · rcases List.mem_cons.mp h with rfl | h
    · decide
    · exact isDigit_of_mem_toDigits h
  · exact isDigit_of_mem_toDigits h

theorem digitsValue_twoDigits (n : ℕ) : digitsValue (twoDigits n) = n := by
  unfold twoDigits
  split
  · exact digitsValue_toDigits n
  · exact digitsValue_toDigits n

theorem twoDigits_inj {m n : ℕ} (h : twoDigits m = twoDigits n) : m = n := by
  rw [← digitsValue_twoDigits m, h, digitsValue_twoDigits]

theorem two_le_length_twoDigits (n : ℕ) : 2 ≤ (twoDigits n).length := by
  unfold twoDigits
  split
  · have hpos := Nat.length_toDigits_pos (b := 10) (n := n)
    rw [List.length_cons]
    omega
  · next hn =>
    have hle := Nat.length_toDigits_le_iff (b := 10) (n := n) (k := 1) (by decide) (by decide)
    omega

/-- Only numbers below 100 fit into two places. -/
theorem length_twoDigits_eq_two_iff : (twoDigits n).length = 2 ↔ n < 100 := by
  have hone := Nat.length_toDigits_le_iff (b := 10) (n := n) (k := 1) (by decide) (by decide)
  have htwo := Nat.length_toDigits_le_iff (b := 10) (n := n) (k := 2) (by decide) (by decide)
  have hpos := Nat.length_toDigits_pos (b := 10) (n := n)
  unfold twoDigits
  split
  · rw [List.length_cons]
    omega
  · omega

end FairyChess.Text
