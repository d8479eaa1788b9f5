import FairyChess.Display.SquareName
import FairyChess.Proofs.Bounds
import FairyChess.Proofs.Text.Blank
import FairyChess.Proofs.Text.Numeral

/-! Names of squares: which of them are read back as the square that they name. -/
namespace FairyChess.Square
open Text Bounds

variable {b : Bounds} {x y : ℕ}

section Letters

theorem fileLetter_spec : ∀ x : ℕ, x < 26 → (fileLetter x).toLower = fileLetter x ∧
    (fileLetter x).isLower = true ∧ (fileLetter x).toNat = 97 + x ∧ isBlank (fileLetter x) = false := by
  decide

theorem toList_name_of_letters (h : b.hasLetters = true) :
    (name b ⟨b.left + x, b.bottom + y⟩).toList = fileLetter x :: Nat.toDigits 10 (y + 1) := by
  have hrank : (y : ℤ) + 1 = (y + 1 : ℕ) := rfl
  rw [name, if_pos h, add_sub_cancel_left, add_sub_cancel_left, hrank, intText_natCast,
    String.toList_append, toList_natText, Char.toString_eq_singleton, String.toList_singleton,
    List.singleton_append]

theorem offsetsOfName?_of_letters (h : b.hasLetters = true) (hx : x < 26) (hy : y < 2147483647) :
    offsetsOfName? b (fileLetter x :: Nat.toDigits 10 (y + 1)) = some ((x : ℤ), (y : ℤ)) := by
  obtain ⟨hlower, hletter, hfile, -⟩ := fileLetter_spec x hx
  have hvalue := digitsValue_toDigits (y + 1)
  have hrank : readInt? (Nat.toDigits 10 (y + 1)) = some ((y + 1 : ℕ) : ℤ) := by
    rw [readInt?_eq Nat.toDigits_ne_nil (fun _ => isDigit_of_mem_toDigits) (by omega), hvalue]
  rw [offsetsOfName?, if_pos h]
  dsimp only
  rw [hlower, if_pos hletter, hrank, hfile]
  simp

end Letters

section Places

theorem toList_name_of_places (h : b.hasLetters = false) :
    (name b ⟨b.left + x, b.bottom + y⟩).toList = twoDigits x ++ twoDigits y := by
  rw [name, if_neg (Bool.eq_false_iff.mp h), add_sub_cancel_left, add_sub_cancel_left,
    String.toList_append, toList_twoPlaces, toList_twoPlaces]

theorem readInt?_twoDigits (hx : x < 100) : readInt? (twoDigits x) = some (x : ℤ) := by
  have hne : twoDigits x ≠ [] := List.ne_nil_of_length_pos (by have := two_le_length_twoDigits x; omega)
  have hvalue := digitsValue_twoDigits x
  rw [readInt?_eq hne (fun _ => isDigit_of_mem_twoDigits) (by omega), hvalue]

/-- A name of two numbers is read only when neither needs a third digit. -/
theorem offsetsOfName?_of_places (h : b.hasLetters = false) :
    offsetsOfName? b (twoDigits x ++ twoDigits y) =
      if x < 100 ∧ y < 100 then some ((x : ℤ), (y : ℤ)) else none := by
  have hxlength := length_twoDigits_eq_two_iff (n := x)
  have hylength := length_twoDigits_eq_two_iff (n := y)
  have hxtwo := two_le_length_twoDigits x
  have hytwo := two_le_length_twoDigits y
  unfold offsetsOfName?
  rw [if_neg (Bool.eq_false_iff.mp h)]
  by_cases hplaces : x < 100 ∧ y < 100
  · rw [if_pos hplaces]
    have hfile := readInt?_twoDigits hplaces.1
    have hrank := readInt?_twoDigits hplaces.2
    obtain ⟨c, d, hcd⟩ := List.length_eq_two.mp (hxlength.mpr hplaces.1)
    obtain ⟨e, f, hef⟩ := List.length_eq_two.mp (hylength.mpr hplaces.2)
    rw [hcd] at hfile ⊢
    rw [hef] at hrank ⊢
    change (readInt? [c, d] >>= fun file => readInt? [e, f] >>= fun rank => some (file, rank)) = _
    rw [hfile, hrank]
    rfl
  · rw [if_neg hplaces]
    split
    · next c d e f hname =>
      have hlength := congrArg List.length hname
      rw [List.length_append, List.length_cons, List.length_cons, List.length_cons, List.length_cons,
        List.length_nil] at hlength
      omega
    · rfl

end Places

section Unique

variable {x' y' : ℕ} {rest rest' : List Char}

/-- Of two numbers of a square on a board that is not too large, one fits into two places. -/
theorem places_append_inj (harea : b.area ≤ maxArea) (hx : x < b.files) (hy : y < b.ranks)
    (hx' : x' < b.files) (hy' : y' < b.ranks)
    (h : twoDigits x ++ twoDigits y = twoDigits x' ++ twoDigits y') : x = x' ∧ y = y' := by
  by_cases hfiles : b.files ≤ 100
  · have hlength : (twoDigits x).length = (twoDigits x').length := by
      rw [length_twoDigits_eq_two_iff.mpr (hx.trans_le hfiles),
        length_twoDigits_eq_two_iff.mpr (hx'.trans_le hfiles)]
    obtain ⟨hfile, hrank⟩ := List.append_inj h hlength
    exact ⟨twoDigits_inj hfile, twoDigits_inj hrank⟩
  · have hranks : b.ranks ≤ 100 := by
      by_contra hranks
      have hproduct : 100 * 100 ≤ b.area := Nat.mul_le_mul (by omega) (by omega)
      have hcap : maxArea < 100 * 100 := by decide
      omega
    have hlength : (twoDigits y).length = (twoDigits y').length := by
      rw [length_twoDigits_eq_two_iff.mpr (hy.trans_le hranks),
        length_twoDigits_eq_two_iff.mpr (hy'.trans_le hranks)]
    obtain ⟨hfile, hrank⟩ := List.append_inj' h hlength
    exact ⟨twoDigits_inj hfile, twoDigits_inj hrank⟩

/-- A name can be told from what follows it, unless that goes on with a digit. -/
theorem name_append_inj (harea : b.area ≤ maxArea) {s t : Square} (hs : s ∈ b) (ht : t ∈ b)
    (hrest : rest.takeWhile Char.isDigit = []) (hrest' : rest'.takeWhile Char.isDigit = [])
    (h : (s.name b).toList ++ rest = (t.name b).toList ++ rest') : s = t ∧ rest = rest' := by
  obtain ⟨x, y, hx, hy, rfl⟩ := exists_offsets harea hs
  obtain ⟨x', y', hx', hy', rfl⟩ := exists_offsets harea ht
  cases hletters : b.hasLetters with
  | true =>
    have hfiles : b.files ≤ 26 := of_decide_eq_true hletters
    rw [toList_name_of_letters hletters, toList_name_of_letters hletters] at h
    obtain ⟨hletter, h⟩ := List.cons.inj h
    obtain ⟨hdigits, hrest⟩ := digits_append_inj (fun _ => isDigit_of_mem_toDigits)
      (fun _ => isDigit_of_mem_toDigits) hrest hrest' h
    have hrank := toDigits_inj hdigits
    obtain ⟨-, -, hcode, -⟩ := fileLetter_spec x (by omega)
    obtain ⟨-, -, hcode', -⟩ := fileLetter_spec x' (by omega)
    rw [hletter, hcode'] at hcode
    obtain rfl : x = x' := by omega
    obtain rfl : y = y' := by omega
    exact ⟨rfl, hrest⟩
  | false =>
    have hdigit {i j : ℕ} : ∀ c ∈ twoDigits i ++ twoDigits j, c.isDigit = true :=
      List.forall_mem_append.mpr ⟨fun _ => isDigit_of_mem_twoDigits, fun _ => isDigit_of_mem_twoDigits⟩
    rw [toList_name_of_places hletters, toList_name_of_places hletters] at h
    obtain ⟨hdigits, hrest⟩ := digits_append_inj hdigit hdigit hrest hrest' h
    obtain ⟨rfl, rfl⟩ := places_append_inj harea hx hy hx' hy' hdigits
    exact ⟨rfl, hrest⟩

end Unique

theorem not_blank_of_mem_name (hx : x < b.files) :
    ∀ c ∈ (name b ⟨b.left + x, b.bottom + y⟩).toList, isBlank c = false := by
  cases h : b.hasLetters with
  | true =>
    have hfiles : b.files ≤ 26 := of_decide_eq_true h
    obtain ⟨-, -, -, hletter⟩ := fileLetter_spec x (by omega)
    rw [toList_name_of_letters h, List.forall_mem_cons]
    exact ⟨hletter, fun c hc => not_blank_of_isDigit (isDigit_of_mem_toDigits hc)⟩
  | false =>
    rw [toList_name_of_places h, List.forall_mem_append]
    exact ⟨fun c hc => not_blank_of_isDigit (isDigit_of_mem_twoDigits hc),
      fun c hc => not_blank_of_isDigit (isDigit_of_mem_twoDigits hc)⟩

theorem ofName?_of_offsets {text : String} (hblank : ∀ c ∈ text.toList, isBlank c = false)
    (hoffsets : offsetsOfName? b text.toList = some ((x : ℤ), (y : ℤ)))
    (hmem : (⟨b.left + x, b.bottom + y⟩ : Square) ∈ b) :
    ofName? b text = some ⟨b.left + x, b.bottom + y⟩ := by
  unfold ofName?
  rw [trim_of_not_blank hblank, hoffsets]
  exact if_pos hmem

/--
On boards with letters for the files every name is read back. On wider boards a name is read back when
two digits are enough for both of its numbers, and otherwise not at all.
-/
theorem ofName?_name (harea : b.area ≤ maxArea) {s : Square} (hs : s ∈ b) :
    ofName? b (s.name b) =
      if b.files ≤ 26 ∨ s.file - b.left < 100 ∧ s.rank - b.bottom < 100 then some s else none := by
  obtain ⟨x, y, hx, hy, rfl⟩ := exists_offsets harea hs
  have hranks := (ranks_le_area (area_pos_of_mem hs)).trans harea
  have hcap : maxArea < 2147483647 := by decide
  have hblank := not_blank_of_mem_name (y := y) hx
  rw [add_sub_cancel_left, add_sub_cancel_left]
  cases h : b.hasLetters with
  | true =>
    have hfiles : b.files ≤ 26 := of_decide_eq_true h
    rw [if_pos (.inl hfiles)]
    refine ofName?_of_offsets hblank ?_ hs
    rw [toList_name_of_letters h, offsetsOfName?_of_letters h (by omega) (by omega)]
  | false =>
    have hfiles : ¬b.files ≤ 26 := of_decide_eq_false h
    have hoffsets : offsetsOfName? b (name b ⟨b.left + x, b.bottom + y⟩).toList =
        if x < 100 ∧ y < 100 then some ((x : ℤ), (y : ℤ)) else none := by
      rw [toList_name_of_places h, offsetsOfName?_of_places h]
    by_cases hplaces : x < 100 ∧ y < 100
    · rw [if_pos hplaces] at hoffsets
      rw [if_pos (.inr (by omega))]
      exact ofName?_of_offsets hblank hoffsets hs
    · rw [if_neg hplaces] at hoffsets
      rw [if_neg (by omega), ofName?, trim_of_not_blank hblank, hoffsets]
      rfl

/-- The widest name with two digits for both numbers. -/
theorem ofName?_name_corner : let b : Bounds := ⟨-3, 37, 5, 105⟩
    b.area ≤ maxArea ∧ (⟨36, 104⟩ : Square) ∈ b ∧ ofName? b (name b ⟨36, 104⟩) = some ⟨36, 104⟩ :=
  ⟨by decide, by decide, ofName?_name (by decide) (by decide)⟩

/-- A number of three digits in a name is not read. -/
theorem ofName?_name_hundredth : let b : Bounds := ⟨0, 101, 0, 1⟩
    0 < b.area ∧ b.area ≤ maxArea ∧ (⟨100, 0⟩ : Square) ∈ b ∧ ofName? b (name b ⟨100, 0⟩) = none := by
  decide +kernel

end FairyChess.Square
