import FairyChess.Text.Blank
import Mathlib.Data.List.TakeWhile
import Mathlib.Tactic

/-! Fields between separators, lines, and text without blanks. -/
namespace FairyChess.Text

variable {cs : List Char}

theorem dropWhile_of_not_blank (h : ∀ c ∈ cs, isBlank c = false) : cs.dropWhile isBlank = cs := by
  cases cs with
  | nil => rfl
  | cons c cs => exact List.dropWhile_cons_of_neg (by simp [h c List.mem_cons_self])

theorem trim_of_not_blank (h : ∀ c ∈ cs, isBlank c = false) : trim cs = cs := by
  have hreverse : ∀ c ∈ cs.reverse, isBlank c = false := fun c hc => h c (List.mem_reverse.mp hc)
  rw [trim, dropWhile_of_not_blank h, dropWhile_of_not_blank hreverse, List.reverse_reverse]

theorem firstWord_of_not_blank (h : ∀ c ∈ cs, isBlank c = false) : firstWord cs = cs := by
  rw [firstWord, dropWhile_of_not_blank h, List.takeWhile_eq_self_iff]
  intro c hc
  rw [h c hc]
  rfl

/-- What is left of a text after trimming does not end in a blank. -/
theorem not_blank_of_trim_eq_singleton {c : Char} (h : trim cs = [c]) : isBlank c = false := by
  have hlast : (cs.dropWhile isBlank).reverse.dropWhile isBlank = [c] := by
    rw [← List.reverse_reverse (List.dropWhile _ _)]
    exact congrArg List.reverse h
  have hhead := List.head?_dropWhile_not isBlank (cs.dropWhile isBlank).reverse
  rw [hlast] at hhead
  exact hhead

theorem not_blank_of_isDigit {c : Char} (h : c.isDigit = true) : isBlank c = false := by
  have hbounds : 48 ≤ c.toNat ∧ c.toNat ≤ 57 := by
    simpa [Char.isDigit, UInt32.le_iff_toNat_le] using h
  simp only [isBlank, Bool.or_eq_false_iff, Bool.and_eq_false_iff, beq_eq_false_iff_ne,
    decide_eq_false_iff_not]
  omega

theorem fields_ne_nil (sep : Char) (cs : List Char) : fields sep cs ≠ [] := by
  cases cs with
  | nil => exact List.cons_ne_nil _ _
  | cons c cs =>
    rw [fields]
    split
    · exact List.cons_ne_nil _ _
    · split
      · exact List.cons_ne_nil _ _
      · exact List.cons_ne_nil _ _

theorem not_mem_of_mem_fields {sep : Char} {field : List Char} (h : field ∈ fields sep cs) :
    sep ∉ field := by
  induction cs generalizing field with
  | nil =>
    obtain rfl := List.mem_singleton.mp h
    exact List.not_mem_nil
  | cons c cs ih =>
    rw [fields] at h
    split at h
    · rcases List.mem_cons.mp h with rfl | h
      · exact List.not_mem_nil
      · exact ih h
    · next hc =>
      obtain ⟨first, rest, hfields⟩ := List.exists_cons_of_ne_nil (fields_ne_nil sep cs)
      simp only [hfields] at h ih
      rcases List.mem_cons.mp h with rfl | h
      · exact List.not_mem_cons_of_ne_of_not_mem (Ne.symm hc) (ih List.mem_cons_self)
      · exact ih (List.mem_cons_of_mem first h)

theorem fields_of_not_mem {sep : Char} {cs : List Char} (h : sep ∉ cs) : fields sep cs = [cs] := by
  induction cs with
  | nil => rfl
  | cons c cs ih =>
    have hc : c ≠ sep := (List.ne_of_not_mem_cons h).symm
    rw [fields, if_neg hc, ih (List.not_mem_of_not_mem_cons h)]

theorem fields_append {sep : Char} {cs : List Char} (h : sep ∉ cs) (rest : List Char) :
    fields sep (cs ++ sep :: rest) = cs :: fields sep rest := by
  induction cs with
  | nil => rw [List.nil_append, fields, if_pos rfl]
  | cons c cs ih =>
    have hc : c ≠ sep := (List.ne_of_not_mem_cons h).symm
    rw [List.cons_append, fields, if_neg hc, ih (List.not_mem_of_not_mem_cons h)]

theorem fields_intercalate {sep : Char} {parts : List (List Char)} (hparts : parts ≠ [])
    (h : ∀ part ∈ parts, sep ∉ part) : fields sep ([sep].intercalate parts) = parts := by
  induction parts with
  | nil => exact absurd rfl hparts
  | cons part rest ih =>
    have hpart : sep ∉ part := h part List.mem_cons_self
    cases rest with
    | nil =>
      rw [List.intercalate_singleton]
      exact fields_of_not_mem hpart
    | cons next rest =>
      have hrest := ih (List.cons_ne_nil next rest) fun p hp => h p (List.mem_cons_of_mem part hp)
      rw [List.intercalate_cons_cons, List.append_assoc, List.singleton_append,
        fields_append hpart, hrest]

theorem mem_or_exists_of_mem_intercalate {c : Char} {sep : List Char} {parts : List (List Char)}
    (h : c ∈ sep.intercalate parts) : c ∈ sep ∨ ∃ part ∈ parts, c ∈ part := by
  induction parts with
  | nil => exact absurd h List.not_mem_nil
  | cons part rest ih =>
    cases rest with
    | nil =>
      rw [List.intercalate_singleton] at h
      exact .inr ⟨part, List.mem_cons_self, h⟩
    | cons next rest =>
      rw [List.intercalate_cons_cons] at h
      rcases List.mem_append.mp h with h | h
      · rcases List.mem_append.mp h with h | h
        · exact .inr ⟨part, List.mem_cons_self, h⟩
        · exact .inl h
      · refine (ih h).imp_right ?_
        rintro ⟨other, hother, hc⟩
        exact ⟨other, List.mem_cons_of_mem part hother, hc⟩

theorem not_mem_intercalate {c : Char} {sep : List Char} {parts : List (List Char)} (hsep : c ∉ sep)
    (hparts : ∀ part ∈ parts, c ∉ part) : c ∉ sep.intercalate parts := by
  intro h
  rcases mem_or_exists_of_mem_intercalate h with h | ⟨part, hpart, h⟩
  · exact hsep h
  · exact hparts part hpart h

theorem length_intercalate (sep : List Char) {width : ℕ} {parts : List (List Char)}
    (h : ∀ part ∈ parts, part.length = width) :
    (sep.intercalate parts).length = width * parts.length + sep.length * (parts.length - 1) := by
  induction parts with
  | nil => rfl
  | cons part rest ih =>
    obtain ⟨hpart, hrest⟩ := List.forall_mem_cons.mp h
    cases rest with
    | nil => simp [hpart]
    | cons second rest =>
      rw [List.intercalate_cons_cons, List.length_append, List.length_append, ih hrest, hpart]
      simp only [List.length_cons, Nat.add_sub_cancel]
      ring

theorem fields_eq_splitOn (sep : Char) (cs : List Char) : fields sep cs = cs.splitOn sep := by
  induction cs with
  | nil => rfl
  | cons c cs ih =>
    rw [fields, List.splitOn_cons_eq_if_modifyHead, ← ih]
    by_cases hc : c = sep
    · simp [hc]
    · rw [if_neg hc, if_neg (by simpa using hc)]
      obtain ⟨field, rest, hfields⟩ := List.exists_cons_of_ne_nil (fields_ne_nil sep cs)
      rw [hfields]
      rfl

/-- The text before a line feed ends in a line of its own, which may be empty. -/
theorem lines_append (front rest : List Char) :
    lines (front ++ '\n' :: rest) = fields '\n' front ++ lines rest := by
  induction front with
  | nil => rfl
  | cons c front ih =>
    rw [List.cons_append, lines, ih, fields]
    split
    · rfl
    · obtain ⟨field, more, hfields⟩ := List.exists_cons_of_ne_nil (fields_ne_nil '\n' front)
      rw [hfields]
      rfl

/-- Lines that are ended one by one are the first lines of the text. -/
theorem lines_flatMap_append {ls : List (List Char)} (h : ∀ l ∈ ls, '\n' ∉ l) (rest : List Char) :
    lines (ls.flatMap (· ++ ['\n']) ++ rest) = ls ++ lines rest := by
  induction ls with
  | nil => rfl
  | cons l ls ih =>
    obtain ⟨hl, hls⟩ := List.forall_mem_cons.mp h
    rw [List.flatMap_cons, List.append_assoc, List.append_assoc, List.singleton_append, lines_append,
      fields_of_not_mem hl, ih hls]
    rfl

/-- Lines are the fields between line feeds, less an empty one at the end. -/
theorem fields_eq_lines (cs : List Char) :
    fields '\n' cs = lines cs ∨ fields '\n' cs = lines cs ++ [[]] := by
  induction cs with
  | nil => exact .inr rfl
  | cons c cs ih =>
    rw [fields, lines]
    split
    · rcases ih with ih | ih
      · exact .inl (by rw [ih])
      · exact .inr (by rw [ih, List.cons_append])
    · rcases ih with ih | ih
      · exact .inl (by rw [ih])
      · rw [ih]
        cases lines cs with
        | nil => exact .inl rfl
        | cons l ls => exact .inr rfl

theorem lines_of_not_mem (hne : cs ≠ []) (h : '\n' ∉ cs) : lines cs = [cs] := by
  induction cs with
  | nil => exact absurd rfl hne
  | cons c cs ih =>
    have hc : c ≠ '\n' := (List.ne_of_not_mem_cons h).symm
    rw [lines, if_neg hc]
    cases cs with
    | nil => rfl
    | cons d ds => rw [ih (List.cons_ne_nil d ds) (List.not_mem_of_not_mem_cons h)]

end FairyChess.Text
