import FairyChess.Movement.Reader
import FairyChess.Proofs.Text.Blank
import Mathlib.Data.Bool.AllAny

/-! Texts that hold nothing but tokens: normalising keeps them, and commas split them into clauses. -/
namespace FairyChess

namespace Movement
open Text

theorem mem_digits_of_isDigit {c : Char} (h : c.isDigit = true) :
    c ∈ ['0', '1', '2', '3', '4', '5', '6', '7', '8', '9'] := by
  have hbounds : 48 ≤ c.toNat ∧ c.toNat ≤ 57 := by
    simpa [Char.isDigit, UInt32.le_iff_toNat_le] using h
  obtain ⟨n, hn⟩ : ∃ n, c.toNat = n := ⟨_, rfl⟩
  have hc : c = Char.ofNat n := by rw [← hn, Char.ofNat_toNat]
  rw [hn] at hbounds
  obtain ⟨hlo, hhi⟩ := hbounds
  subst hc
  interval_cases n <;> decide

private theorem plain_of_isToken {c : Char} (h : isToken c = true) :
    isBlank c = false ∧ lowercase c = [c] ∧ c ≠ '&' := by
  rcases (Bool.or_eq_true _ _).mp h with hdigit | htoken
  · have hplain : ∀ c ∈ ['0', '1', '2', '3', '4', '5', '6', '7', '8', '9'],
        isBlank c = false ∧ lowercase c = [c] ∧ c ≠ '&' := List.all_iff_forall_prop.mp (by decide)
    exact hplain c (mem_digits_of_isDigit hdigit)
  · have hplain : ∀ c ∈ tokens, isBlank c = false ∧ lowercase c = [c] ∧ c ≠ '&' :=
      List.all_iff_forall_prop.mp (by decide)
    exact hplain c (List.contains_iff_mem.mp htoken)

theorem isToken_of_mem_intercalate {parts : List (List Char)}
    (h : ∀ part ∈ parts, ∀ c ∈ part, isToken c = true) :
    ∀ c ∈ [','].intercalate parts, isToken c = true := by
  intro c hc
  rcases mem_or_exists_of_mem_intercalate hc with hsep | ⟨part, hpart, hc⟩
  · obtain rfl := List.mem_singleton.mp hsep
    decide
  · exact h part hpart c hc

variable {text : List Char}

theorem normalize_ofList (h : ∀ c ∈ text, isToken c = true) :
    normalize (String.ofList text) = text := by
  rw [normalize, String.toList_ofList]
  have hkept : text.filter (!isBlank ·) = text := by
    rw [List.filter_eq_self]
    intro c hc
    rw [(plain_of_isToken (h c hc)).1]
    rfl
  have hcase : text.flatMap lowercase = text.flatMap ([·]) :=
    List.flatMap_congr fun c hc => (plain_of_isToken (h c hc)).2.1
  rw [hkept, hcase, List.flatMap_singleton']

end Movement

open Movement Text

/-- A text of tokens is split at its commas, and each clause that is not empty is read. -/
theorem Grammar.read_ofList {text : List Char} (h : ∀ c ∈ text, isToken c = true) :
    Grammar.read (String.ofList text) =
      (((fields ',' text).filter (!·.isEmpty)).mapM readClause).map
        (Grammar.mk (String.ofList text)) := by
  have hrepeat : text.contains '&' = false := by
    rw [List.contains_eq_mem, decide_eq_false_iff_not]
    exact fun hmem => (plain_of_isToken (h _ hmem)).2.2 rfl
  have hforeign : text.find? (!isToken ·) = none := by
    rw [List.find?_eq_none]
    intro c hc
    rw [h c hc]
    decide
  rw [Grammar.read, normalize_ofList h]
  simp only [hrepeat, hforeign, Bool.false_eq_true, if_false]
  rfl

/-- A text with no comma is one clause. -/
theorem Grammar.read_ofList_clause {text : List Char} (h : ∀ c ∈ text, isToken c = true)
    (hcomma : ',' ∉ text) (hne : text ≠ []) :
    Grammar.read (String.ofList text) =
      (readClause text).map fun clause => ⟨String.ofList text, [clause]⟩ := by
  have hkept : [text].filter (!·.isEmpty) = [text] := by simp [hne]
  rw [Grammar.read_ofList h, fields_of_not_mem hcomma, hkept]
  rw [List.mapM_cons, List.mapM_nil]
  cases readClause text <;> rfl

end FairyChess
