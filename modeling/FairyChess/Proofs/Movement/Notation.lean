import FairyChess.Movement.Reader
import FairyChess.Proofs.Text.Numeral
import Mathlib.Data.Bool.AllAny
import Mathlib.Data.List.TakeWhile
import Mathlib.Tactic

/-! Movement patterns in writing: the canonical patterns, and the text of each. -/
namespace FairyChess
open Movement

/-- Ends do not cross, and every length can be read. -/
def Span.Canonical : Span → Prop
  | .exact n => n ≤ maxLength
  | .any => True
  | .range lo none => lo ≤ maxLength
  | .range lo (some hi) => lo ≤ hi ∧ hi ≤ maxLength

def Distance.Canonical : Distance → Prop
  | .unbounded => True
  | .single span => span.Canonical
  | .paired first second _ => first.Canonical ∧ second.Canonical

def Distance.isPaired : Distance → Bool
  | .paired .. => true
  | _ => false

def Distance.isStrict : Distance → Bool
  | .paired _ _ strict => strict
  | _ => false

structure Step.Canonical (s : Step) : Prop where
  distance : s.distance.Canonical
  free (h : s.shape = .free) : s.distance.isPaired = true
  lateral (h : s.heading = .forward false ∨ s.heading = .backward false) : s.lateral = .any

def Count.Canonical : Count → Prop
  | .fixed n => 0 < n ∧ n ≤ Count.limit
  | .wildcard => True

def Pattern.isSequence : Pattern → Bool
  | .andThen .. => true
  | _ => false

/-- Sequences are grouped to the right. -/
def Pattern.Canonical : Pattern → Prop
  | .step s => s.Canonical
  | .ride count _ pattern => count.Canonical ∧ pattern.Canonical
  | .andThen first second => first.isSequence = false ∧ first.Canonical ∧ second.Canonical

/-- A length in digits, or `n` where there is none. -/
def Movement.writtenLength : Option ℕ → List Char
  | some n => Nat.toDigits 10 n
  | none => ['n']

def Span.written : Span → List Char
  | .exact n => writtenLength (some n)
  | .any => writtenLength none
  | .range lo hi => writtenLength (some lo) ++ '-' :: writtenLength hi

def Distance.written : Distance → List Char
  | .unbounded => []
  | .single span => span.written
  | .paired first second _ => first.written ++ '/' :: second.written

def Shape.marks : Shape → List Char
  | .omni => ['*']
  | .orthogonal => ['+']
  | .diagonal => ['x']
  | .free => []

def Heading.marks : Heading → List Char
  | .any => []
  | .forward false => ['>']
  | .forward true => ['>', '=']
  | .backward false => ['<']
  | .backward true => ['<', '=']
  | .vertical => ['<', '>']
  | .sideways => ['=']

def Lateral.marks : Lateral → List Char
  | .any => []
  | .right => ['r']
  | .left => ['l']
  | .either => ['r', 'l']

/-- A mark that is there or not. -/
def Movement.flag (mark : Char) (present : Bool) : List Char :=
  if present then [mark] else []

def Gait.marks (g : Gait) : List Char :=
  flag '~' g.leaper ++ flag '^' g.locust

def Step.marks (s : Step) : List Char :=
  flag 's' s.distance.isStrict ++ (s.shape.marks ++ (s.heading.marks ++ (s.lateral.marks ++
    (flag 'i' s.firstMove ++ (flag 'd' s.dummy ++ s.gait.marks)))))

def Step.written (s : Step) : List Char :=
  s.distance.written ++ s.marks

def Count.written : Count → List Char
  | .fixed n => writtenLength (some n)
  | .wildcard => writtenLength none

def Pattern.written : Pattern → List Char
  | .step s => s.written
  | .ride count gait pattern => gait.marks ++ count.written ++ '(' :: (pattern.written ++ [')'])
  | .andThen first second => first.written ++ '.' :: second.written

section Lengths

theorem writtenLength_ne_nil (n : Option ℕ) : writtenLength n ≠ [] := by
  cases n with
  | none => exact List.cons_ne_nil _ _
  | some n => exact Nat.toDigits_ne_nil

theorem isLength_of_mem_writtenLength {n : Option ℕ} {c : Char} (h : c ∈ writtenLength n) :
    isLength c = true := by
  cases n with
  | none =>
    obtain rfl := List.mem_singleton.mp h
    rfl
  | some n =>
    rw [isLength, Text.isDigit_of_mem_toDigits h, Bool.true_or]

theorem readLength_written (span : List Char) {n : Option ℕ} (hn : ∀ k ∈ n, k ≤ maxLength) :
    readLength span (writtenLength n) = .ok n := by
  cases n with
  | none => rfl
  | some n =>
    have hdigits : ∀ c ∈ Nat.toDigits 10 n, c.isDigit = true := fun _ => Text.isDigit_of_mem_toDigits
    have hne : Nat.toDigits 10 n ≠ ['n'] := by
      intro h
      have hn := hdigits 'n' (h ▸ List.mem_singleton.mpr rfl)
      exact absurd hn (by decide)
    have hread : Text.readDigits? (Nat.toDigits 10 n) = some n := by
      rw [Text.readDigits?_eq Nat.toDigits_ne_nil hdigits, Text.digitsValue_toDigits]
    have hlimit : n ≤ maxLength := hn n rfl
    rw [writtenLength, readLength, if_neg hne, hread, Option.filter_some]
    simp [hlimit]

theorem run?_append {run rest : List Char} (hne : run ≠ []) (hrun : ∀ c ∈ run, isLength c = true)
    (hrest : ∀ c ∈ rest.head?, isLength c = false) : run? (run ++ rest) = some (run, rest) := by
  have hstop : rest.takeWhile isLength = [] ∧ rest.dropWhile isLength = rest := by
    cases rest with
    | nil => exact ⟨rfl, rfl⟩
    | cons c rest =>
      have hc : isLength c = false := hrest c rfl
      rw [List.takeWhile_cons, List.dropWhile_cons, hc]
      exact ⟨rfl, rfl⟩
  have htake : (run ++ rest).takeWhile isLength = run := by
    rw [List.takeWhile_append_of_pos hrun, hstop.1, List.append_nil]
  have hdrop : (run ++ rest).dropWhile isLength = rest := by
    rw [List.dropWhile_append_of_pos hrun, hstop.2]
  rw [run?, htake, hdrop]
  cases run with
  | nil => exact absurd rfl hne
  | cons c run => rfl

theorem run?_writtenLength (n : Option ℕ) {rest : List Char}
    (hrest : ∀ c ∈ rest.head?, isLength c = false) :
    run? (writtenLength n ++ rest) = some (writtenLength n, rest) :=
  run?_append (writtenLength_ne_nil n) (fun _ hc => isLength_of_mem_writtenLength hc) hrest

end Lengths

section Distances

variable {span : Span} {rest marks : List Char}

theorem isDistanceMark_eq_false {c : Char} (h : isDistanceMark c = false) :
    isLength c = false ∧ c ≠ '-' ∧ c ≠ '/' := by
  simpa [isDistanceMark, and_assoc] using h

theorem isDistanceMark_of_mem_span {c : Char} (h : c ∈ span.written) :
    isDistanceMark c = true ∧ c ≠ '/' := by
  have hlength {c : Char} (hc : isLength c = true) : isDistanceMark c = true ∧ c ≠ '/' := by
    refine ⟨by rw [isDistanceMark, hc]; rfl, ?_⟩
    rintro rfl
    exact absurd hc (by decide)
  cases span with
  | exact n => exact hlength (isLength_of_mem_writtenLength (n := some n) h)
  | any => exact hlength (isLength_of_mem_writtenLength (n := none) h)
  | range lo hi =>
    rcases List.mem_append.mp h with h | h
    · exact hlength (isLength_of_mem_writtenLength h)
    · rcases List.mem_cons.mp h with rfl | h
      · decide
      · exact hlength (isLength_of_mem_writtenLength h)

theorem isDistanceMark_of_mem_distance {d : Distance} {c : Char} (h : c ∈ d.written) :
    isDistanceMark c = true := by
  cases d with
  | unbounded => exact absurd h List.not_mem_nil
  | single span => exact (isDistanceMark_of_mem_span h).1
  | paired first second strict =>
    rcases List.mem_append.mp h with h | h
    · exact (isDistanceMark_of_mem_span h).1
    · rcases List.mem_cons.mp h with rfl | h
      · decide
      · exact (isDistanceMark_of_mem_span h).1

/-- Nothing that could lengthen a span may follow it. -/
theorem spanText?_written (span : Span)
    (hrest : ∀ c ∈ rest.head?, isLength c = false ∧ c ≠ '-') :
    spanText? (span.written ++ rest) = some (span.written, rest) := by
  have hlength : ∀ c ∈ rest.head?, isLength c = false := fun c hc => (hrest c hc).1
  have hsingle (n : Option ℕ) :
      spanText? (writtenLength n ++ rest) = some (writtenLength n, rest) := by
    rw [spanText?, run?_writtenLength n hlength]
    cases rest with
    | nil => rfl
    | cons c rest =>
      have hc : c ≠ '-' := (hrest c rfl).2
      simp only [Option.bind_eq_bind, Option.bind_some]
      split
      · next after heq => exact absurd (List.cons.inj heq).1 hc
      · rfl
  cases span with
  | exact n => exact hsingle (some n)
  | any => exact hsingle none
  | range lo hi =>
    have hlo : run? (writtenLength (some lo) ++ '-' :: (writtenLength hi ++ rest)) =
        some (writtenLength (some lo), '-' :: (writtenLength hi ++ rest)) := by
      apply run?_writtenLength
      rintro c ⟨⟩
      decide
    have hhi := run?_writtenLength hi hlength
    rw [Span.written, List.append_assoc, List.cons_append, spanText?, hlo]
    simp only [Option.bind_eq_bind, Option.bind_some, hhi]

theorem readSpan_written (h : span.Canonical) : readSpan span.written = .ok span := by
  have hhyphen (n : Option ℕ) : ∀ c ∈ writtenLength n, (c != '-') = true := by
    intro c hc
    rw [bne_iff_ne]
    rintro rfl
    exact absurd (isLength_of_mem_writtenLength hc) (by decide)
  have hsingle (n : Option ℕ) : (writtenLength n).dropWhile (· != '-') = [] :=
    List.dropWhile_eq_nil_iff.mpr (hhyphen n)
  cases span with
  | exact n =>
    have hlength : ∀ k ∈ some n, k ≤ maxLength := by
      rintro k ⟨⟩
      exact h
    rw [Span.written, readSpan, hsingle, readLength_written _ hlength]
    rfl
  | any =>
    rw [Span.written, readSpan, hsingle, readLength_written _ (by simp)]
    rfl
  | range lo hi =>
    have hends : lo ≤ maxLength ∧ ∀ k ∈ hi, lo ≤ k ∧ k ≤ maxLength := by
      cases hi with
      | none => exact ⟨h, by simp⟩
      | some n =>
        refine ⟨h.1.trans h.2, ?_⟩
        rintro k ⟨⟩
        exact h
    have hlo : ∀ k ∈ some lo, k ≤ maxLength := by
      rintro k ⟨⟩
      exact hends.1
    have hhi : ∀ k ∈ hi, k ≤ maxLength := fun k hk => (hends.2 k hk).2
    have hcross : hi.any (· < lo) = false := by
      cases hi with
      | none => rfl
      | some n =>
        have hn : lo ≤ n := (hends.2 n rfl).1
        simpa using hn
    have hdrop : (writtenLength (some lo) ++ '-' :: writtenLength hi).dropWhile (· != '-') =
        '-' :: writtenLength hi := by
      rw [List.dropWhile_append_of_pos (hhyphen _)]
      rfl
    have htake : (writtenLength (some lo) ++ '-' :: writtenLength hi).takeWhile (· != '-') =
        writtenLength (some lo) := by
      rw [List.takeWhile_append_of_pos (hhyphen _)]
      simp
    rw [Span.written, readSpan, hdrop]
    simp only [htake, readLength_written _ hlo, readLength_written _ hhi]
    change (if hi.any (· < lo) then _ else _) = _
    rw [hcross]
    rfl

theorem spanText?_suffix {cs found rest : List Char} (h : spanText? cs = some (found, rest)) :
    rest <:+ cs := by
  have hrun {cs run rest : List Char} (h : run? cs = some (run, rest)) : rest <:+ cs := by
    unfold run? at h
    split at h
    · cases h
    · obtain rfl := (Prod.mk.inj (Option.some.inj h)).2
      exact List.dropWhile_suffix _
  obtain ⟨⟨lo, afterLo⟩, hlo, h⟩ := Option.bind_eq_some_iff.mp h
  have hsuffix := hrun hlo
  dsimp only at h
  split at h
  · next after =>
    split at h
    · next hi afterHi hhi =>
      obtain rfl := (Prod.mk.inj (Option.some.inj h)).2
      exact (hrun hhi).trans ((List.suffix_cons '-' after).trans hsuffix)
    · obtain rfl := (Prod.mk.inj (Option.some.inj h)).2
      exact hsuffix
  · obtain rfl := (Prod.mk.inj (Option.some.inj h)).2
    exact hsuffix

theorem pairText?_eq_none {cs : List Char} (h : '/' ∉ cs) : pairText? cs = none := by
  unfold pairText?
  cases hspan : spanText? cs with
  | none => rfl
  | some found =>
    obtain ⟨first, rest⟩ := found
    have hrest : '/' ∉ rest := fun hmem => h ((spanText?_suffix hspan).subset hmem)
    simp only [Option.bind_eq_bind, Option.bind_some]
    split
    · exact absurd List.mem_cons_self hrest
    · rfl

theorem spanText?_eq_none {cs : List Char} (h : ∀ c ∈ cs, isLength c = false) :
    spanText? cs = none := by
  have htake : cs.takeWhile isLength = [] := by
    cases cs with
    | nil => rfl
    | cons c cs =>
      rw [List.takeWhile_cons, h c List.mem_cons_self]
      rfl
  rw [spanText?, run?, htake]
  rfl

theorem extract?_eq_none {α : Type} {read? : List Char → Option (α × List Char)} {cs : List Char}
    (h : ∀ tail, tail <:+ cs → read? tail = none) : extract? read? cs = none := by
  induction cs with
  | nil => rfl
  | cons c cs ih =>
    have hrest := ih fun tail htail => h tail (htail.trans (List.suffix_cons c cs))
    rw [extract?, h (c :: cs) (List.suffix_refl _), hrest]
    rfl

theorem extract?_of_eq_some {α : Type} {read? : List Char → Option (α × List Char)}
    {cs : List Char} {found : α × List Char} (hne : cs ≠ []) (h : read? cs = some found) :
    extract? read? cs = some found := by
  cases cs with
  | nil => exact absurd rfl hne
  | cons c cs => rw [extract?, h]

theorem span_written_ne_nil (span : Span) : span.written ≠ [] := by
  cases span with
  | exact n => exact writtenLength_ne_nil (some n)
  | any => exact writtenLength_ne_nil none
  | range lo hi => exact List.append_ne_nil_of_right_ne_nil _ (List.cons_ne_nil _ _)

/-- The distance in front of a step is taken out, and what follows is left. -/
theorem readDistance_written {d : Distance} (h : d.Canonical)
    (hmarks : ∀ c ∈ marks, isDistanceMark c = false) (hstrict : d.isStrict = true ↔ 's' ∈ marks) :
    readDistance (d.written ++ marks) = .ok (d, marks) := by
  have hplain : ∀ c ∈ marks, isLength c = false ∧ c ≠ '-' ∧ c ≠ '/' := fun c hc =>
    isDistanceMark_eq_false (hmarks c hc)
  have hhead : ∀ c ∈ marks.head?, isLength c = false ∧ c ≠ '-' := fun c hc =>
    have hmem := hplain c (List.mem_of_mem_head? hc)
    ⟨hmem.1, hmem.2.1⟩
  have hslash : '/' ∉ marks := fun hmem => (hplain _ hmem).2.2 rfl
  cases d with
  | unbounded =>
    have hpair : extract? pairText? marks = none := extract?_eq_none fun tail htail =>
      pairText?_eq_none fun hmem => hslash (htail.subset hmem)
    have hspan : extract? spanText? marks = none := extract?_eq_none fun tail htail =>
      spanText?_eq_none fun c hc => (hplain c (htail.subset hc)).1
    rw [Distance.written, List.nil_append, readDistance, hpair, hspan]
  | single span =>
    have hwhole : '/' ∉ span.written ++ marks := by
      intro hmem
      rcases List.mem_append.mp hmem with hmem | hmem
      · exact (isDistanceMark_of_mem_span hmem).2 rfl
      · exact hslash hmem
    have hpair : extract? pairText? (span.written ++ marks) = none := extract?_eq_none
      fun tail htail => pairText?_eq_none fun hmem => hwhole (htail.subset hmem)
    have hspan : extract? spanText? (span.written ++ marks) = some (span.written, marks) :=
      extract?_of_eq_some (List.append_ne_nil_of_left_ne_nil (span_written_ne_nil span) _)
        (spanText?_written span hhead)
    rw [Distance.written, readDistance, hpair, hspan]
    simp only [readSpan_written h]
    rfl
  | paired first second strict =>
    have hfirst : spanText? (first.written ++ '/' :: (second.written ++ marks)) =
        some (first.written, '/' :: (second.written ++ marks)) := by
      apply spanText?_written
      rintro c ⟨⟩
      decide
    have hsecond := spanText?_written second hhead
    have htext : pairText? (first.written ++ '/' :: (second.written ++ marks)) =
        some ((first.written, second.written), marks) := by
      rw [pairText?, hfirst]
      simp only [Option.bind_eq_bind, Option.bind_some, hsecond]
    have hpair := extract?_of_eq_some
      (List.append_ne_nil_of_left_ne_nil (span_written_ne_nil first) _) htext
    have hs : (first.written ++ '/' :: (second.written ++ marks)).contains 's' = strict := by
      have hspan (span : Span) : 's' ∉ span.written := fun hmem =>
        absurd (isDistanceMark_of_mem_span hmem).1 (by decide)
      rw [Bool.eq_iff_iff, List.contains_iff_mem]
      simp only [List.mem_append, List.mem_cons, hspan, false_or]
      rw [← hstrict]
      simp [Distance.isStrict]
    rw [Distance.written, List.append_assoc, List.cons_append, readDistance, hpair]
    simp only [readSpan_written h.1, readSpan_written h.2, hs]
    rfl

end Distances

section Steps

variable (s : Step)

theorem mem_flag {mark c : Char} {present : Bool} :
    c ∈ flag mark present ↔ c = mark ∧ present = true := by
  cases present <;> simp [flag]

/-- The marks of steps. -/
def Step.markSet : List Char :=
  ['*', '+', 'x', '>', '<', '=', 'r', 'l', 's', 'i', 'd', '~', '^']

theorem Shape.mem_marks {shape : Shape} {c : Char} (h : c ∈ shape.marks) : c ∈ ['*', '+', 'x'] := by
  have hsub : shape.marks ⊆ ['*', '+', 'x'] := by cases shape <;> decide
  exact hsub h

theorem Heading.mem_marks {heading : Heading} {c : Char} (h : c ∈ heading.marks) :
    c ∈ ['>', '<', '='] := by
  have hsub : heading.marks ⊆ ['>', '<', '='] := by
    rcases heading with _ | (_ | _) | (_ | _) | _ | _ <;> decide
  exact hsub h

theorem Lateral.mem_marks {lateral : Lateral} {c : Char} (h : c ∈ lateral.marks) :
    c ∈ ['r', 'l'] := by
  have hsub : lateral.marks ⊆ ['r', 'l'] := by cases lateral <;> decide
  exact hsub h

/-- Each mark tells of one field of the step. -/
theorem Step.mem_marks {c : Char} : c ∈ s.marks ↔
    (c = 's' ∧ s.distance.isStrict = true) ∨ c ∈ s.shape.marks ∨ c ∈ s.heading.marks ∨
      c ∈ s.lateral.marks ∨ (c = 'i' ∧ s.firstMove = true) ∨ (c = 'd' ∧ s.dummy = true) ∨
      (c = '~' ∧ s.gait.leaper = true) ∨ (c = '^' ∧ s.gait.locust = true) := by
  simp only [Step.marks, Gait.marks, List.mem_append, mem_flag]

theorem Step.mem_markSet {c : Char} (h : c ∈ s.marks) : c ∈ Step.markSet := by
  have hshape : ['*', '+', 'x'] ⊆ Step.markSet := by decide
  have hheading : ['>', '<', '='] ⊆ Step.markSet := by decide
  have hlateral : ['r', 'l'] ⊆ Step.markSet := by decide
  rcases s.mem_marks.mp h with ⟨rfl, -⟩ | h | h | h | ⟨rfl, -⟩ | ⟨rfl, -⟩ | ⟨rfl, -⟩ | ⟨rfl, -⟩
  · decide
  · exact hshape (Shape.mem_marks h)
  · exact hheading (Heading.mem_marks h)
  · exact hlateral (Lateral.mem_marks h)
  all_goals decide

theorem Step.mem_marks_heading {c : Char} (hc : c ∈ ['>', '<', '=']) :
    c ∈ s.marks ↔ c ∈ s.heading.marks := by
  have hall : ∀ c ∈ ['>', '<', '='],
      c ∉ ['*', '+', 'x'] ∧ c ∉ ['r', 'l'] ∧ c ∉ ['s', 'i', 'd', '~', '^'] :=
    List.all_iff_forall_prop.mp (by decide)
  have hapart := hall c hc
  simp only [List.mem_cons, List.not_mem_nil, or_false, not_or] at hapart
  rw [s.mem_marks]
  constructor
  · rintro (h | h | h | h | h)
    · exact absurd h.1 hapart.2.2.1
    · simpa [hapart] using Shape.mem_marks h
    · exact h
    · simpa [hapart] using Lateral.mem_marks h
    · simp [hapart] at h
  · exact fun h => .inr (.inr (.inl h))

theorem Step.mem_marks_lateral {c : Char} (hc : c ∈ ['r', 'l']) :
    c ∈ s.marks ↔ c ∈ s.lateral.marks := by
  have hall : ∀ c ∈ ['r', 'l'],
      c ∉ ['*', '+', 'x'] ∧ c ∉ ['>', '<', '='] ∧ c ∉ ['s', 'i', 'd', '~', '^'] :=
    List.all_iff_forall_prop.mp (by decide)
  have hapart := hall c hc
  simp only [List.mem_cons, List.not_mem_nil, or_false, not_or] at hapart
  rw [s.mem_marks]
  constructor
  · rintro (h | h | h | h | h)
    · exact absurd h.1 hapart.2.2.1
    · simpa [hapart] using Shape.mem_marks h
    · simpa [hapart] using Heading.mem_marks h
    · exact h
    · simp [hapart] at h
  · exact fun h => .inr (.inr (.inr (.inl h)))

theorem Step.mem_marks_flag {c : Char} (hc : c ∈ ['s', 'i', 'd', '~', '^']) : c ∈ s.marks ↔
    (c = 's' ∧ s.distance.isStrict = true) ∨ (c = 'i' ∧ s.firstMove = true) ∨
      (c = 'd' ∧ s.dummy = true) ∨ (c = '~' ∧ s.gait.leaper = true) ∨
      (c = '^' ∧ s.gait.locust = true) := by
  have hall : ∀ c ∈ ['s', 'i', 'd', '~', '^'],
      c ∉ ['*', '+', 'x'] ∧ c ∉ ['>', '<', '='] ∧ c ∉ ['r', 'l'] :=
    List.all_iff_forall_prop.mp (by decide)
  have hapart := hall c hc
  have hshape : c ∉ s.shape.marks := fun h => hapart.1 (Shape.mem_marks h)
  have hheading : c ∉ s.heading.marks := fun h => hapart.2.1 (Heading.mem_marks h)
  have hlateral : c ∉ s.lateral.marks := fun h => hapart.2.2 (Lateral.mem_marks h)
  simp only [s.mem_marks, hshape, hheading, hlateral, false_or]

private theorem contains_congr {marks others : List Char} {c : Char}
    (h : c ∈ marks ↔ c ∈ others) : marks.contains c = others.contains c := by
  rw [Bool.eq_iff_iff, List.contains_iff_mem, List.contains_iff_mem, h]

variable {s}

theorem readHeading_marks (h : s.Canonical) : readHeading s.marks = s.heading := by
  rw [readHeading, contains_congr (s.mem_marks_heading (c := '=') (by decide)),
    contains_congr (s.mem_marks_heading (c := '>') (by decide)),
    contains_congr (s.mem_marks_heading (c := '<') (by decide)),
    contains_congr (s.mem_marks_lateral (c := 'r') (by decide)),
    contains_congr (s.mem_marks_lateral (c := 'l') (by decide))]
  have hlateral := h.lateral
  rcases hheading : s.heading with _ | (_ | _) | (_ | _) | _ | _
  · rfl
  · rw [hlateral (.inl hheading)]
    rfl
  · rfl
  · rw [hlateral (.inr hheading)]
    rfl
  all_goals rfl

theorem readLateral_marks (s : Step) : readLateral s.marks = s.lateral := by
  rw [readLateral, contains_congr (s.mem_marks_lateral (c := 'r') (by decide)),
    contains_congr (s.mem_marks_lateral (c := 'l') (by decide))]
  cases s.lateral <;> rfl

theorem filterMap_shapeMark? (s : Step) :
    s.marks.filterMap shapeMark? = s.shape.marks.filterMap shapeMark? := by
  have hflag (mark : Char) (hmark : shapeMark? mark = none) (present : Bool) :
      (flag mark present).filterMap shapeMark? = [] := by
    cases present
    · rfl
    · rw [flag, if_pos rfl, List.filterMap_cons_none hmark, List.filterMap_nil]
  have hheading : s.heading.marks.filterMap shapeMark? = [] := by
    rcases s.heading with _ | (_ | _) | (_ | _) | _ | _ <;> rfl
  have hlateral : s.lateral.marks.filterMap shapeMark? = [] := by
    cases s.lateral <;> rfl
  simp only [Step.marks, Gait.marks, List.filterMap_append, hheading, hlateral, hflag 's' rfl,
    hflag 'i' rfl, hflag 'd' rfl, hflag '~' rfl, hflag '^' rfl, List.append_nil, List.nil_append]

theorem readShape_marks (clause : List Char) (h : s.Canonical) :
    readShape clause s.marks s.distance = .ok s.shape := by
  unfold readShape
  rw [filterMap_shapeMark?]
  rcases hshape : s.shape with _ | _ | _ | _
  · rfl
  · rfl
  · rfl
  · have hpaired := h.free hshape
    rcases hdistance : s.distance with _ | span | ⟨first, second, strict⟩
    · rw [hdistance] at hpaired
      cases hpaired
    · rw [hdistance] at hpaired
      cases hpaired
    · rfl

/-- A canonical step is read from its written form. -/
theorem readStep_written (clause : List Char) (h : s.Canonical) :
    readStep clause s.written = .ok s := by
  have hset : ∀ c ∈ Step.markSet, isDistanceMark c = false :=
    List.all_iff_forall_prop.mp (by decide)
  have hmarks : ∀ c ∈ s.marks, isDistanceMark c = false := fun c hc =>
    hset c (s.mem_markSet hc)
  have hany : s.marks.any isDistanceMark = false := by
    rw [List.any_eq_false]
    intro c hc
    rw [hmarks c hc]
    decide
  have hflag {c : Char} (hc : c ∈ ['s', 'i', 'd', '~', '^']) := s.mem_marks_flag hc
  have hcontains (c : Char) (present : Bool) (h : c ∈ s.marks ↔ present = true) :
      s.marks.contains c = present := by
    rw [Bool.eq_iff_iff, List.contains_iff_mem, h]
  have hstrict : s.distance.isStrict = true ↔ 's' ∈ s.marks := by simp [hflag]
  have hfirst := hcontains 'i' s.firstMove (by simp [hflag])
  have hdummy := hcontains 'd' s.dummy (by simp [hflag])
  have hleaper := hcontains '~' s.gait.leaper (by simp [hflag])
  have hlocust := hcontains '^' s.gait.locust (by simp [hflag])
  rw [readStep, Step.written, readDistance_written h.distance hmarks hstrict]
  change (if s.marks.any isDistanceMark then _ else _) = _
  rw [hany, if_neg Bool.false_ne_true, readShape_marks clause h]
  change Except.ok _ = _
  rw [readHeading_marks h, readLateral_marks, hfirst, hdummy, hleaper, hlocust]

end Steps

end FairyChess
