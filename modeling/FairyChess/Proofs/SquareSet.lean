import FairyChess.Proofs.Bounds
import FairyChess.SquareSet
import Mathlib.Data.Finset.Card
import Mathlib.Data.Finset.Lattice.Basic

/-! Sets of squares as words, against finite sets of squares. -/
namespace FairyChess

namespace Word

variable {w : Word} {i j : ℕ}

theorem getLsbD_mark (hi : i < maxArea) : (w.mark i).getLsbD j = (w.getLsbD j || decide (j = i)) := by
  rw [mark, BitVec.getLsbD_or, BitVec.getLsbD_twoPow]
  simp [hi, eq_comm]

theorem getLsbD_of_lt_trailingZeros (h : j < w.trailingZeros) : w.getLsbD j = false := by
  unfold trailingZeros at h
  cases hfind : (List.range maxArea).find? (w.getLsbD ·) with
  | some i =>
    rw [hfind] at h
    have hbelow := (List.find?_range_eq_some.mp hfind).2.2 j h
    simpa using hbelow
  | none =>
    rw [hfind] at h
    have hnone := List.find?_eq_none.mp hfind j (List.mem_range.mpr h)
    exact Bool.eq_false_iff.mpr hnone

theorem trailingZeros_le (h : w.getLsbD j = true) : w.trailingZeros ≤ j := by
  by_contra hlt
  rw [getLsbD_of_lt_trailingZeros (by omega)] at h
  cases h

theorem ones_zero : ones 0 = [] := by
  rw [ones, dif_pos rfl]

theorem ones_of_ne_zero (hw : w ≠ 0) : w.ones = w.trailingZeros :: (w.unmark w.trailingZeros).ones := by
  rw [ones, dif_neg hw]

theorem mem_ones : i ∈ w.ones ↔ w.getLsbD i = true := by
  induction w using ones.induct with
  | case1 =>
    rw [ones_zero]
    simp
  | case2 w hw ih =>
    rw [ones_of_ne_zero hw, List.mem_cons, ih, getLsbD_unmark, Bool.and_eq_true, decide_eq_true_iff]
    constructor
    · rintro (h | ⟨h, -⟩)
      · rw [h]
        exact getLsbD_trailingZeros hw
      · exact h
    · intro h
      by_cases hi : i = w.trailingZeros
      · exact .inl hi
      · exact .inr ⟨h, hi⟩

theorem pairwise_ones (w : Word) : w.ones.Pairwise (· < ·) := by
  induction w using ones.induct with
  | case1 =>
    rw [ones_zero]
    exact .nil
  | case2 w hw ih =>
    rw [ones_of_ne_zero hw]
    refine .cons (fun j hj => ?_) ih
    rw [mem_ones, getLsbD_unmark, Bool.and_eq_true, decide_eq_true_iff] at hj
    exact lt_of_le_of_ne (trailingZeros_le hj.1) (Ne.symm hj.2)

theorem nodup_ones (w : Word) : w.ones.Nodup :=
  w.pairwise_ones.imp ne_of_lt

theorem cpopNatRec_eq_countP (w : Word) (n : ℕ) :
    w.cpopNatRec n 0 = (List.range n).countP (w.getLsbD ·) := by
  induction n with
  | zero => rfl
  | succ n ih =>
    rw [BitVec.cpopNatRec_succ, BitVec.cpopNatRec_add, ih, List.range_succ, List.countP_append,
      List.countP_singleton]
    cases w.getLsbD n <;> rfl

/-- Counting the ones and finding them one by one give the same number. -/
theorem toNat_cpop (w : Word) : w.cpop.toNat = w.ones.length := by
  have hperm : ((List.range maxArea).filter (w.getLsbD ·)).Perm w.ones := by
    refine (List.perm_ext_iff_of_nodup (List.nodup_range.filter _) w.nodup_ones).mpr fun i => ?_
    rw [List.mem_filter, List.mem_range, mem_ones, and_iff_right_iff_imp]
    exact BitVec.lt_of_getLsbD
  rw [BitVec.toNat_cpop, cpopNatRec_eq_countP, List.countP_eq_length_filter, hperm.length_eq]

end Word

/-- The first of two squares has the lower index. -/
def Bounds.Before (b : Bounds) (s t : Square) : Prop :=
  ∃ i j, b.index? s = some i ∧ b.index? t = some j ∧ i < j

namespace SquareSet
open Word

variable {b : Bounds} {x y : SquareSet} {S T : Finset Square}

/-- The ones of the word are the indices of the members. -/
structure Represents (x : SquareSet) (b : Bounds) (S : Finset Square) : Prop where
  bounds : x.bounds = b
  onBoard : ∀ s ∈ S, s ∈ b
  digit : ∀ i, x.bits.getLsbD i = true ↔ ∃ s ∈ S, b.index? s = some i

section Operations

theorem represents_empty (b : Bounds) : Represents ⟨b, 0⟩ b ∅ where
  bounds := rfl
  onBoard := nofun
  digit i := by simp

theorem Represents.insert (harea : b.area ≤ maxArea) (hx : x.Represents b S) {s : Square} (hs : s ∈ b) :
    (x.insert s).Represents b (Insert.insert s S) := by
  obtain ⟨n, hn⟩ := Bounds.exists_index? hs
  have hlt : n < maxArea := ((Bounds.index?_eq_some_iff harea).mp hn).1.trans_le harea
  have hinsert : x.insert s = { x with bits := x.bits.mark n } := by
    rw [SquareSet.insert, hx.bounds, hn]
  rw [hinsert]
  refine ⟨hx.bounds, fun t ht => ?_, fun i => ?_⟩
  · rcases Finset.mem_insert.mp ht with rfl | ht
    · exact hs
    · exact hx.onBoard t ht
  · rw [getLsbD_mark hlt, Bool.or_eq_true, hx.digit, decide_eq_true_iff, Finset.exists_mem_insert, hn,
      Option.some.injEq, or_comm, eq_comm]

theorem Represents.foldl_insert (harea : b.area ≤ maxArea) (hx : x.Represents b S) {squares : List Square}
    (hsquares : ∀ s ∈ squares, s ∈ b) :
    (squares.foldl SquareSet.insert x).Represents b (S ∪ squares.toFinset) := by
  induction squares generalizing x S with
  | nil => simpa using hx
  | cons s squares ih =>
    obtain ⟨hs, hsquares⟩ := List.forall_mem_cons.mp hsquares
    have hset : S ∪ (s :: squares).toFinset = Insert.insert s S ∪ squares.toFinset := by
      rw [List.toFinset_cons, Finset.insert_union, Finset.union_insert]
    rw [List.foldl_cons, hset]
    exact ih (hx.insert harea hs) hsquares

theorem represents_ofList (harea : b.area ≤ maxArea) {squares : List Square} (hsquares : ∀ s ∈ squares, s ∈ b) :
    (ofList b squares).Represents b squares.toFinset := by
  have hrepresents := (represents_empty b).foldl_insert harea hsquares
  rwa [Finset.empty_union] at hrepresents

theorem Represents.erase (harea : b.area ≤ maxArea) (hx : x.Represents b S) (s : Square) :
    (x.erase s).Represents b (S.erase s) := by
  have honBoard : ∀ t ∈ S.erase s, t ∈ b := fun t ht => hx.onBoard t (Finset.mem_of_mem_erase ht)
  cases hn : b.index? s with
  | none =>
    have herase : x.erase s = x := by rw [SquareSet.erase, hx.bounds, hn]
    have hs : s ∉ S := by
      intro hs
      obtain ⟨n, hsome⟩ := Bounds.exists_index? (hx.onBoard s hs)
      rw [hn] at hsome
      cases hsome
    rw [herase, Finset.erase_eq_of_notMem hs]
    exact hx
  | some n =>
    have herase : x.erase s = { x with bits := x.bits.unmark n } := by
      rw [SquareSet.erase, hx.bounds, hn]
    rw [herase]
    refine ⟨hx.bounds, honBoard, fun i => ?_⟩
    rw [getLsbD_unmark, Bool.and_eq_true, hx.digit, decide_eq_true_iff]
    constructor
    · rintro ⟨⟨t, ht, hi⟩, hne⟩
      refine ⟨t, Finset.mem_erase.mpr ⟨?_, ht⟩, hi⟩
      rintro rfl
      exact hne (Option.some.inj (hi.symm.trans hn))
    · rintro ⟨t, ht, hi⟩
      obtain ⟨hne, ht⟩ := Finset.mem_erase.mp ht
      refine ⟨⟨t, ht, hi⟩, ?_⟩
      rintro rfl
      exact hne (Bounds.index?_inj harea hi hn)

theorem Represents.union (hx : x.Represents b S) (hy : y.Represents b T) :
    (x.union y).Represents b (S ∪ T) where
  bounds := hx.bounds
  onBoard s hs := (Finset.mem_union.mp hs).elim (hx.onBoard s) (hy.onBoard s)
  digit i := by
    change (x.bits ||| y.bits).getLsbD i = true ↔ _
    rw [BitVec.getLsbD_or, Bool.or_eq_true, hx.digit, hy.digit]
    simp only [Finset.mem_union, or_and_right, exists_or]

theorem Represents.inter (harea : b.area ≤ maxArea) (hx : x.Represents b S) (hy : y.Represents b T) :
    (x.inter y).Represents b (S ∩ T) where
  bounds := hx.bounds
  onBoard s hs := hx.onBoard s (Finset.mem_inter.mp hs).1
  digit i := by
    change (x.bits &&& y.bits).getLsbD i = true ↔ _
    rw [BitVec.getLsbD_and, Bool.and_eq_true, hx.digit, hy.digit]
    constructor
    · rintro ⟨⟨s, hs, hi⟩, t, ht, hj⟩
      obtain rfl := Bounds.index?_inj harea hi hj
      exact ⟨s, Finset.mem_inter.mpr ⟨hs, ht⟩, hi⟩
    · rintro ⟨s, hs, hi⟩
      obtain ⟨hS, hT⟩ := Finset.mem_inter.mp hs
      exact ⟨⟨s, hS, hi⟩, s, hT, hi⟩

end Operations

/-- What can be observed of a set of squares of a board whose members are `S`. -/
structure Shows (x : SquareSet) (b : Bounds) (S : Finset Square) : Prop where
  contains_iff : ∀ s, x.contains s = true ↔ s ∈ S
  contains_off_board : ∀ s, s ∉ b → x.contains s = false
  mem_squares : ∀ s, s ∈ x.squares ↔ s ∈ S
  nodup_squares : x.squares.Nodup
  pairwise_squares : x.squares.Pairwise b.Before
  size_eq : x.size = S.card
  isEmpty_iff : x.isEmpty = true ↔ S = ∅
  first?_eq_none_iff : x.first? = none ↔ S = ∅
  first?_eq_some_iff : ∀ s, x.first? = some s ↔ s ∈ S ∧ ∀ t ∈ S, t ≠ s → b.Before s t

section Observations

variable (harea : b.area ≤ maxArea) (hx : x.Represents b S)
include harea hx

theorem Represents.contains_iff (s : Square) : x.contains s = true ↔ s ∈ S := by
  rw [contains, hx.bounds, Option.any_eq_true]
  simp only [hx.digit]
  constructor
  · rintro ⟨i, hi, t, ht, hj⟩
    rwa [Bounds.index?_inj harea hi hj]
  · intro hs
    obtain ⟨i, hi⟩ := Bounds.exists_index? (hx.onBoard s hs)
    exact ⟨i, hi, s, hs, hi⟩

theorem Represents.exists_of_digit {i : ℕ} (hi : x.bits.getLsbD i = true) :
    b.square i ∈ S ∧ b.index? (b.square i) = some i := by
  obtain ⟨s, hs, hindex⟩ := (hx.digit i).mp hi
  rw [((Bounds.index?_eq_some_iff harea).mp hindex).2]
  exact ⟨hs, hindex⟩

theorem Represents.mem_squares (s : Square) : s ∈ x.squares ↔ s ∈ S := by
  rw [squares, List.mem_map, hx.bounds]
  simp only [mem_ones]
  constructor
  · rintro ⟨i, hi, rfl⟩
    exact (hx.exists_of_digit harea hi).1
  · intro hs
    obtain ⟨i, hi⟩ := Bounds.exists_index? (hx.onBoard s hs)
    exact ⟨i, (hx.digit i).mpr ⟨s, hs, hi⟩, ((Bounds.index?_eq_some_iff harea).mp hi).2⟩

theorem Represents.pairwise_squares : x.squares.Pairwise b.Before := by
  rw [squares, hx.bounds, List.pairwise_map]
  refine (pairwise_ones x.bits).imp_of_mem fun {i j} hi hj hlt => ?_
  exact ⟨i, j, (hx.exists_of_digit harea (mem_ones.mp hi)).2,
    (hx.exists_of_digit harea (mem_ones.mp hj)).2, hlt⟩

theorem Represents.nodup_squares : x.squares.Nodup := by
  refine (hx.pairwise_squares harea).imp ?_
  rintro s t ⟨i, j, hi, hj, hlt⟩ rfl
  rw [hi, Option.some.injEq] at hj
  omega

theorem Represents.size_eq : x.size = S.card := by
  have hset : x.squares.toFinset = S := by
    ext s
    rw [List.mem_toFinset, hx.mem_squares harea]
  rw [size, toNat_cpop, ← hset, List.toFinset_card_of_nodup (hx.nodup_squares harea), squares,
    List.length_map]

omit harea in
theorem Represents.isEmpty_iff : x.isEmpty = true ↔ S = ∅ := by
  rw [isEmpty, beq_iff_eq]
  constructor
  · intro hzero
    refine Finset.eq_empty_of_forall_notMem fun s hs => ?_
    obtain ⟨i, hi⟩ := Bounds.exists_index? (hx.onBoard s hs)
    have hdigit := (hx.digit i).mpr ⟨s, hs, hi⟩
    rw [hzero] at hdigit
    simp at hdigit
  · rintro rfl
    by_contra hne
    obtain ⟨s, hs, -⟩ := (hx.digit _).mp (getLsbD_trailingZeros hne)
    exact absurd hs (Finset.notMem_empty s)

omit harea in
theorem Represents.first?_eq_none_iff : x.first? = none ↔ S = ∅ := by
  rw [← hx.isEmpty_iff, first?]
  split
  · next h => exact iff_of_true rfl h
  · next h => exact iff_of_false nofun h

/-- The lowest one of the word is the index of a member that comes before all others. -/
theorem Represents.first?_spec {s : Square} (h : x.first? = some s) :
    s ∈ S ∧ ∀ t ∈ S, t ≠ s → b.Before s t := by
  unfold first? at h
  split at h
  · cases h
  next hempty =>
  have hne : x.bits ≠ 0 := fun hzero => hempty (beq_iff_eq.mpr hzero)
  obtain ⟨hmem, hindex⟩ := hx.exists_of_digit harea (getLsbD_trailingZeros hne)
  obtain rfl : x.bounds.square x.bits.trailingZeros = s := Option.some.inj h
  rw [hx.bounds]
  refine ⟨hmem, fun t ht hts => ?_⟩
  obtain ⟨j, hj⟩ := Bounds.exists_index? (hx.onBoard t ht)
  refine ⟨_, j, hindex, hj, lt_of_le_of_ne (trailingZeros_le ((hx.digit j).mpr ⟨t, ht, hj⟩)) ?_⟩
  intro hequal
  rw [← hequal] at hj
  exact hts (Bounds.index?_inj harea hj hindex)

theorem Represents.shows : x.Shows b S where
  contains_iff := hx.contains_iff harea
  contains_off_board s hs := by
    rw [Bool.eq_false_iff, Ne, hx.contains_iff harea]
    exact fun hmem => hs (hx.onBoard s hmem)
  mem_squares := hx.mem_squares harea
  nodup_squares := hx.nodup_squares harea
  pairwise_squares := hx.pairwise_squares harea
  size_eq := hx.size_eq harea
  isEmpty_iff := hx.isEmpty_iff
  first?_eq_none_iff := hx.first?_eq_none_iff
  first?_eq_some_iff s := by
    refine ⟨hx.first?_spec harea, ?_⟩
    rintro ⟨hs, hbefore⟩
    cases hfirst : x.first? with
    | none =>
      rw [(hx.first?_eq_none_iff).mp hfirst] at hs
      exact absurd hs (Finset.notMem_empty s)
    | some t =>
      obtain ⟨ht, hleast⟩ := hx.first?_spec harea hfirst
      by_contra hne
      have hts : t ≠ s := fun h => hne (congrArg some h)
      obtain ⟨i, j, hi, hj, hlt⟩ := hbefore t ht hts
      obtain ⟨k, l, hk, hl, hgt⟩ := hleast s hs hts.symm
      rw [hi, Option.some.injEq] at hl
      rw [hj, Option.some.injEq] at hk
      omega

theorem Represents.eq_iff (hy : y.Represents b T) : x = y ↔ S = T := by
  constructor
  · rintro rfl
    ext s
    rw [← hx.contains_iff harea, hy.contains_iff harea]
  · rintro rfl
    have hbounds : x.bounds = y.bounds := hx.bounds.trans hy.bounds.symm
    have hbits : x.bits = y.bits := by
      refine BitVec.eq_of_getLsbD_eq fun i _ => ?_
      rw [Bool.eq_iff_iff, hx.digit, hy.digit]
    cases x
    cases y
    simp_all

end Observations

/-- The ways in which a set of squares of a board comes about. -/
inductive Build (b : Bounds)
  | empty
  | insert (s : Square) (hs : s ∈ b) (x : Build b)
  | erase (s : Square) (x : Build b)
  | union (x y : Build b)
  | inter (x y : Build b)

namespace Build

def run {b : Bounds} : Build b → SquareSet
  | empty => ⟨b, 0⟩
  | insert s _ x => x.run.insert s
  | erase s x => x.run.erase s
  | union x y => x.run.union y.run
  | inter x y => x.run.inter y.run

/-- The same operations on finite sets. -/
def members {b : Bounds} : Build b → Finset Square
  | empty => ∅
  | insert s _ x => Insert.insert s x.members
  | erase s x => x.members.erase s
  | union x y => x.members ∪ y.members
  | inter x y => x.members ∩ y.members

theorem represents_run (harea : b.area ≤ maxArea) (x : Build b) : x.run.Represents b x.members := by
  induction x with
  | empty => exact represents_empty b
  | insert s hs x ih => exact ih.insert harea hs
  | erase s x ih => exact ih.erase harea s
  | union x y ihx ihy => exact ihx.union ihy
  | inter x y ihx ihy => exact ihx.inter harea ihy

/--
Whatever operations lead to a set of squares of a board, all that can be observed of it is what holds of
the finite set that they lead to. Two sets of squares of a board are equal when they have the same
members.
-/
theorem shows_run (harea : b.area ≤ maxArea) (x : Build b) :
    x.run.Shows b x.members ∧ ∀ y : Build b, x.run = y.run ↔ x.members = y.members :=
  ⟨(x.represents_run harea).shows harea,
    fun y => (x.represents_run harea).eq_iff harea (y.represents_run harea)⟩

theorem shows_run_offset :
    let b : Bounds := ⟨-1, 63, 2, 66⟩
    let x : Build b := .erase ⟨5, 5⟩ (.union (.insert ⟨62, 65⟩ (by decide) .empty)
      (.insert ⟨5, 5⟩ (by decide) (.insert ⟨-1, 2⟩ (by decide) .empty)))
    b.area ≤ maxArea ∧ x.run.Shows b {⟨62, 65⟩, ⟨-1, 2⟩} :=
  ⟨by decide, (shows_run (by decide) _).1⟩

end Build

end SquareSet

end FairyChess
