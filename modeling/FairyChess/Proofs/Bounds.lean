import FairyChess.Bounds
import Mathlib.Data.List.Nodup
import Mathlib.Data.Set.Function
import Mathlib.Tactic

/-! The squares of a board: each is listed once, and each has a number of its own. -/
namespace FairyChess

/-- By file, then by rank. -/
def Square.Precedes (s t : Square) : Prop :=
  s.file < t.file ∨ s.file = t.file ∧ s.rank < t.rank

theorem Square.Precedes.ne {s t : Square} (h : s.Precedes t) : s ≠ t := by
  rintro rfl
  rcases h with h | ⟨-, h⟩
  · exact lt_irrefl _ h
  · exact lt_irrefl _ h

namespace Bounds

theorem mem_interval {lo hi x : ℤ} : x ∈ interval lo hi ↔ lo ≤ x ∧ x < hi := by
  simp only [interval, List.mem_map, List.mem_range]
  constructor
  · rintro ⟨i, hi, rfl⟩
    omega
  · intro h
    exact ⟨(x - lo).toNat, by omega, by omega⟩

theorem pairwise_interval (lo hi : ℤ) : (interval lo hi).Pairwise (· < ·) := by
  rw [interval, List.pairwise_map]
  exact List.pairwise_lt_range.imp fun h => by omega

theorem nodup_interval (lo hi : ℤ) : (interval lo hi).Nodup :=
  (pairwise_interval lo hi).imp ne_of_lt

theorem length_interval (lo hi : ℤ) : (interval lo hi).length = (hi - lo).toNat := by
  rw [interval, List.length_map, List.length_range]

theorem reverse_interval (lo hi : ℤ) :
    (interval lo hi).reverse = (List.range (hi - lo).toNat).map fun i : ℕ => hi - 1 - i := by
  rw [interval, ← List.map_reverse, List.range_eq_range', List.reverse_range', List.map_map,
    ← List.range_eq_range']
  refine List.map_congr_left fun i hi => ?_
  have hlt := List.mem_range.mp hi
  simp only [Function.comp_apply]
  omega

variable {b : Bounds}

theorem mem_squares {s : Square} : s ∈ b.squares ↔ s ∈ b := by
  obtain ⟨file, rank⟩ := s
  simp only [squares, List.mem_flatMap, List.mem_map, mem_interval, Square.mk.injEq]
  constructor
  · rintro ⟨x, hx, y, hy, rfl, rfl⟩
    exact ⟨hx, hy⟩
  · rintro ⟨hfile, hrank⟩
    exact ⟨file, hfile, rank, hrank, rfl, rfl⟩

theorem pairwise_squares (b : Bounds) : b.squares.Pairwise Square.Precedes := by
  rw [squares, List.pairwise_flatMap]
  constructor
  · intro x _
    exact List.pairwise_map.mpr ((pairwise_interval b.bottom b.top).imp fun h => .inr ⟨rfl, h⟩)
  · refine (pairwise_interval b.left b.right).imp fun {x x'} hlt s hs t ht => ?_
    obtain ⟨y, -, rfl⟩ := List.mem_map.mp hs
    obtain ⟨y', -, rfl⟩ := List.mem_map.mp ht
    exact .inl hlt

theorem nodup_squares (b : Bounds) : b.squares.Nodup :=
  b.pairwise_squares.imp Square.Precedes.ne

section Offsets

theorem area_pos_of_mem {s : Square} (hs : s ∈ b) : 0 < b.area := by
  obtain ⟨⟨hleft, hright⟩, hbottom, htop⟩ := hs
  refine Nat.mul_pos (lt_min ?_ (by decide)) (lt_min ?_ (by decide))
  · omega
  · omega

theorem files_le_area (hpos : 0 < b.area) : b.files ≤ b.area :=
  Nat.le_mul_of_pos_right _ (Nat.pos_of_mul_pos_left hpos)

theorem ranks_le_area (hpos : 0 < b.area) : b.ranks ≤ b.area :=
  Nat.le_mul_of_pos_left _ (Nat.pos_of_mul_pos_right hpos)

/-- On a board of limited area no count of files or ranks is cut off. -/
theorem spans_of_area_le (harea : b.area ≤ maxArea) (hpos : 0 < b.area) :
    (b.files : ℤ) = b.right - b.left ∧ (b.ranks : ℤ) = b.top - b.bottom := by
  have hfiles : 0 < b.files := Nat.pos_of_mul_pos_right hpos
  have hranks : 0 < b.ranks := Nat.pos_of_mul_pos_left hpos
  have hfilesLe := files_le_area hpos
  have hranksLe := ranks_le_area hpos
  have hcap : maxArea < maxSpan := by decide
  unfold files ranks at *
  omega

/-- The files of a board that is not too large, from the left. -/
theorem interval_files (harea : b.area ≤ maxArea) (hpos : 0 < b.area) :
    interval b.left b.right = (List.range' 0 b.files).map fun j : ℕ => b.left + j := by
  have hfiles : (b.right - b.left).toNat = b.files := by
    rw [← (spans_of_area_le harea hpos).1, Int.toNat_natCast]
  rw [interval, hfiles, List.range_eq_range']

theorem reverse_interval_ranks (harea : b.area ≤ maxArea) (hpos : 0 < b.area) :
    (interval b.bottom b.top).reverse = (List.range' 0 b.ranks).map fun i : ℕ => b.top - 1 - i := by
  have hranks : (b.top - b.bottom).toNat = b.ranks := by
    rw [← (spans_of_area_le harea hpos).2, Int.toNat_natCast]
  rw [reverse_interval, hranks, List.range_eq_range']

variable {x y : ℕ}

theorem mem_offsets (harea : b.area ≤ maxArea) (hx : x < b.files) (hy : y < b.ranks) :
    (⟨b.left + x, b.bottom + y⟩ : Square) ∈ b := by
  have hpos : 0 < b.area := Nat.mul_pos (Nat.zero_lt_of_lt hx) (Nat.zero_lt_of_lt hy)
  obtain ⟨hfiles, hranks⟩ := spans_of_area_le harea hpos
  change (_ ∧ _) ∧ _ ∧ _
  dsimp only
  omega

theorem exists_offsets (harea : b.area ≤ maxArea) {s : Square} (hs : s ∈ b) :
    ∃ x y : ℕ, x < b.files ∧ y < b.ranks ∧ s = ⟨b.left + x, b.bottom + y⟩ := by
  obtain ⟨hfiles, hranks⟩ := spans_of_area_le harea (area_pos_of_mem hs)
  obtain ⟨file, rank⟩ := s
  obtain ⟨⟨hleft, hright⟩, hbottom, htop⟩ := hs
  dsimp only at hleft hright hbottom htop
  refine ⟨(file - b.left).toNat, (rank - b.bottom).toNat, by omega, by omega, ?_⟩
  rw [Square.mk.injEq]
  omega

theorem index?_offsets (harea : b.area ≤ maxArea) (hx : x < b.files) (hy : y < b.ranks) :
    b.index? ⟨b.left + x, b.bottom + y⟩ = some (y * b.files + x) := by
  rw [index?, if_pos (mem_offsets harea hx hy)]
  dsimp only
  rw [add_sub_cancel_left, add_sub_cancel_left, Int.toNat_natCast, Int.toNat_natCast]

theorem square_natCast (b : Bounds) (i : ℕ) :
    b.square i = ⟨b.left + (i % b.files : ℕ), b.bottom + (i / b.files : ℕ)⟩ := by
  rw [square, Int.ofNat_tmod, Int.ofNat_tdiv]

theorem exists_index? {s : Square} (hs : s ∈ b) : ∃ i, b.index? s = some i :=
  ⟨_, if_pos hs⟩

theorem mem_of_index? {s : Square} {i : ℕ} (h : b.index? s = some i) : s ∈ b := by
  by_contra hs
  rw [index?, if_neg hs] at h
  cases h

/-- The numbers below the area are those of the squares of the board, and each is of one square. -/
theorem index?_eq_some_iff (harea : b.area ≤ maxArea) {s : Square} {i : ℕ} :
    b.index? s = some i ↔ i < b.area ∧ b.square i = s := by
  rw [square_natCast]
  constructor
  · intro h
    obtain ⟨x, y, hx, hy, rfl⟩ := exists_offsets harea (mem_of_index? h)
    rw [index?_offsets harea hx hy] at h
    obtain rfl := Option.some.inj h
    have hmod : (y * b.files + x) % b.files = x := by
      rw [Nat.mul_add_mod_self_right, Nat.mod_eq_of_lt hx]
    have hdiv : (y * b.files + x) / b.files = y := by
      rw [Nat.mul_comm, Nat.mul_add_div (Nat.zero_lt_of_lt hx), Nat.div_eq_of_lt hx, Nat.add_zero]
    refine ⟨?_, by rw [hmod, hdiv]⟩
    calc y * b.files + x
        < y * b.files + b.files := Nat.add_lt_add_left hx _
      _ = (y + 1) * b.files := (Nat.succ_mul _ _).symm
      _ ≤ b.ranks * b.files := Nat.mul_le_mul_right _ hy
      _ = b.area := Nat.mul_comm _ _
  · rintro ⟨hi, rfl⟩
    have hfiles : 0 < b.files := Nat.pos_of_mul_pos_right (Nat.zero_lt_of_lt hi)
    rw [index?_offsets harea (Nat.mod_lt i hfiles) (Nat.div_lt_of_lt_mul hi), Nat.div_add_mod']

theorem index?_inj (harea : b.area ≤ maxArea) {s t : Square} {i : ℕ} (hs : b.index? s = some i)
    (ht : b.index? t = some i) : s = t :=
  ((index?_eq_some_iff harea).mp hs).2.symm.trans ((index?_eq_some_iff harea).mp ht).2

/-- Counts that are cut off do not matter: where the area is limited, one beside them is zero. -/
theorem length_squares (harea : b.area ≤ maxArea) : b.squares.length = b.area := by
  have hlength : b.squares.length = (b.right - b.left).toNat * (b.top - b.bottom).toNat := by
    simp only [squares, List.length_flatMap, List.length_map, length_interval, List.map_const',
      List.sum_replicate, smul_eq_mul]
  rw [hlength]
  rcases Nat.eq_zero_or_pos b.area with hzero | hpos
  · have hcap : 0 < maxSpan := by decide
    have hempty : b.files = 0 ∨ b.ranks = 0 := Nat.mul_eq_zero.mp hzero
    have hspan : (b.right - b.left).toNat = 0 ∨ (b.top - b.bottom).toNat = 0 := by
      unfold files ranks at hempty
      omega
    rw [hzero, Nat.mul_eq_zero]
    exact hspan
  · obtain ⟨hfiles, hranks⟩ := spans_of_area_le harea hpos
    rw [← hfiles, ← hranks, Int.toNat_natCast, Int.toNat_natCast, area]

theorem index?_bijOn (harea : b.area ≤ maxArea) :
    Set.BijOn b.index? {s | s ∈ b} (some '' {i | i < b.area}) := by
  refine ⟨fun s hs => ?_, fun s hs t ht h => ?_, ?_⟩
  · obtain ⟨i, hi⟩ := exists_index? hs
    exact ⟨i, ((index?_eq_some_iff harea).mp hi).1, hi.symm⟩
  · obtain ⟨i, hi⟩ := exists_index? hs
    exact index?_inj harea hi (h.symm.trans hi)
  · rintro _ ⟨i, hi, rfl⟩
    have hindex : b.index? (b.square i) = some i := (index?_eq_some_iff harea).mpr ⟨hi, rfl⟩
    exact ⟨b.square i, mem_of_index? hindex, hindex⟩

/--
On a board of limited area the squares are listed once each, file by file and upward on each, and there are
as many as the area says. They have the numbers below the area, a number each, and no other square has one.
The square with a number is the one that has it.
-/
theorem squares_numbered (harea : b.area ≤ maxArea) :
    ((∀ s, s ∈ b.squares ↔ s ∈ b) ∧ b.squares.Nodup ∧ b.squares.length = b.area ∧
      b.squares.Pairwise Square.Precedes) ∧
    (Set.BijOn b.index? {s | s ∈ b} (some '' {i | i < b.area}) ∧ ∀ s, s ∉ b → b.index? s = none) ∧
    (∀ i < b.area, b.index? (b.square i) = some i) ∧ ∀ s i, b.index? s = some i → b.square i = s := by
  refine ⟨⟨fun s => mem_squares, b.nodup_squares, length_squares harea, b.pairwise_squares⟩,
    ⟨index?_bijOn harea, fun s hs => if_neg hs⟩, fun i hi => ?_, fun s i h => ?_⟩
  · exact (index?_eq_some_iff harea).mpr ⟨hi, rfl⟩
  · exact ((index?_eq_some_iff harea).mp h).2

/-- Five files and three ranks off the origin. The second square that is listed has the sixth number. -/
theorem squares_numbered_offset :
    let b : Bounds := ⟨-2, 3, 7, 10⟩
    b.area ≤ maxArea ∧ b.squares.length = 15 ∧
      Set.BijOn b.index? {s | s ∈ b} (some '' {i | i < 15}) ∧
      b.squares[1]? = some ⟨-2, 8⟩ ∧ b.index? (b.square 5) = some 5 ∧ b.square 5 = ⟨-2, 8⟩ ∧
      b.index? ⟨3, 8⟩ = none := by
  intro b
  have harea : b.area ≤ maxArea := by decide
  obtain ⟨⟨-, -, hlength, -⟩, ⟨hbij, hoff⟩, hindex, -⟩ := squares_numbered harea
  exact ⟨harea, hlength, hbij, rfl, hindex 5 (by decide), by decide, hoff ⟨3, 8⟩ (by decide)⟩

end Offsets

end Bounds

end FairyChess
