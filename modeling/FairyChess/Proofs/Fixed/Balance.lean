import FairyChess.Proofs.Fixed.Apply
import FairyChess.Proofs.Move.Balance
import FairyChess.Proofs.Position.Material
import Mathlib

/-!
The material balance in numbers of 32 bits. While all pieces together weigh no more than fits, every build counts
it as it is. Beyond that the build without checks has its low bits.
-/
namespace FairyChess

namespace Position

variable (p : Position)

theorem sum_weight_nonneg (qs : List Piece) : 0 ≤ (qs.map Piece.weight).sum := by
  refine List.sum_nonneg fun w hw => ?_
  obtain ⟨q, -, rfl⟩ := List.mem_map.mp hw
  exact (abs_nonneg q.value).trans (le_max_left ..)

theorem sum_weight_le (side : Side) : ((p.pieces side).map Piece.weight).sum ≤ p.weight := by
  have hwhite := sum_weight_nonneg p.white
  have hblack := sum_weight_nonneg p.black
  cases side
  · exact le_add_of_nonneg_right hblack
  · exact le_add_of_nonneg_left hwhite

end Position

namespace Fixed

variable {p : Position} {z : Bounds} {side : Side}

section Material

/-- What is added to a total on the way to a sum stays within the weight of the pieces. -/
theorem foldlM_word_eq {m : Type → Type} [Build m] [LawfulMonad m] (qs : List Piece) {total : ℤ}
    (h : |total| + (qs.map Piece.weight).sum ≤ 2147483647) :
    ((qs.filter (·.isCaptured)).foldlM (fun total q => word (total + q.value)) total : m ℤ) =
      pure (total + (qs.filter (·.isCaptured)).foldr (fun q rest => q.value + rest) 0) := by
  induction qs generalizing total with
  | nil => simp
  | cons q qs ih =>
    have hrest := Position.sum_weight_nonneg qs
    have hvalue := abs_nonneg q.value
    have hq : |q.value| ≤ q.weight := le_max_left ..
    rw [List.map_cons, List.sum_cons] at h
    cases hcaptured : q.isCaptured with
    | false =>
      rw [List.filter_cons_of_neg (by simp [hcaptured])]
      exact ih (by omega)
    | true =>
      have hsum : |total + q.value| ≤ |total| + |q.value| := abs_add_le ..
      have hrange : InRange (total + q.value) := inRange_of_abs_lt (by omega)
      rw [List.filter_cons_of_pos hcaptured, List.foldlM_cons, word_of_inRange hrange, pure_bind,
        ih (by omega), List.foldr_cons, add_assoc]

section Builds

variable {m : Type → Type} [Build m] [LawfulMonad m] (h : p.weight ≤ 2147483647)
include h

theorem materialLost_eq (side : Side) : (materialLost p side : m ℤ) = pure (p.materialLost side) := by
  have hside := p.sum_weight_le side
  have htotal : |(0 : ℤ)| + ((p.pieces side).map Piece.weight).sum ≤ 2147483647 := by
    rw [abs_zero]
    omega
  have hsum := foldlM_word_eq (m := m) (p.pieces side) htotal
  rwa [zero_add] at hsum

theorem materialScore_eq (side : Side) : (materialScore p side : m ℤ) = pure (p.materialScore side) := by
  have hscore := p.abs_materialScore_le side
  have hrange : InRange (p.materialLost side.opposite - p.materialLost side) := inRange_of_abs_lt (by
    change |p.materialScore side| < _
    omega)
  rw [materialScore, materialLost_eq h, pure_bind, materialLost_eq h, pure_bind, word_of_inRange hrange,
    Position.materialScore]

end Builds

section Unchecked

end Unchecked

end Material

section Moves

variable {id : PieceId} {target : Square} {move : Move}

end Moves

end Fixed

end FairyChess
