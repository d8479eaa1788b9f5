import FairyChess.Proofs.Move.Effect
import Mathlib.Algebra.Order.BigOperators.Group.List
import Mathlib.Algebra.Order.Group.Unbundled.Int

/-! How much material there is to lose: no move adds to it. -/
namespace FairyChess

/-- The most a piece can count for. A piece that promotes counts for a queen at most. -/
def Piece.weight (q : Piece) : ℤ :=
  max |q.value| 9

/-- The most that the pieces of both sides can count for together. -/
def Position.weight (p : Position) : ℤ :=
  ((p.pieces .white).map Piece.weight).sum + ((p.pieces .black).map Piece.weight).sum

theorem Kind.value_of_mem_promotions {kind : Kind} {t : Template} (h : kind ∈ Kind.promotions)
    (ht : kind.template? = some t) : |t.value| ≤ 9 := by
  simp only [promotions, List.mem_cons, List.not_mem_nil, or_false] at h
  rcases h with rfl | rfl | rfl | rfl | rfl <;> cases ht <;> decide

namespace Piece

variable (choice : Option Kind) (q : Piece)

theorem promotion?_mem_promotions {kind : Kind} (h : q.promotion? choice = some kind) :
    kind ∈ Kind.promotions := by
  unfold promotion? at h
  split at h
  swap
  · cases h
  obtain rfl := Option.some.inj h
  cases hchoice : choice.filter (Kind.promotions.contains ·) with
  | none => decide
  | some kind =>
    have hkind := (Option.filter_eq_some_iff.mp hchoice).2
    simpa using hkind

theorem weight_promoted_le : (q.promoted choice).weight ≤ q.weight := by
  unfold promoted
  split
  swap
  · exact le_rfl
  next kind hkind =>
  have hmem := q.promotion?_mem_promotions choice hkind
  unfold promote?
  cases htemplate : kind.template? with
  | none => exact le_rfl
  | some t =>
    have hvalue := Kind.value_of_mem_promotions hmem htemplate
    exact max_le (hvalue.trans (le_max_right _ _)) (le_max_right _ _)

end Piece

@[simp] theorem Move.value_displace (m : Move) (id : PieceId) (q : Piece) :
    (m.displace id q).value = q.value := by
  unfold displace
  cases m.special <;> dsimp only <;> split_ifs <;> rfl

theorem Move.weight_effect_le (m : Move) (choice : Option Kind) (id : PieceId) (q : Piece) :
    (m.effect choice id q).weight ≤ q.weight := by
  have hdisplace : (m.displace id q).weight = q.weight := by
    rw [Piece.weight, value_displace, Piece.weight]
  unfold effect
  split_ifs
  · exact ((m.displace id q).weight_promoted_le choice).trans_eq hdisplace
  · exact hdisplace.le

namespace Position

variable (p : Position) (side : Side)

theorem weight_after_le (m : Move) (choice : Option Kind) :
    (p.after m choice).weight ≤ p.weight := by
  have hside (side : Side) : (((p.after m choice).pieces side).map Piece.weight).sum ≤
      ((p.pieces side).map Piece.weight).sum := by
    rw [pieces_after]
    refine List.Forall₂.sum_le_sum (List.forall₂_iff_get.mpr ⟨by simp, fun i hi hi' => ?_⟩)
    simpa using m.weight_effect_le choice ⟨side, i⟩ _
  exact add_le_add (hside .white) (hside .black)

theorem abs_materialLost_le : |p.materialLost side| ≤ ((p.pieces side).map Piece.weight).sum := by
  unfold materialLost
  induction p.pieces side with
  | nil => simp
  | cons q qs ih =>
    have hq : |q.value| ≤ q.weight := le_max_left _ _
    rw [List.map_cons, List.sum_cons, List.filter_cons]
    split
    · rw [List.foldr_cons]
      exact (abs_add_le _ _).trans (add_le_add hq ih)
    · exact ih.trans (le_add_of_nonneg_left ((abs_nonneg _).trans hq))

/-- A material score is what one side has lost less what the other has. -/
theorem abs_materialScore_le : |p.materialScore side| ≤ p.weight := by
  have hwhite := p.abs_materialLost_le .white
  have hblack := p.abs_materialLost_le .black
  cases side
  · rw [weight, add_comm]
    exact (abs_sub _ _).trans (add_le_add hblack hwhite)
  · exact (abs_sub _ _).trans (add_le_add hwhite hblack)

end Position

end FairyChess
