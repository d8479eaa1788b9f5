import FairyChess.Proofs.Search.Minimax
import Mathlib

/-!
How many positions a search looks at. Without pruning it looks at all of the game tree, whatever its windows
are, and pruning leaves some of them out.
-/
namespace FairyChess

namespace Search

/-- The number of positions in the game tree below a position, which is one of them. -/
def treeSize : ℕ → Position → Side → ℕ
  | 0, _, _ => 1
  | depth + 1, p, side =>
    if p.isLeaf side then 1
    else 1 + ((p.moves side).map fun m => treeSize depth (p.after m none) side.opposite).sum

section Node

variable {pruning : Bool} {reply : Move → ℤ → ℤ → Score} {ms : List Move}

/-- What is counted already is not lost, however the moves are scored. -/
theorem le_nodes_scoreMoves (alpha beta : ℤ) (sofar : Score) :
    sofar.nodes ≤ (scoreMoves pruning reply beta alpha sofar ms).nodes := by
  induction ms generalizing alpha sofar with
  | nil => exact le_rfl
  | cons m ms ih =>
    have hmore : sofar.nodes ≤ sofar.nodes + (reply m (-beta) (-alpha)).nodes := Nat.le_add_right _ _
    unfold scoreMoves
    dsimp only
    split_ifs
    · exact hmore
    · exact hmore.trans (ih _ ⟨_, _⟩)
    · exact hmore.trans (ih _ ⟨_, _⟩)

/-- A move that is scored adds its own positions, and one that is left out adds none. -/
theorem nodes_scoreMoves_le {size : Move → ℕ}
    (h : ∀ m ∈ ms, ∀ alpha beta, (reply m alpha beta).nodes ≤ size m) (alpha beta : ℤ) (sofar : Score) :
    (scoreMoves pruning reply beta alpha sofar ms).nodes ≤ sofar.nodes + (ms.map size).sum := by
  induction ms generalizing alpha sofar with
  | nil => exact le_rfl
  | cons m ms ih =>
    have hm := h m List.mem_cons_self (-beta) (-alpha)
    have hrest (a value : ℤ) := ih (fun r hr => h r (List.mem_cons_of_mem m hr)) a
      ⟨value, sofar.nodes + (reply m (-beta) (-alpha)).nodes⟩
    rw [List.map_cons, List.sum_cons]
    unfold scoreMoves
    dsimp only
    split_ifs
    · dsimp only
      omega
    · exact (hrest _ _).trans (by dsimp only; omega)
    · exact (hrest _ _).trans (by dsimp only; omega)

theorem nodes_scoreMoves_exhaustive {size : Move → ℕ}
    (h : ∀ m ∈ ms, ∀ alpha beta, (reply m alpha beta).nodes = size m) (alpha beta : ℤ) (sofar : Score) :
    (scoreMoves false reply beta alpha sofar ms).nodes = sofar.nodes + (ms.map size).sum := by
  induction ms generalizing alpha sofar with
  | nil => rfl
  | cons m ms ih =>
    have hm := h m List.mem_cons_self (-beta) (-alpha)
    rw [scoreMoves, if_neg Bool.false_ne_true, ih fun r hr => h r (List.mem_cons_of_mem m hr)]
    dsimp only
    rw [hm, List.map_cons, List.sum_cons, Nat.add_assoc]

variable (pruning) in
/-- All moves of the first position are scored, with pruning too. -/
theorem nodes_choose {least most : Move → ℕ}
    (h : ∀ m ∈ ms, ∀ alpha beta,
      least m ≤ (reply m alpha beta).nodes ∧ (reply m alpha beta).nodes ≤ most m)
    (alpha : ℤ) (sofar : Outcome) :
    sofar.nodes + (ms.map least).sum ≤ (choose pruning reply alpha sofar ms).nodes ∧
      (choose pruning reply alpha sofar ms).nodes ≤ sofar.nodes + (ms.map most).sum := by
  induction ms generalizing alpha sofar with
  | nil => exact ⟨le_rfl, le_rfl⟩
  | cons m ms ih =>
    obtain ⟨hleast, hmost⟩ := h m List.mem_cons_self (-infinity) (-alpha)
    have hrest (a : ℤ) (best : Option Choice) := ih (fun r hr => h r (List.mem_cons_of_mem m hr)) a
      ⟨best, sofar.nodes + (reply m (-infinity) (-alpha)).nodes⟩
    rw [List.map_cons, List.map_cons, List.sum_cons, List.sum_cons]
    unfold choose
    constructor
    · exact le_trans (by dsimp only; omega) (hrest _ _).1
    · exact (hrest _ _).2.trans (by dsimp only; omega)

end Node

variable {pruning : Bool} {depth : ℕ} {p : Position} {side : Side}

theorem treeSize_of_not_isLeaf (h : p.isLeaf side = false) : treeSize (depth + 1) p side =
    1 + ((p.moves side).map fun m => treeSize depth (p.after m none) side.opposite).sum := by
  rw [treeSize, h]
  rfl

/-- A search counts the position that it starts from. -/
theorem nodes_score_pos (alpha beta : ℤ) : 1 ≤ (score pruning depth p side alpha beta).nodes := by
  cases depth with
  | zero => exact le_rfl
  | succ depth =>
    cases hleaf : p.isLeaf side with
    | true => rw [score_of_isLeaf pruning alpha beta hleaf]
    | false =>
      rw [score_of_not_isLeaf pruning alpha beta hleaf]
      exact le_nodes_scoreMoves alpha beta ⟨-infinity, 1⟩

/-- No window lets a search look outside the game tree. -/
theorem nodes_score_le (alpha beta : ℤ) :
    (score pruning depth p side alpha beta).nodes ≤ treeSize depth p side := by
  induction depth generalizing p side alpha beta with
  | zero => exact le_rfl
  | succ depth ih =>
    cases hleaf : p.isLeaf side with
    | true => rw [score_of_isLeaf pruning alpha beta hleaf, treeSize, if_pos hleaf]
    | false =>
      rw [score_of_not_isLeaf pruning alpha beta hleaf, treeSize_of_not_isLeaf hleaf]
      apply nodes_scoreMoves_le
      intro m _ a b
      exact ih a b

theorem nodes_score_exhaustive (alpha beta : ℤ) :
    (score false depth p side alpha beta).nodes = treeSize depth p side := by
  induction depth generalizing p side alpha beta with
  | zero => rfl
  | succ depth ih =>
    cases hleaf : p.isLeaf side with
    | true => rw [score_of_isLeaf false alpha beta hleaf, treeSize, if_pos hleaf]
    | false =>
      rw [score_of_not_isLeaf false alpha beta hleaf, treeSize_of_not_isLeaf hleaf]
      apply nodes_scoreMoves_exhaustive
      intro m _ a b
      exact ih a b

end Search

open Search in
/--
Whatever the pieces are worth, a search with pruning looks at no more positions than one without. Without
pruning these are the positions of the game trees behind the legal moves, and with pruning there is still one
of them for each move.
-/
theorem Position.nodes_search_le (p : Position) (side : Side) (depth : ℕ) :
    ∃ pruned exhaustive, p.search side (depth + 1) true = .ok pruned ∧
      p.search side (depth + 1) false = .ok exhaustive ∧
      pruned.nodes ≤ exhaustive.nodes ∧
      exhaustive.nodes =
        ((p.moves side).map fun m => treeSize depth (p.after m none) side.opposite).sum ∧
      (p.moves side).length ≤ pruned.nodes := by
  let reply (pruning : Bool) (m : Move) := score pruning depth (p.after m none) side.opposite
  let size (m : Move) := treeSize depth (p.after m none) side.opposite
  let outcome (pruning : Bool) := choose pruning (reply pruning) (-infinity) ⟨none, 0⟩ (p.moves side)
  have hpruned : (p.moves side).length ≤ (outcome true).nodes ∧
      (outcome true).nodes ≤ ((p.moves side).map size).sum := by
    have hone (m : Move) (_ : m ∈ p.moves side) (a b : ℤ) :
        1 ≤ (reply true m a b).nodes ∧ (reply true m a b).nodes ≤ size m :=
      ⟨nodes_score_pos a b, nodes_score_le a b⟩
    have hbounds := nodes_choose true hone (-infinity) ⟨none, 0⟩
    simpa only [List.map_const', List.sum_replicate, smul_eq_mul, mul_one, Nat.zero_add] using hbounds
  have hexhaustive : (outcome false).nodes = ((p.moves side).map size).sum := by
    have hall (m : Move) (_ : m ∈ p.moves side) (a b : ℤ) :
        size m ≤ (reply false m a b).nodes ∧ (reply false m a b).nodes ≤ size m :=
      ⟨(nodes_score_exhaustive a b).ge, (nodes_score_exhaustive a b).le⟩
    obtain ⟨hleast, hmost⟩ := nodes_choose false hall (-infinity) ⟨none, 0⟩
    simpa only [Nat.zero_add] using le_antisymm hmost hleast
  exact ⟨outcome true, outcome false, rfl, rfl, hpruned.2.trans hexhaustive.ge, hexhaustive, hpruned.1⟩

end FairyChess
