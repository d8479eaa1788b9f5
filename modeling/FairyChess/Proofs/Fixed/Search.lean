import FairyChess.Fixed.Search
import FairyChess.Proofs.Fixed.Balance
import Mathlib

/-!
The search in numbers of 32 bits. Where the pieces weigh no more than fits, all scores fit, and so do the windows
that are closed in on them. Every build then finds what is found among all integers.
-/
namespace FairyChess

/--
A position to compute in for some plies more. Its pieces lie in a region to compute in and weigh no more than
fits, and each can be counted a turn for every ply.
-/
structure Position.Computable (p : Position) (z : Bounds) (plies : ℕ) : Prop extends p.WellFormed where
  lies : p.LiesIn z
  weight : p.weight ≤ 2147483647
  turns {v : PieceId} {r : Piece} (hr : p.piece? v = some r) : r.turns + plies < 4294967296

namespace Position.Computable

variable {p : Position} {z : Bounds} {plies fewer : ℕ} {move : Move}

theorem mono (h : p.Computable z plies) (hle : fewer ≤ plies) : p.Computable z fewer where
  toWellFormed := h.toWellFormed
  lies := h.lies
  weight := h.weight
  turns hr := (Nat.add_le_add_left hle _).trans_lt (h.turns hr)

theorem canCount (h : p.Computable z (plies + 1)) (move : Move) : p.CanCount move := by
  intro v r _ hr
  have hturns := h.turns hr
  omega

/-- A legal move takes one of the plies. -/
theorem after (h : p.Computable z (plies + 1)) {id : PieceId} {target : Square}
    (hlegal : p.move? id target = some move) (choice : Option Kind) :
    (p.after move choice).Computable z plies where
  toWellFormed := h.toWellFormed.after (h.fits (.legal hlegal)) choice
  lies := h.lies.after h.toWellFormed hlegal choice
  weight := (p.weight_after_le move choice).trans h.weight
  turns {v r'} hr' := by
    rw [piece?_after] at hr'
    obtain ⟨r, hr, rfl⟩ := Option.map_eq_some_iff.mp hr'
    have hrook : move.rook? ≠ some move.mover := (h.fits (.legal hlegal)).rook?_ne_mover
    have hturns := h.turns hr
    rw [Move.turns_effect hrook]
    split <;> omega

end Position.Computable

namespace Search

variable {reply : Move → ℤ → ℤ → Score} {limit : ℤ}

theorem abs_max_le {a b : ℤ} (ha : |a| ≤ limit) (hb : |b| ≤ limit) : |max a b| ≤ limit := by
  rcases max_choice a b with h | h <;> rw [h] <;> assumption

/-- The best score is within the limit of all the scores that were compared. -/
theorem abs_scoreMoves_le {pruning : Bool} {beta alpha : ℤ} {sofar : Score} {moves : List Move}
    (hreply : ∀ move ∈ moves, ∀ a b, |(reply move a b).value| ≤ limit) (hsofar : |sofar.value| ≤ limit) :
    |(scoreMoves pruning reply beta alpha sofar moves).value| ≤ limit := by
  induction moves generalizing alpha sofar with
  | nil => exact hsofar
  | cons move moves ih =>
    obtain ⟨hmove, hmoves⟩ := List.forall_mem_cons.mp hreply
    have hvalue : |max sofar.value (-(reply move (-beta) (-alpha)).value)| ≤ limit := by
      refine abs_max_le hsofar ?_
      rw [abs_neg]
      exact hmove _ _
    rw [scoreMoves]
    split
    · dsimp only
      split
      · exact hvalue
      · exact ih hmoves hvalue
    · exact ih hmoves hvalue

/-- No score is beyond what the pieces weigh, or else beyond the ends of the first window. -/
theorem abs_score_le (pruning : Bool) (depth : ℕ) {p : Position} (side : Side) (alpha beta : ℤ)
    (hweight : p.weight ≤ limit) (hlimit : infinity ≤ limit) :
    |(score pruning depth p side alpha beta).value| ≤ limit := by
  have hleaf (p : Position) (side : Side) (hweight : p.weight ≤ limit) : |p.materialScore side| ≤ limit :=
    (p.abs_materialScore_le side).trans hweight
  induction depth generalizing p side alpha beta with
  | zero => exact hleaf p side hweight
  | succ depth ih =>
    rw [score]
    split
    · exact hleaf p side hweight
    split
    · exact hleaf p side hweight
    · refine abs_scoreMoves_le (fun move _ a b => ?_) ?_
      · exact ih _ a b ((p.weight_after_le move none).trans hweight)
      · rwa [abs_neg, abs_of_nonneg (by decide)]

end Search

namespace Fixed

open Search

variable {m : Type → Type} [Build m] [LawfulMonad m] {p : Position} {z : Bounds} {depth : ℕ} {side : Side}
  {pruning : Bool}

theorem word_neg_of_abs_le {n : ℤ} (h : |n| ≤ 2147483647) : (word (-n) : m ℤ) = pure (-n) := by
  refine word_of_inRange (inRange_of_abs_lt ?_)
  rw [abs_neg]
  omega

section Moves

variable {reply : Move → ℤ → ℤ → m Score} {exact : Move → ℤ → ℤ → Score} {moves : List Move}

/-- The replies to some moves are those among all integers in every window that fits, and their scores fit. -/
structure Replies (reply : Move → ℤ → ℤ → m Score) (exact : Move → ℤ → ℤ → Score) (moves : List Move) :
    Prop where
  eq : ∀ move ∈ moves, ∀ a b, |a| ≤ 2147483647 → |b| ≤ 2147483647 → reply move a b = pure (exact move a b)
  value : ∀ move ∈ moves, ∀ a b, |(exact move a b).value| ≤ 2147483647

omit [LawfulMonad m] in
theorem Replies.of_cons {move : Move} (h : Replies reply exact (move :: moves)) : Replies reply exact moves where
  eq other hother := h.eq other (List.mem_cons_of_mem _ hother)
  value other hother := h.value other (List.mem_cons_of_mem _ hother)

/-- A reply is asked for in the window of the other side, and turned around for the own. -/
theorem Replies.answer {move : Move} (h : Replies reply exact moves) (hmove : move ∈ moves) {alpha beta : ℤ}
    (halpha : |alpha| ≤ 2147483647) (hbeta : |beta| ≤ 2147483647) :
    reply move (-beta) (-alpha) = pure (exact move (-beta) (-alpha)) ∧
      (word (-(exact move (-beta) (-alpha)).value) : m ℤ) = pure (-(exact move (-beta) (-alpha)).value) := by
  refine ⟨h.eq move hmove _ _ ?_ ?_, word_neg_of_abs_le (h.value move hmove _ _)⟩
  · rwa [abs_neg]
  · rwa [abs_neg]

theorem scoreMoves_eq (h : Replies reply exact moves) {alpha beta : ℤ} {sofar : Score}
    (halpha : |alpha| ≤ 2147483647) (hbeta : |beta| ≤ 2147483647) (hsofar : |sofar.value| ≤ 2147483647) :
    scoreMoves pruning reply beta alpha sofar moves =
      pure (Search.scoreMoves pruning exact beta alpha sofar moves) := by
  induction moves generalizing alpha sofar with
  | nil => rfl
  | cons move moves ih =>
    obtain ⟨hanswer, hvalue⟩ := h.answer List.mem_cons_self halpha hbeta
    have hbest : |max sofar.value (-(exact move (-beta) (-alpha)).value)| ≤ 2147483647 := by
      refine abs_max_le hsofar ?_
      rw [abs_neg]
      exact h.value move List.mem_cons_self _ _
    rw [scoreMoves, word_neg_of_abs_le hbeta, pure_bind, word_neg_of_abs_le halpha, pure_bind, hanswer,
      pure_bind, hvalue, pure_bind, Search.scoreMoves]
    dsimp only
    rw [ih h.of_cons (abs_max_le halpha hbest) hbest, ih h.of_cons halpha hbest]
    split_ifs <;> rfl

theorem choose_eq (h : Replies reply exact moves) {alpha : ℤ} {sofar : Outcome} (halpha : |alpha| ≤ 2147483647) :
    choose pruning reply alpha sofar moves = pure (Search.choose pruning exact alpha sofar moves) := by
  induction moves generalizing alpha sofar with
  | nil => rfl
  | cons move moves ih =>
    have hinfinity : |infinity| ≤ 2147483647 := by decide
    obtain ⟨hanswer, hvalue⟩ := h.answer List.mem_cons_self halpha hinfinity
    have hraised : |if pruning then max alpha (-(exact move (-infinity) (-alpha)).value) else alpha| ≤
        2147483647 := by
      split
      · refine abs_max_le halpha ?_
        rw [abs_neg]
        exact h.value move List.mem_cons_self _ _
      · exact halpha
    rw [choose, word_neg_of_abs_le hinfinity, pure_bind, word_neg_of_abs_le halpha, pure_bind, hanswer,
      pure_bind, hvalue, pure_bind, Search.choose]
    exact ih h.of_cons hraised

end Moves

section Positions

theorem child_eq (h : p.Computable z (depth + 1)) {move : Move} (hlegal : p.move? move.mover move.target = some move) :
    (child p move : m Position) = pure (p.after move none) := by
  rw [child, make_eq h.lies h.toWellFormed hlegal (h.canCount move) none, pure_bind]
  rfl

theorem leafScore_eq (h : p.weight ≤ 2147483647) (side : Side) :
    (leafScore p side : m Score) = pure ⟨p.materialScore side, 1⟩ := by
  rw [leafScore, materialScore_eq h, pure_bind]

/-- The replies to the legal moves of a side, if the scores one ply further are known. -/
theorem replies_of_score (m : Type → Type) [Build m] [LawfulMonad m] (pruning : Bool) (side : Side)
    (h : p.Computable z (depth + 1))
    (hscore : ∀ {q : Position}, q.Computable z depth → ∀ a b : ℤ, |a| ≤ 2147483647 → |b| ≤ 2147483647 →
      (score pruning depth q side.opposite a b : m Score) =
        pure (Search.score pruning depth q side.opposite a b)) :
    Replies (fun move a b => do score pruning depth (← child p move) side.opposite a b : Move → ℤ → ℤ → m Score)
      (fun move => Search.score pruning depth (p.after move none) side.opposite) (p.moves side) where
  eq move hmove a b ha hb := by
    obtain ⟨-, hlegal⟩ := Position.mem_moves.mp hmove
    rw [child_eq h hlegal, pure_bind, hscore (h.after hlegal none) a b ha hb]
  value move _ a b :=
    abs_score_le pruning depth side.opposite a b ((p.weight_after_le move none).trans h.weight) (by decide)

/-- Every build scores a position as it is scored among all integers. -/
theorem score_eq (h : p.Computable z depth) {alpha beta : ℤ} (halpha : |alpha| ≤ 2147483647)
    (hbeta : |beta| ≤ 2147483647) :
    (score pruning depth p side alpha beta : m Score) = pure (Search.score pruning depth p side alpha beta) := by
  induction depth generalizing p side alpha beta with
  | zero => exact leafScore_eq h.weight side
  | succ depth ih =>
    have hreplies := replies_of_score m pruning side h fun hq a b ha hb => ih hq ha hb
    rw [score, Search.score, leafScore_eq h.weight, moves_eq h.lies, pure_bind]
    split
    · rfl
    · cases hmoves : p.moves side with
      | nil => rfl
      | cons move rest =>
        rw [hmoves] at hreplies
        exact scoreMoves_eq hreplies halpha hbeta (by decide)

/-- The search finds the same best move in every build. -/
theorem search_eq (h : p.Computable z depth) (side : Side) (pruning : Bool) :
    (search p side depth pruning : m (Except SearchError Outcome)) = pure (p.search side depth pruning) := by
  cases depth with
  | zero => rfl
  | succ depth =>
    have hreplies := replies_of_score m pruning side h fun hq a b ha hb => score_eq hq ha hb
    rw [search, moves_eq h.lies, pure_bind, choose_eq hreplies (by decide), pure_bind, Position.search]

end Positions

end Fixed

end FairyChess
