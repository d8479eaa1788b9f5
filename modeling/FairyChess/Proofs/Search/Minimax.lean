import FairyChess.Proofs.Position.Material
import FairyChess.Search
import Mathlib

/-! Alpha-beta pruning does not change the move that minimax chooses. -/
namespace FairyChess

/-- A search does not look past a position that is lost, or that leaves its side no move. -/
def Position.isLeaf (p : Position) (side : Side) : Bool :=
  p.hasLost side || p.hasLost side.opposite || (p.moves side).isEmpty

namespace Search

/-- The minimax value of a position for the side to move. -/
def value : ℕ → Position → Side → ℤ
  | 0, p, side => p.materialScore side
  | depth + 1, p, side =>
    if p.isLeaf side then p.materialScore side
    else ((p.moves side).map fun m => -value depth (p.after m none) side.opposite).max?.getD 0

/-- The material scores in the game tree below a position, each for the side to move there. -/
def leafScores : ℕ → Position → Side → List ℤ
  | 0, p, side => [p.materialScore side]
  | depth + 1, p, side =>
    if p.isLeaf side then [p.materialScore side]
    else (p.moves side).flatMap fun m => leafScores depth (p.after m none) side.opposite

/-- What a move is worth to its own side when the search looks `depth` moves past it. -/
def worth (depth : ℕ) (p : Position) (side : Side) (m : Move) : ℤ :=
  -value depth (p.after m none) side.opposite

/-- The score lies inside the first window. -/
def Finite (score : ℤ) : Prop :=
  -infinity < score ∧ score < infinity

/--
What a score in the window from `alpha` to `beta` says about a value. The value is no higher unless the
score reaches `beta`, and no lower unless the score is at most `alpha`.
-/
def Settles (alpha beta score value : ℤ) : Prop :=
  (score < beta → value ≤ score) ∧ (alpha < score → score ≤ value)

/-- The score of a reply settles what the move is worth, whatever the window is. -/
def Answers (reply : Move → ℤ → ℤ → Score) (worth : Move → ℤ) (m : Move) : Prop :=
  ∀ ⦃alpha beta⦄, alpha < beta → Settles alpha beta (-(reply m (-beta) (-alpha)).value) (worth m)

theorem Finite.neg {score : ℤ} (h : Finite score) : Finite (-score) :=
  ⟨neg_lt_neg h.2, neg_lt.mp h.1⟩

theorem finite_of_abs_lt {score : ℤ} (h : |score| < infinity) : Finite score :=
  abs_lt.mp h

section Windows

variable {alpha beta score value : ℤ}

theorem Settles.refl : Settles alpha beta value value :=
  ⟨fun _ => le_rfl, fun _ => le_rfl⟩

theorem Settles.neg (h : Settles (-beta) (-alpha) score value) :
    Settles alpha beta (-score) (-value) :=
  ⟨fun hlt => neg_le_neg (h.2 (neg_lt.mp hlt)), fun hlt => neg_le_neg (h.1 (lt_neg.mp hlt))⟩

/-- A window does not show whether a value below its lower end was raised to one that is below it too. -/
theorem Settles.of_max {low : ℤ} (h : Settles alpha beta score (max low value))
    (hlow : low ≤ alpha ∨ low ≤ value) : Settles alpha beta score value := by
  have hvalue : value ≤ max low value := le_max_right low value
  refine ⟨fun hlt => hvalue.trans (h.1 hlt), fun hgt => ?_⟩
  have hle : score ≤ max low value := h.2 hgt
  omega

/-- Under the upper end of the first window, a score is either exact or no better than `alpha`. -/
theorem Settles.of_infinity (h : Settles alpha infinity score value) (halpha : alpha < infinity)
    (hvalue : value < infinity) : score < infinity ∧ value ≤ score ∧ (alpha < score → score = value) := by
  have hlt : score < infinity := by
    by_contra hge
    exact absurd (h.2 (halpha.trans_le (not_lt.mp hge))) (by omega)
  exact ⟨hlt, h.1 hlt, fun hgt => le_antisymm (h.2 hgt) (h.1 hlt)⟩

end Windows

private theorem foldl_max_max (a b : ℤ) (scores : List ℤ) :
    scores.foldl max (max a b) = max b (scores.foldl max a) := by
  rw [max_comm, List.foldl_assoc]

private theorem le_foldl_max (a : ℤ) (scores : List ℤ) : a ≤ scores.foldl max a := by
  have h := foldl_max_max a a scores
  rw [max_self] at h
  exact h ▸ le_max_left _ _

section Node

variable (pruning : Bool) {reply : Move → ℤ → ℤ → Score} {worth : Move → ℤ}

/--
The moves of a position settle the best of what they are worth. The window may have closed in from
below, or may close for good: the moves that are left out are worth less than what was found.
-/
theorem settles_scoreMoves {ms : List Move} {alpha beta : ℤ} (hwindow : alpha < beta)
    (h : ∀ m ∈ ms, ∀ a, alpha ≤ a → a < beta →
      Settles a beta (-(reply m (-beta) (-a)).value) (worth m)) (sofar : Score) :
    Settles alpha beta (scoreMoves pruning reply beta alpha sofar ms).value
      ((ms.map worth).foldl max sofar.value) := by
  induction ms generalizing alpha sofar with
  | nil => exact Settles.refl
  | cons m ms ih =>
    obtain ⟨hupper, hlower⟩ := h m List.mem_cons_self alpha le_rfl hwindow
    have hstart := le_foldl_max sofar.value (ms.map worth)
    rw [List.map_cons, List.foldl_cons, foldl_max_max]
    have hnext {a : ℤ} (hle : alpha ≤ a) (ha : a < beta) :=
      ih ha (fun r hr b hb => h r (List.mem_cons_of_mem m hr) b (hle.trans hb))
        ⟨max sofar.value (-(reply m (-beta) (-alpha)).value),
          sofar.nodes + (reply m (-beta) (-alpha)).nodes⟩
    simp only [foldl_max_max] at hnext
    unfold scoreMoves
    dsimp only
    split_ifs with hpruning hcut
    -- What was found already reaches `beta`, and the moves left out can only add to it.
    · dsimp only
      constructor <;> omega
    · obtain ⟨hnextUpper, hnextLower⟩ := hnext (le_max_left _ _) (not_le.mp hcut)
      constructor <;> omega
    · obtain ⟨hnextUpper, hnextLower⟩ := hnext le_rfl hwindow
      constructor <;> omega

/-- A move is chosen if there is any, whatever the scores are. -/
theorem best_choose_eq_none {ms : List Move} {alpha : ℤ} {sofar : Outcome} :
    (choose pruning reply alpha sofar ms).best = none ↔ sofar.best = none ∧ ms = [] := by
  induction ms generalizing alpha sofar with
  | nil => simp [choose]
  | cons m ms ih => simp [choose, ih]

/-- Only a move that is looked at is chosen, whatever the scores are. -/
theorem mem_of_best_choose {ms : List Move} {alpha : ℤ} {sofar : Outcome} {c : Choice}
    (h : (choose pruning reply alpha sofar ms).best = some c) : sofar.best = some c ∨ c.move ∈ ms := by
  induction ms generalizing alpha sofar with
  | nil => exact .inl h
  | cons m ms ih =>
    rcases ih h with hbest | hmem
    · have hchosen := Option.some.inj hbest
      split at hchosen
      · next best hsofar =>
        split at hchosen
        · exact .inr (hchosen ▸ List.mem_cons_self)
        · exact .inl (hchosen ▸ hsofar)
      · exact .inr (hchosen ▸ List.mem_cons_self)
    · exact .inr (List.mem_cons_of_mem m hmem)

/-- A score that is at most `alpha` changes neither the best move nor how much it is worth. -/
private theorem exists_argmax_concat {m : Move} {tried : List Move} {alpha score : ℤ}
    (hopen : tried = [] → alpha < score) (hbehind : ∀ c ∈ tried.argmax worth, alpha ≤ worth c)
    (hupper : worth m ≤ score) (hexact : alpha < score → score = worth m) :
    ∃ c, (tried ++ [m]).argmax worth = some c ∧ max alpha score ≤ worth c ∧
      (match (tried.argmax worth).map fun c => (⟨c, worth c⟩ : Choice) with
        | some best => if best.score < score then ⟨m, score⟩ else best
        | none => ⟨m, score⟩) = (⟨c, worth c⟩ : Choice) := by
  have hconcat := List.argmax_concat worth m tried
  cases htried : tried.argmax worth with
  | none =>
    have halpha := hopen (List.argmax_eq_none.mp htried)
    rw [htried] at hconcat
    exact ⟨m, hconcat, by have := hexact halpha; omega, by simp [hexact halpha]⟩
  | some c =>
    have hc := hbehind c htried
    rw [htried] at hconcat
    dsimp only [Option.map_some] at hconcat ⊢
    -- Only a score above `alpha` is exact, and any that beats the best so far is.
    by_cases hbetter : worth c < score
    · have hscore := hexact (by omega)
      rw [if_pos (hscore ▸ hbetter)] at hconcat
      exact ⟨m, hconcat, by omega, by rw [if_pos hbetter, hscore]⟩
    · rw [if_neg (by omega)] at hconcat
      exact ⟨c, hconcat, by omega, if_neg hbetter⟩

/--
The move that is chosen is the first of those that are worth most. The moves that were tried before are
worth no less than the window's lower end.
-/
theorem best_choose (tried : List Move) {ms : List Move} (h : ∀ m ∈ ms, Answers reply worth m)
    (hfinite : ∀ m ∈ ms, Finite (worth m)) {alpha : ℤ} {sofar : Outcome}
    (halpha : alpha < infinity) (hopen : tried = [] → alpha = -infinity)
    (hbehind : ∀ c ∈ tried.argmax worth, alpha ≤ worth c)
    (hsofar : sofar.best = (tried.argmax worth).map fun c => ⟨c, worth c⟩) :
    (choose pruning reply alpha sofar ms).best =
      ((tried ++ ms).argmax worth).map fun c => ⟨c, worth c⟩ := by
  induction ms generalizing alpha sofar tried with
  | nil => rw [List.append_nil, ← hsofar, choose]
  | cons m ms ih =>
    obtain ⟨hlower, hinfinity⟩ := hfinite m List.mem_cons_self
    obtain ⟨hscore, hupper, hexact⟩ := (h m List.mem_cons_self halpha).of_infinity halpha hinfinity
    have hfirst (htried : tried = []) : alpha < -(reply m (-infinity) (-alpha)).value := by
      have := hopen htried
      omega
    obtain ⟨c, hc, hbound, hbest⟩ := exists_argmax_concat hfirst hbehind hupper hexact
    rw [List.append_cons]
    unfold choose
    dsimp only
    refine ih (tried ++ [m]) (fun r hr => h r (List.mem_cons_of_mem m hr))
      (fun r hr => hfinite r (List.mem_cons_of_mem m hr)) ?_ (by simp) (fun d hd => ?_) ?_
    · split_ifs <;> omega
    · obtain rfl := Option.some.inj (hc.symm.trans hd)
      split_ifs <;> omega
    · rw [hc, hsofar]
      exact congrArg some hbest

end Node

variable {depth : ℕ} {p : Position} {side : Side}

private theorem of_not_isLeaf (h : p.isLeaf side = false) :
    (p.hasLost side || p.hasLost side.opposite) = false ∧ ∃ m ms, p.moves side = m :: ms := by
  obtain ⟨hlost, hmoves⟩ := Bool.or_eq_false_iff.mp h
  exact ⟨hlost, List.exists_cons_of_ne_nil (by simpa using hmoves)⟩

private theorem value_node {m : Move} {ms : List Move} (h : p.isLeaf side = false)
    (hmoves : p.moves side = m :: ms) :
    value (depth + 1) p side = (ms.map (worth depth p side)).foldl max (worth depth p side m) := by
  rw [value, h, hmoves]
  rfl

private theorem mem_leafScores_node {m : Move} {score : ℤ} (h : p.isLeaf side = false)
    (hm : m ∈ p.moves side) (hscore : score ∈ leafScores depth (p.after m none) side.opposite) :
    score ∈ leafScores (depth + 1) p side := by
  rw [leafScores, h]
  exact List.mem_flatMap.mpr ⟨m, hm, hscore⟩

theorem finite_value (h : ∀ v ∈ leafScores depth p side, Finite v) : Finite (value depth p side) := by
  induction depth generalizing p side with
  | zero => exact h _ (List.mem_singleton_self _)
  | succ depth ih =>
    cases hleaf : p.isLeaf side with
    | true =>
      rw [leafScores, hleaf] at h
      rw [value, hleaf]
      exact h _ (List.mem_singleton_self _)
    | false =>
      obtain ⟨-, m, ms, hmoves⟩ := of_not_isLeaf hleaf
      have hmax : value (depth + 1) p side ∈ (p.moves side).map (worth depth p side) := by
        rw [value_node hleaf hmoves, hmoves]
        exact List.max?_mem List.max?_cons'
      obtain ⟨best, hbest, hvalue⟩ := List.mem_map.mp hmax
      rw [← hvalue]
      exact (ih fun v hv => h v (mem_leafScores_node hleaf hbest hv)).neg

theorem score_of_isLeaf (pruning : Bool) (alpha beta : ℤ) (h : p.isLeaf side = true) :
    score pruning (depth + 1) p side alpha beta = ⟨p.materialScore side, 1⟩ := by
  unfold score
  split_ifs with hlost
  · rfl
  · have hmoves : p.moves side = [] := by simpa [Position.isLeaf, hlost] using h
    rw [hmoves]

theorem score_of_not_isLeaf (pruning : Bool) (alpha beta : ℤ) (h : p.isLeaf side = false) :
    score pruning (depth + 1) p side alpha beta =
      scoreMoves pruning (fun m => score pruning depth (p.after m none) side.opposite) beta alpha
        ⟨-infinity, 1⟩ (p.moves side) := by
  obtain ⟨hlost, m, ms, hmoves⟩ := of_not_isLeaf h
  rw [score, hlost, hmoves]
  rfl

/--
Pruning or not, the score of a position settles its minimax value. The window is inside the first one
then, whatever the scores are, or it is any window and all scores are finite.
-/
theorem settles_score {pruning : Bool} {alpha beta : ℤ} (hwindow : alpha < beta)
    (h : (-infinity ≤ alpha ∧ beta ≤ infinity) ∨ ∀ v ∈ leafScores depth p side, Finite v) :
    Settles alpha beta (score pruning depth p side alpha beta).value (value depth p side) := by
  induction depth generalizing p side alpha beta with
  | zero => exact Settles.refl
  | succ depth ih =>
    cases hleaf : p.isLeaf side with
    | true =>
      rw [score_of_isLeaf pruning alpha beta hleaf, value, hleaf]
      exact Settles.refl
    | false =>
      obtain ⟨-, m, ms, hmoves⟩ := of_not_isLeaf hleaf
      have hchild (r : Move) (hr : r ∈ p.moves side)
          (hfinite : ∀ v ∈ leafScores (depth + 1) p side, Finite v) :
          ∀ v ∈ leafScores depth (p.after r none) side.opposite, Finite v :=
        fun v hv => hfinite v (mem_leafScores_node hleaf hr hv)
      have hanswers (r : Move) (hr : r ∈ p.moves side) (a : ℤ) (hle : alpha ≤ a) (ha : a < beta) :
          Settles a beta (-(score pruning depth (p.after r none) side.opposite (-beta) (-a)).value)
            (worth depth p side r) :=
        (ih (neg_lt_neg ha) (h.imp
          (fun hfirst => ⟨neg_le_neg hfirst.2, neg_le.mp (hfirst.1.trans hle)⟩) (hchild r hr))).neg
      have hnode := settles_scoreMoves pruning hwindow hanswers ⟨-infinity, 1⟩
      have hm : m ∈ p.moves side := hmoves ▸ List.mem_cons_self
      -- Scores start from `-infinity`, which is no score of a move, or else lies below the window.
      have hlow : -infinity ≤ alpha ∨ -infinity ≤ value (depth + 1) p side := by
        refine h.imp (fun hfirst => hfirst.1) fun hfinite => ?_
        have hworth : -infinity < worth depth p side m := (finite_value (hchild m hm hfinite)).neg.1
        rw [value_node hleaf hmoves]
        exact hworth.le.trans (le_foldl_max _ _)
      rw [hmoves, List.map_cons, List.foldl_cons, max_comm, foldl_max_max, ← value_node hleaf hmoves] at hnode
      rw [score_of_not_isLeaf pruning alpha beta hleaf, hmoves]
      exact hnode.of_max hlow

/--
A score inside its window is the minimax value itself. At the lower end of the window or below, the
value is no higher, and at the upper end or above, it is no lower.
-/
theorem score_window (pruning : Bool) (depth : ℕ) (p : Position) (side : Side) {alpha beta : ℤ}
    (halpha : -infinity ≤ alpha) (hwindow : alpha < beta) (hbeta : beta ≤ infinity) :
    let v := (score pruning depth p side alpha beta).value
    (alpha < v → v < beta → value depth p side = v) ∧
      (v ≤ alpha → value depth p side ≤ v) ∧ (beta ≤ v → v ≤ value depth p side) := by
  intro v
  have hsettles : Settles alpha beta v (value depth p side) :=
    settles_score hwindow (.inl ⟨halpha, hbeta⟩)
  refine ⟨fun hlower hupper => ?_, fun hlow => ?_, fun hhigh => ?_⟩
  · exact le_antisymm (hsettles.1 hupper) (hsettles.2 hlower)
  · exact hsettles.1 (hlow.trans_lt hwindow)
  · exact hsettles.2 (hwindow.trans_le hhigh)

/-- The rook can take a pawn. A window that the pawn lies in shows what it is worth, and a window above
it that no more is to be had. -/
theorem score_window_rook :
    let board : Bounds := { left := 0, right := 3, bottom := 0, top := 3 }
    let p := ((Piece.standard? .king ⟨0, 0⟩ .white board).toList ++
      (Piece.standard? .rook ⟨2, 0⟩ .white board).toList ++
      (Piece.standard? .king ⟨0, 2⟩ .black board).toList ++
      (Piece.standard? .pawn ⟨2, 1⟩ .black board).toList).foldl Position.add { bounds := board }
    (-infinity ≤ -5 ∧ (-5 : ℤ) < 5 ∧ 5 ≤ infinity) ∧ (score true 2 p .white (-5) 5).value = 1 ∧
      value 2 p .white = (score true 2 p .white (-5) 5).value ∧
      (-infinity ≤ 3 ∧ (3 : ℤ) < 9 ∧ 9 ≤ infinity) ∧ (score true 2 p .white 3 9).value = 1 ∧
      value 2 p .white ≤ (score true 2 p .white 3 9).value := by
  intro board p
  have hwide : -infinity ≤ -5 ∧ (-5 : ℤ) < 5 ∧ 5 ≤ infinity := by decide
  have hnarrow : -infinity ≤ 3 ∧ (3 : ℤ) < 9 ∧ 9 ≤ infinity := by decide
  have hinside : (score true 2 p .white (-5) 5).value = 1 := by cbv
  have habove : (score true 2 p .white 3 9).value = 1 := by cbv
  obtain ⟨hexact, -, -⟩ := score_window true 2 p .white hwide.1 hwide.2.1 hwide.2.2
  obtain ⟨-, hupper, -⟩ := score_window true 2 p .white hnarrow.1 hnarrow.2.1 hnarrow.2.2
  have hvalue := hexact (by omega) (by omega)
  have hbound := hupper (by omega)
  exact ⟨hwide, hinside, hvalue, hnarrow, habove, hbound⟩

end Search

namespace Position

open Search

variable {p : Position} {side : Side} {depth : ℕ}

theorem leafScores_le_weight {score : ℤ} (h : score ∈ leafScores depth p side) :
    |score| ≤ p.weight := by
  induction depth generalizing p side with
  | zero =>
    obtain rfl := List.mem_singleton.mp h
    exact p.abs_materialScore_le side
  | succ depth ih =>
    unfold leafScores at h
    split_ifs at h
    · obtain rfl := List.mem_singleton.mp h
      exact p.abs_materialScore_le side
    · obtain ⟨m, -, hm⟩ := List.mem_flatMap.mp h
      exact (ih hm).trans (p.weight_after_le m none)

/-- A search ends with one of the moves that are listed, if there are any. -/
theorem search_eq_ok (p : Position) (side : Side) (depth : ℕ) (pruning : Bool) :
    ∃ o, p.search side (depth + 1) pruning = .ok o ∧ (o.best = none ↔ p.moves side = []) ∧
      ∀ c ∈ o.best, c.move ∈ p.moves side := by
  refine ⟨_, rfl, ?_, fun c hc => ?_⟩
  · rw [best_choose_eq_none]
    exact and_iff_right rfl
  · exact (mem_of_best_choose pruning hc).resolve_left nofun

/-- Every material score that a search of this depth comes across lies inside the first window. -/
def Bounded (p : Position) (side : Side) (depth : ℕ) : Prop :=
  ∀ m ∈ p.moves side, ∀ score ∈ leafScores depth (p.after m none) side.opposite, Finite score

theorem bounded_of_weight_lt (h : p.weight < infinity) : p.Bounded side depth :=
  fun m _ _ hscore =>
    finite_of_abs_lt (((leafScores_le_weight hscore).trans (p.weight_after_le m none)).trans_lt h)

private theorem exists_append_of_argmax {f : Move → ℤ} {ms : List Move} {m : Move}
    (h : ms.argmax f = some m) : ∃ before after, ms = before ++ m :: after ∧
      (∀ r ∈ before, f r < f m) ∧ ∀ r ∈ after, f r ≤ f m := by
  obtain ⟨hm, hmax, hfirst⟩ := List.argmax_eq_some_iff.mp h
  obtain ⟨before, after, rfl, hnotMem⟩ := List.eq_append_cons_of_mem hm
  refine ⟨before, after, rfl, fun r hr => ?_, fun r hr => hmax r (by simp [hr])⟩
  by_contra hlt
  have hindex := hfirst r (by simp [hr]) (not_lt.mp hlt)
  rw [List.idxOf_append_of_notMem hnotMem, List.idxOf_append_of_mem hr] at hindex
  have := List.idxOf_lt_length_of_mem hr
  omega

theorem best_search (h : p.Bounded side depth) (pruning : Bool) :
    (p.search side (depth + 1) pruning).map (·.best) =
      .ok (((p.moves side).argmax (worth depth p side)).map fun m => ⟨m, worth depth p side m⟩) := by
  have hanswers (m : Move) (hm : m ∈ p.moves side) : Answers
      (fun m => score pruning depth (p.after m none) side.opposite) (worth depth p side) m :=
    fun _ _ hwindow => (settles_score (neg_lt_neg hwindow) (.inr (h m hm))).neg
  exact congrArg Except.ok (best_choose pruning [] hanswers (fun m hm => (finite_value (h m hm)).neg)
    (by decide) (fun _ => rfl) (by simp) rfl)

/--
With pruning or without, a search chooses the first of the moves that are worth most, and only chooses
none when there is none. It may look at any position whose pieces weigh less than `infinity`.
-/
theorem search_exact (p : Position) (side : Side) (depth : ℕ) :
    (p.weight < infinity → p.Bounded side depth) ∧
      (p.Bounded side depth → ∃ best : Option Choice,
        (∀ pruning, (p.search side (depth + 1) pruning).map (·.best) = .ok best) ∧
        (best = none ↔ p.moves side = []) ∧
        ∀ c ∈ best, c.score = worth depth p side c.move ∧
          ∃ before after, p.moves side = before ++ c.move :: after ∧
            (∀ m ∈ before, worth depth p side m < c.score) ∧
            ∀ m ∈ after, worth depth p side m ≤ c.score) := by
  refine ⟨bounded_of_weight_lt, fun h => ⟨_, best_search h, ?_, fun c hc => ?_⟩⟩
  · rw [Option.map_eq_none_iff, List.argmax_eq_none]
  · obtain ⟨m, hm, rfl⟩ := Option.map_eq_some_iff.mp hc
    exact ⟨rfl, exists_append_of_argmax hm⟩

theorem search_exact_kings :
    let board : Bounds := { left := 0, right := 3, bottom := 0, top := 3 }
    let p := ((Piece.standard? .king ⟨0, 0⟩ .white board).toList ++
      (Piece.standard? .king ⟨2, 2⟩ .black board).toList ++
      (Piece.standard? .pawn ⟨1, 1⟩ .black board).toList).foldl Position.add { bounds := board }
    p.weight < infinity ∧ ∃ c : Choice, c.score = worth 1 p .white c.move ∧
      ∀ pruning, (p.search .white 2 pruning).map (·.best) = .ok (some c) := by
  intro board p
  have hweight : p.weight < infinity := by decide
  obtain ⟨hbounded, hexact⟩ := Position.search_exact p .white 1
  obtain ⟨best, hsearch, hnone, hfirst⟩ := hexact (hbounded hweight)
  cases best with
  | none => exact absurd (hnone.mp rfl) (by decide_cbv)
  | some c => exact ⟨hweight, c, (hfirst c rfl).1, hsearch⟩

end Position

end FairyChess
