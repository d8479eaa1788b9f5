import FairyChess.Fixed.Move
import FairyChess.Proofs.Fixed.Route
import FairyChess.Proofs.Move.Passage
import FairyChess.Proofs.Move.Threat

/-!
Moves in coordinates of 32 bits. Where all pieces that stand, and their boards, lie in a region to compute in,
every build gives the moves and the threats that the rules give in the plane.
-/
namespace FairyChess

/-- The piece and its board lie in a region to compute in for its direction. -/
structure Piece.LiesIn (q : Piece) (z : Bounds) : Prop where
  square : q.square ∈ z
  board : ∀ s ∈ q.bounds, s ∈ z
  computes : z.Computes q.direction

/-- So do all pieces that stand. -/
def Position.LiesIn (p : Position) (z : Bounds) : Prop :=
  ∀ id q, p.piece? id = some q → q.isCaptured = false → q.LiesIn z

namespace Fixed

variable {m : Type → Type} [Build m] [LawfulMonad m] {p : Position} {z : Bounds} {target : Square}

section Plain

variable {mover : Slot} {leaper : Bool}

theorem passedBy?_eq {direction : ℤ} (h : z.Computes direction) (q : Piece) {route : Route}
    (hroute : ∀ step ∈ route, step.start ∈ z ∧ step.finish ∈ z) :
    (passedBy? p q leaper route : m (Option (List PieceId))) = pure (p.passedBy? q leaper route) := by
  induction route with
  | nil => rfl
  | cons step rest ih =>
    obtain ⟨⟨hstart, hfinish⟩, hrest⟩ := List.forall_mem_cons.mp hroute
    have hpassed : (passed? p q leaper step : m (Option (List PieceId))) =
        pure (p.passed? q leaper step) := by
      rw [passed?, between_eq h hstart hfinish, pure_bind, Position.passed?]
    rw [passedBy?, hpassed, pure_bind, Position.passedBy?]
    cases p.passed? q leaper step with
    | none => rfl
    | some here =>
      dsimp only [Option.bind_eq_bind, Option.bind_some]
      split
      · rfl
      · rw [ih hrest, pure_bind]
        cases p.passedBy? q leaper rest <;> rfl

theorem clausePasses?_eq {q : Piece} (h : q.LiesIn z) (htarget : target ∈ z) (c : Clause) :
    (clausePasses? p q target c : m (Option (List PieceId))) = pure (p.clausePasses? q target c) := by
  have hpasses : ∀ route ∈ c.pattern.routes q.frame {} q.square target,
      (passedBy? p q c.leaper route : m (Option (List PieceId))) = pure (p.passedBy? q c.leaper route) :=
    fun route hroute => passedBy?_eq h.computes q (ends_mem_of_mem_routes h.board h.square hroute)
  have hopen : ∀ route ∈ c.pattern.routes q.frame {} q.square target,
      (Option.isSome <$> passedBy? p q c.leaper route : m Bool) =
        pure (p.passedBy? q c.leaper route).isSome := by
    intro route hroute
    rw [hpasses route hroute, map_pure]
  rw [clausePasses?, findRoute_eq_findM? h.computes h.board _ h.square htarget, findM?_eq_pure hopen,
    pure_bind, Position.clausePasses?, Pattern.findRoute_eq_findM?, List.findM?_pure]
  change _ = pure ((List.find? (fun route => (p.passedBy? q c.leaper route).isSome)
    (c.pattern.routes q.frame {} q.square target)).bind (p.passedBy? q c.leaper))
  cases hfound : (c.pattern.routes q.frame {} q.square target).find? fun route =>
      (p.passedBy? q c.leaper route).isSome with
  | none => rfl
  | some route => exact hpasses route (List.mem_of_find?_eq_some hfound)

theorem grammarMove?_eq (h : mover.piece.LiesIn z) (htarget : target ∈ z) (occupant : Option Slot) :
    (grammarMove? p mover target occupant : m (Option Move)) =
      pure (p.grammarMove? mover target occupant) := by
  refine findSomeM?_eq_pure fun c _ => ?_
  split
  · rw [clausePasses?_eq h htarget, pure_bind]
  · rfl

theorem enPassant?_eq (h : mover.piece.LiesIn z) :
    (enPassant? p mover target : m (Option Move)) = pure (p.enPassant? mover target) := by
  have hstep : (allows Position.enPassantStep mover.piece.frame mover.piece.square target : m Bool) =
      pure (Position.enPassantStep.allows mover.piece.frame mover.piece.square target) :=
    allows_eq h.computes h.board h.square _
  unfold enPassant? Position.enPassant?
  split
  · cases p.occupant? ⟨target.file, mover.piece.square.rank⟩ with
    | none => rfl
    | some victim =>
      dsimp only [Option.bind_eq_bind, Option.bind_some]
      -- Whether the step is allowed is asked last.
      split_ifs with hvictim hmove hmove
      · obtain ⟨-, -, -, -, -, -, hallows⟩ := hmove
        rw [hstep, pure_bind]
        exact if_pos hallows
      · obtain ⟨hside, hpawn, hpassed, hturns, hlast, hdummy⟩ := hvictim
        rw [hstep, pure_bind]
        exact if_neg fun hallows => hmove ⟨hside, hpawn, hpassed, hturns, hlast, hdummy, hallows⟩
      · obtain ⟨hside, hpawn, hpassed, hturns, hlast, hdummy, -⟩ := hmove
        exact absurd ⟨hside, hpawn, hpassed, hturns, hlast, hdummy⟩ hvictim
      · rfl
  · rfl

theorem plainMove?_eq (h : mover.piece.LiesIn z) :
    (plainMove? p mover target : m (Option Move)) = pure (p.plainMove? mover target) := by
  unfold plainMove? Position.plainMove?
  split
  · rfl
  · next hready =>
    have htarget : target ∈ z := by
      simp only [Bool.or_eq_true, Bool.not_eq_true', decide_eq_false_iff_not, not_or, not_not] at hready
      exact h.board target hready.2
    cases p.occupant? target with
    | some other =>
      dsimp only
      split
      · rfl
      · exact grammarMove?_eq h htarget _
    | none =>
      rw [grammarMove?_eq h htarget, pure_bind, enPassant?_eq h]
      cases p.grammarMove? mover target none <;> rfl

theorem plainMoves_eq (h : mover.piece.LiesIn z) :
    (plainMoves p mover : m (List Move)) = pure (p.plainMoves mover) := by
  unfold plainMoves Position.plainMoves
  split
  · rfl
  · exact filterMapM_eq_pure fun s _ => plainMove?_eq h

theorem canCapture_eq (h : mover.piece.LiesIn z) (s : Square) (victim : PieceId) :
    (canCapture p mover s victim : m Bool) = pure (p.canCapture mover s victim) := by
  unfold canCapture Position.canCapture
  rw [plainMoves_eq h, plainMove?_eq h, pure_bind, pure_bind]
  split <;> rfl

end Plain

section Threats

/-- The pieces that could capture on a probed square stand in the position too. -/
theorem liesIn_of_mem_probe (h : p.LiesIn z) {s : Square} {side : Side} {slot : Slot}
    (hslot : slot ∈ (p.probe s side).1.alive side.opposite) : slot.piece.LiesIn z := by
  have hside : ∀ b, side.opposite ≠ (Piece.phantom s side b).side := by
    intro b
    rw [Piece.side_phantom]
    exact side.opposite_ne
  unfold Position.probe at hslot
  dsimp only at hslot
  split at hslot
  · next other hother =>
    split at hslot
    · obtain ⟨-, hpiece, hstands⟩ := p.mem_alive.mp hslot
      exact h _ _ hpiece hstands
    · rw [Position.alive_add_of_ne _ (hside _)] at hslot
      obtain ⟨-, hpiece, hstands⟩ := (Position.mem_alive _).mp hslot
      by_cases hid : slot.id = other.id
      · rw [hid, Position.piece?_modify_self] at hpiece
        obtain ⟨q, -, hq⟩ := Option.map_eq_some_iff.mp hpiece
        rw [← hq] at hstands
        cases hstands
      · rw [Position.piece?_modify_of_ne _ hid] at hpiece
        exact h _ _ hpiece hstands
  · rw [Position.alive_add_of_ne _ (hside _)] at hslot
    obtain ⟨-, hpiece, hstands⟩ := p.mem_alive.mp hslot
    exact h _ _ hpiece hstands

theorem threats_of_liesIn (h : p.LiesIn z) (s : Square) (side : Side) :
    (threats p s side : m (List PieceId)) = pure (p.threats s side) := by
  unfold threats Position.threats
  split
  · dsimp only
    have hattacker : ∀ attacker ∈ (p.probe s side).1.alive side.opposite,
        (do return if ← canCapture (p.probe s side).1 attacker s (p.probe s side).2 then some attacker.id
          else none : m (Option PieceId)) =
        pure (if (p.probe s side).1.canCapture attacker s (p.probe s side).2 then some attacker.id
          else none) := by
      intro attacker hattacker
      rw [canCapture_eq (liesIn_of_mem_probe h hattacker), pure_bind]
    rw [filterMapM_eq_pure hattacker, ← List.filterMap_eq_map, ← List.filterMap_eq_filter,
      List.filterMap_filterMap]
    congr 2
    funext attacker
    rw [Option.guard]
    split <;> rfl
  · rfl

theorem checkStatus_of_liesIn (h : p.LiesIn z) (side : Side) :
    (checkStatus p side : m CheckStatus) = pure (p.checkStatus side) := by
  have hthreats : ∀ king ∈ p.kings side, (threats p king.piece.square side : m (List PieceId)) =
      pure (p.threats king.piece.square side) := fun king _ => threats_of_liesIn h king.piece.square side
  rw [checkStatus, Position.checkStatus]
  split
  · rfl
  · rw [mapM_eq_pure hthreats, pure_bind, List.flatMap_def]

end Threats

section Castling

variable {king : Slot}

/-- A piece that stands may be put on any other square of the region. -/
theorem liesIn_relocate (h : p.LiesIn z) (hking : p.piece? king.id = some king.piece)
    (hstands : king.piece.isCaptured = false) {s : Square} (hs : s ∈ z) :
    (p.modify king.id (Piece.relocate s)).LiesIn z := by
  intro id q hq hq'
  by_cases hid : id = king.id
  · subst hid
    rw [Position.piece?_modify_self, hking] at hq
    obtain rfl := Option.some.inj hq
    obtain ⟨-, hboard, hcomputes⟩ := h _ _ hking hstands
    exact ⟨hs, hboard, hcomputes⟩
  · rw [Position.piece?_modify_of_ne _ hid] at hq
    exact h _ _ hq hq'

/-- There is a file to spare on either side of the board for the scan. -/
theorem firstAlong_eq {bounds : Bounds} {direction step : ℤ} (h : z.Computes direction)
    (hboard : ∀ s ∈ bounds, s ∈ z) (hstep : |step| ≤ 1) (n : ℕ) (s : Square) :
    (firstAlong p bounds step n s : m (Option Slot)) = pure (p.firstAlong bounds step n s) := by
  induction n generalizing s with
  | zero => rfl
  | succ n ih =>
    unfold firstAlong Position.firstAlong
    split
    · next hs =>
      obtain ⟨⟨hleft, hright⟩, -⟩ := hboard s hs
      obtain ⟨hlow, hhigh⟩ := abs_le.mp hstep
      have hz := h.left
      have hz' := h.right
      have hnext : InRange (s.file + step) := by constructor <;> omega
      cases p.occupant? s with
      | some slot => rfl
      | none =>
        dsimp only
        rw [word_of_inRange hnext, pure_bind, ih]
        rfl
    · rfl

/-- The square that the king passes is between two of the region. -/
theorem passed_mem {direction : ℤ} {home : Square} (h : z.Computes direction) (hhome : home ∈ z)
    (htarget : target ∈ z) :
    InRange (home.file + (target.file - home.file).sign) ∧
      (⟨home.file + (target.file - home.file).sign, home.rank⟩ : Square) ∈ z := by
  have hfile : z.left ≤ home.file + (target.file - home.file).sign ∧
      home.file + (target.file - home.file).sign < z.right := by
    obtain ⟨⟨hleft, hright⟩, -⟩ := hhome
    obtain ⟨⟨hleft', hright'⟩, -⟩ := htarget
    have hbetween := Square.approach_between home.file target.file 1
    rw [Square.approach_one] at hbetween
    constructor <;> omega
  have hmem : (⟨home.file + (target.file - home.file).sign, home.rank⟩ : Square) ∈ z := ⟨hfile, hhome.2⟩
  exact ⟨(h.held hmem).file, hmem⟩

theorem abs_sign_le (n : ℤ) : |n.sign| ≤ 1 := by
  rcases n.sign_trichotomy with h | h | h <;> rw [h] <;> decide

theorem castle?_eq (h : p.LiesIn z) (hking : p.piece? king.id = some king.piece) :
    (castle? p king target : m (Option Move)) = pure (p.castle? king target) := by
  unfold castle? Position.castle?
  dsimp only
  by_cases hready : king.piece.behavior.castleRole = some .king ∧ king.piece.turns = 0 ∧
      !king.piece.isCaptured ∧ target ∈ king.piece.bounds ∧ p.isEmpty target ∧
      target.rank = king.piece.square.rank
  swap
  · rw [if_neg hready, if_neg]
    rintro ⟨hrole, hturns, hstands, htarget, hempty, hrank, -⟩
    exact hready ⟨hrole, hturns, hstands, htarget, hempty, hrank⟩
  rw [if_pos hready]
  obtain ⟨hrole, hturns, hstands, htarget, hempty, hrank⟩ := hready
  have hstands' : king.piece.isCaptured = false := by simpa using hstands
  obtain ⟨hhome, hboard, hcomputes⟩ := h _ _ hking hstands'
  have hmem : target ∈ z := hboard _ htarget
  have hnear := hcomputes.near hhome hmem
  rw [word_of_inRange hnear.across, pure_bind,
    word_of_inRange (inRange_natAbs (hcomputes.abs_file_lt hhome hmem)), pure_bind]
  by_cases hfar : (target.file - king.piece.square.file).natAbs = 2
  swap
  · rw [if_neg (by omega), if_neg]
    exact fun h => hfar h.2.2.2.2.2.2
  rw [if_pos (by omega), if_pos ⟨hrole, hturns, hstands, htarget, hempty, hrank, hfar⟩]
  obtain ⟨hpassed, hpassedz⟩ := passed_mem hcomputes hhome hmem
  rw [word_of_inRange hpassed, pure_bind, firstAlong_eq hcomputes hboard (abs_sign_le _), pure_bind]
  cases hscan : p.firstAlong king.piece.bounds (target.file - king.piece.square.file).sign
      (king.piece.bounds.right - king.piece.bounds.left).toNat
      ⟨king.piece.square.file + (target.file - king.piece.square.file).sign, king.piece.square.rank⟩ with
  | none => rfl
  | some rook =>
    dsimp only [Option.bind_eq_bind, Option.bind_some]
    by_cases hrook : rook.id.side = king.id.side ∧ rook.piece.behavior.castleRole = some .rook ∧
        rook.piece.turns = 0
    swap
    · rw [if_neg hrook, if_neg]
      exact fun h => hrook ⟨h.1, h.2.1, h.2.2.1⟩
    obtain ⟨-, -, s, hs⟩ := Position.of_firstAlong hscan
    obtain ⟨-, hpiece, -, hrookstands⟩ := p.of_occupant? hs
    have hrookz := (h _ _ hpiece hrookstands).square
    have hreach := hcomputes.near hhome hrookz
    have hsafe {s : Square} (hs : s ∈ z) :
        (List.isEmpty <$> threats (p.modify king.id (Piece.relocate s)) s king.id.side : m Bool) =
          pure ((p.modify king.id (Piece.relocate s)).threats s king.id.side).isEmpty := by
      rw [threats_of_liesIn (liesIn_relocate h hking hstands' hs), map_pure]
    rw [if_pos hrook, word_of_inRange hreach.across, pure_bind,
      word_of_inRange (inRange_natAbs (hcomputes.abs_file_lt hhome hrookz)), pure_bind, hsafe hhome,
      hsafe hpassedz, hsafe hmem]
    have hthree : (3 : ℤ) ≤ ((rook.piece.square.file - king.piece.square.file).natAbs : ℤ) ↔
        3 ≤ (rook.piece.square.file - king.piece.square.file).natAbs := by omega
    simp only [pure_andM_pure, pure_bind, Bool.and_eq_true, decide_eq_true_eq, hrook, true_and, hthree]
    exact (apply_ite pure ..).symm

end Castling

section Legal

variable {mover : Slot}

/-- A piece of the position moves in every build as it does in the plane. -/
theorem moveOf?_eq (h : p.LiesIn z) (hmover : p.piece? mover.id = some mover.piece) :
    (moveOf? p mover target : m (Option Move)) = pure (p.moveOf? mover target) := by
  have hplain : (plainMove? p mover target : m (Option Move)) = pure (p.plainMove? mover target) := by
    cases hcaptured : mover.piece.isCaptured with
    | true => simp only [plainMove?, Position.plainMove?, hcaptured, Bool.true_or, if_true]
    | false => exact plainMove?_eq (h _ _ hmover hcaptured)
  rw [moveOf?, hplain, pure_bind, castle?_eq h hmover, Position.moveOf?]
  cases p.plainMove? mover target <;> rfl

theorem movesOf_eq (h : p.LiesIn z) (hmover : p.piece? mover.id = some mover.piece) :
    (movesOf p mover : m (List Move)) = pure (p.movesOf mover) := by
  unfold movesOf Position.movesOf
  split
  · rfl
  · exact filterMapM_eq_pure fun s _ => moveOf?_eq h hmover

theorem moves_eq (h : p.LiesIn z) (side : Side) : (moves p side : m (List Move)) = pure (p.moves side) := by
  have hmoves : ∀ mover ∈ p.alive side, (movesOf p mover : m (List Move)) = pure (p.movesOf mover) :=
    fun mover hmover => movesOf_eq h (p.mem_alive.mp hmover).2.1
  rw [moves, mapM_eq_pure hmoves, pure_bind, Position.moves, List.flatMap_def]

end Legal

end Fixed

end FairyChess
