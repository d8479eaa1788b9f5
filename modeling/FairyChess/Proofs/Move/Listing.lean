import FairyChess.Move.Reach
import FairyChess.Proofs.Move.Legal
import FairyChess.Proofs.SquareSet
import Mathlib

/-!
Listings of moves. The moves of a side, the squares a piece can go to and the set of these squares are all
read off the move that a piece has to each square, and so is what making a move does.
-/
namespace FairyChess

/-- By piece, then by target. Moves of one side are compared. -/
def Move.Precedes (m n : Move) : Prop :=
  m.mover.index < n.mover.index ∨ m.mover.index = n.mover.index ∧ m.target.Precedes n.target

namespace Move

theorem Precedes.asymm {m n : Move} (h : m.Precedes n) : ¬n.Precedes m := by
  unfold Precedes Square.Precedes at *
  omega

theorem pair_ne_of_precedes {m n : Move} (h : m.Precedes n) : (m.mover, m.target) ≠ (n.mover, n.target) := by
  intro hpair
  obtain ⟨hmover, htarget⟩ := Prod.mk.inj hpair
  rcases h with hlt | ⟨-, hlt⟩
  · exact absurd (congrArg PieceId.index hmover) hlt.ne
  · exact hlt.ne htarget

/-- The order of a listing is settled by what is listed. -/
theorem eq_of_pairwise_precedes {ms ns : List Move} (hms : ms.Pairwise Precedes) (hns : ns.Pairwise Precedes)
    (hmem : ∀ m, m ∈ ms ↔ m ∈ ns) : ms = ns := by
  have hne {m n : Move} (h : m.Precedes n) : m ≠ n := by
    rintro rfl
    exact h.asymm h
  have hperm : ms.Perm ns := (List.perm_ext_iff_of_nodup (hms.imp hne) (hns.imp hne)).mpr hmem
  exact hperm.eq_of_pairwise (fun m n _ _ hmn hnm => absurd hnm hmn.asymm) hms hns

end Move

namespace Position

variable {p : Position} {side : Side} {id : PieceId} {q : Piece}

theorem pairwise_movesOf (p : Position) (mover : Slot) : (p.movesOf mover).Pairwise Move.Precedes := by
  unfold movesOf
  split
  · exact .nil
  · refine List.Pairwise.filterMap _ ?_ mover.piece.bounds.pairwise_squares
    intro s t hst m hm n hn
    obtain ⟨hmover, -, rfl⟩ := ends_of_moveOf? hm
    obtain ⟨hmover', -, rfl⟩ := ends_of_moveOf? hn
    exact .inr ⟨by rw [hmover, hmover'], hst⟩

theorem mover_of_mem_movesOf {mover : Slot} {m : Move} (h : m ∈ p.movesOf mover) : m.mover = mover.id := by
  obtain ⟨target, hmove⟩ := mem_movesOf.mp h
  exact (ends_of_moveOf? hmove).1

/-- No move is listed twice, and the moves stand in the order of their pieces and targets. -/
theorem pairwise_moves (p : Position) (side : Side) : (p.moves side).Pairwise Move.Precedes := by
  rw [moves, List.pairwise_flatMap]
  refine ⟨fun mover _ => p.pairwise_movesOf mover, ?_⟩
  refine ((p.pairwise_slots side).filter _).imp fun {a b} hlt m hm n hn => .inl ?_
  rwa [mover_of_mem_movesOf hm, mover_of_mem_movesOf hn]

theorem mem_moves_of_move? {target : Square} {m : Move} (h : p.move? id target = some m) :
    m ∈ p.moves id.side ∧ m.mover = id ∧ m.target = target := by
  obtain ⟨r, -, hmove⟩ := of_move? h
  obtain ⟨rfl, -, rfl⟩ := ends_of_moveOf? hmove
  exact ⟨mem_moves.mpr ⟨rfl, h⟩, rfl, rfl⟩

/-- The moves of one piece stand together in the listing of its side. -/
theorem movesOf_eq_filter (hq : p.piece? id = some q) :
    p.movesOf ⟨id, q⟩ = (p.moves id.side).filter (·.mover = id) := by
  refine Move.eq_of_pairwise_precedes (p.pairwise_movesOf _) ((p.pairwise_moves _).filter _) fun m => ?_
  simp only [mem_movesOf, List.mem_filter, decide_eq_true_iff, ← move?_eq_moveOf? hq]
  constructor
  · rintro ⟨target, hmove⟩
    obtain ⟨hm, hmover, -⟩ := mem_moves_of_move? hmove
    exact ⟨hm, hmover⟩
  · rintro ⟨hm, rfl⟩
    exact ⟨m.target, (mem_moves.mp hm).2⟩

theorem targets_eq_filter (hq : p.piece? id = some q) :
    p.targets ⟨id, q⟩ = ((p.moveList id.side).filter (·.1 = id)).map (·.2) := by
  rw [targets, movesOf_eq_filter hq, moveList, List.filter_map, List.map_map]
  rfl

/-- A move that there is, is listed, and a move that is listed, is the one that there is. -/
theorem mem_moves_iff {target : Square} {m : Move} :
    (id.side = side ∧ (∃ r, p.piece? id = some r ∧ r.isCaptured = false) ∧ p.move? id target = some m) ↔
      m ∈ p.moves side ∧ m.mover = id ∧ m.target = target := by
  constructor
  · rintro ⟨rfl, -, hmove⟩
    exact mem_moves_of_move? hmove
  · rintro ⟨hm, rfl, rfl⟩
    obtain ⟨hside, hmove⟩ := mem_moves.mp hm
    obtain ⟨r, hr, hstands, -⟩ := mover_of_mem_moves hm
    exact ⟨hside, ⟨r, hr, hstands⟩, hmove⟩

theorem mem_of_mem_targets {target : Square} (h : target ∈ p.targets ⟨id, q⟩) : target ∈ q.bounds := by
  obtain ⟨m, hm, rfl⟩ := List.mem_map.mp h
  obtain ⟨target, hmove⟩ := mem_movesOf.mp hm
  obtain ⟨-, -, rfl⟩ := ends_of_moveOf? hmove
  exact (stands_of_moveOf? hmove).2

theorem shows_destinations (hbounds : q.bounds = p.bounds) (harea : p.bounds.area ≤ maxArea) :
    (p.destinations ⟨id, q⟩).Shows p.bounds (p.targets ⟨id, q⟩).toFinset := by
  refine (SquareSet.represents_ofList harea fun target htarget => ?_).shows harea
  rw [← hbounds]
  exact mem_of_mem_targets htarget

theorem makeMove?_of_mem_moves {m : Move} (hm : m ∈ p.moves side) (choice : Option Kind) :
    p.makeMove? m.mover m.target choice = some (p.make m choice) := by
  rw [makeMove?, (mem_moves.mp hm).2, Option.map_some]

theorem makeMove?_of_not_listed {target : Square} (h : (id, target) ∉ p.moveList id.side)
    (choice : Option Kind) : p.makeMove? id target choice = none := by
  rw [makeMove?, Option.map_eq_none_iff, Option.eq_none_iff_forall_ne_some]
  intro m hmove
  obtain ⟨hm, rfl, rfl⟩ := mem_moves_of_move? hmove
  exact h (List.mem_map_of_mem hm)

/--
All listings of the moves of a side agree. There is one move for each piece that stands and each square it has
a move to, in the order of the pieces and of the files and ranks of the squares. The pairs of pieces and
squares, the squares of one piece and the set of these squares are read off that listing. To make a listed move
is to make the move of its piece to its square, and no other can be made.
-/
theorem listings_agree (hq : p.piece? id = some q) (hbounds : q.bounds = p.bounds)
    (harea : p.bounds.area ≤ maxArea) :
    ((∀ other target m, (other.side = id.side ∧ (∃ r, p.piece? other = some r ∧ r.isCaptured = false) ∧
        p.move? other target = some m) ↔ m ∈ p.moves id.side ∧ m.mover = other ∧ m.target = target) ∧
      (p.moves id.side).Pairwise Move.Precedes ∧ (p.moveList id.side).Nodup) ∧
    p.moveList id.side = (p.moves id.side).map (fun m => (m.mover, m.target)) ∧
    p.targets ⟨id, q⟩ = ((p.moveList id.side).filter (·.1 = id)).map (·.2) ∧
    (p.destinations ⟨id, q⟩).Shows p.bounds (p.targets ⟨id, q⟩).toFinset ∧
    ∀ choice, (∀ m ∈ p.moves id.side, p.makeMove? m.mover m.target choice = some (p.make m choice)) ∧
      ∀ other target, other.side = id.side → (other, target) ∉ p.moveList id.side →
        p.makeMove? other target choice = none := by
  have hordered := p.pairwise_moves id.side
  have hnodup : (p.moveList id.side).Nodup := List.pairwise_map.mpr (hordered.imp Move.pair_ne_of_precedes)
  refine ⟨⟨fun _ _ _ => mem_moves_iff, hordered, hnodup⟩, rfl, targets_eq_filter hq,
    shows_destinations hbounds harea, fun choice => ⟨fun m hm => makeMove?_of_mem_moves hm choice, ?_⟩⟩
  intro other target hside hlisted
  exact makeMove?_of_not_listed (hside ▸ hlisted) choice

/-- Of three pieces of a side one is captured, and on this board no square has the file or the rank zero. -/
theorem listings_agree_offset :
    let board : Bounds := { left := 2, right := 5, bottom := -4, top := -1 }
    let captured : Piece := (Kind.queen.template?.get rfl).spawn .box .white board
    let knight : Piece := (Kind.knight.template?.get rfl).spawn ⟨2, -4⟩ .white board
    let king : Piece := (Kind.king.template?.get rfl).spawn ⟨4, -4⟩ .white board
    let p : Position := { bounds := board, white := [captured, knight, king] }
    (p.piece? ⟨.white, 1⟩ = some knight ∧ knight.bounds = p.bounds ∧ p.bounds.area ≤ maxArea) ∧
      p.moveList .white = [(⟨.white, 1⟩, ⟨3, -2⟩), (⟨.white, 1⟩, ⟨4, -3⟩), (⟨.white, 2⟩, ⟨3, -4⟩),
        (⟨.white, 2⟩, ⟨3, -3⟩), (⟨.white, 2⟩, ⟨4, -3⟩)] ∧
      (p.destinations ⟨⟨.white, 1⟩, knight⟩).Shows p.bounds {⟨3, -2⟩, ⟨4, -3⟩} ∧
      p.makeMove? ⟨.white, 0⟩ ⟨4, -3⟩ none = none := by
  intro board captured knight king p
  have hlist : p.moveList .white = [(⟨.white, 1⟩, ⟨3, -2⟩), (⟨.white, 1⟩, ⟨4, -3⟩), (⟨.white, 2⟩, ⟨3, -4⟩),
      (⟨.white, 2⟩, ⟨3, -3⟩), (⟨.white, 2⟩, ⟨4, -3⟩)] := by cbv
  have hknight : p.piece? ⟨.white, 1⟩ = some knight ∧ knight.bounds = p.bounds ∧ p.bounds.area ≤ maxArea :=
    ⟨rfl, rfl, by decide⟩
  obtain ⟨-, -, htargets, hshows, hmade⟩ := listings_agree hknight.1 hknight.2.1 hknight.2.2
  obtain ⟨-, hrefused⟩ := hmade none
  rw [hlist] at htargets hrefused
  rw [htargets] at hshows
  exact ⟨hknight, hlist, hshows, hrefused _ _ rfl (by decide)⟩

end Position

end FairyChess
