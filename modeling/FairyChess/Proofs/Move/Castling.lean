import FairyChess.Proofs.Move.Threat

/-!
Castling and threats. A king castles to a square that is safe while its rook still stands where it was,
so that whatever attacks it afterwards does so along a square that the rook has left or reached.
-/
namespace FairyChess

theorem Kind.isDummy_of_template? {kind : Kind} {t : Template} (h : kind.template? = some t) :
    t.grammar.isDummy = false := by
  cases kind <;> cases h <;> rfl

namespace Piece

variable {choice : Option Kind} {q : Piece}

theorem isDummy_promoted (h : q.isDummy = true → q.promotion? choice = none) :
    (q.promoted choice).isDummy = q.isDummy := by
  unfold promoted
  cases hpromotion : q.promotion? choice with
  | none => rfl
  | some kind =>
    have hdummy : q.isDummy = false := by
      rw [Bool.eq_false_iff]
      intro hdummy
      rw [h hdummy] at hpromotion
      cases hpromotion
    change ((q.promote? kind).getD q).isDummy = q.isDummy
    unfold promote?
    cases htemplate : kind.template? with
    | none => rfl
    | some t => exact (Kind.isDummy_of_template? htemplate).trans hdummy.symm

theorem enPassant_promoted (h : q.enPassant = false) : (q.promoted choice).enPassant = false := by
  rcases q.promoted_cases choice with hp | ⟨t, hp⟩ <;> rw [hp]
  · exact h
  · rfl

end Piece

/-- A king's move to the target and its rook's move to the square that the king crosses. -/
structure Castling where
  king : Slot
  rook : Slot
  target : Square
  crossed : Square

def Castling.move (c : Castling) : Move where
  mover := c.king.id
  origin := c.king.piece.square
  target := c.target
  special := .castle c.rook.id c.rook.piece.square c.crossed

namespace Castling

variable (c : Castling) (p : Position)

/-- The position in which the target is tested: the king is there and the rook is at home. -/
def tested : Position :=
  p.modify c.king.id (Piece.relocate c.target)

/-- The position after castling with the rook put back home. -/
def returned (choice : Option Kind) : Position :=
  (p.after c.move choice).modify c.rook.id (Piece.relocate c.rook.piece.square)

/-- The pieces of a castling move, and that the tested target is safe. -/
structure Allowed : Prop where
  king_mem : p.piece? c.king.id = some c.king.piece
  rook_mem : p.piece? c.rook.id = some c.rook.piece
  ne : c.rook.id ≠ c.king.id
  side : c.rook.id.side = c.king.id.side
  rank : c.target.rank = c.king.piece.square.rank
  target_ne_home : c.target ≠ c.rook.piece.square
  target_ne_crossed : c.target ≠ c.crossed
  safe : (c.tested p).threats c.target c.king.id.side = []

end Castling

namespace Position

variable {p : Position}

/-- The legal moves that are castling moves. -/
theorem WellFormed.castling (hp : p.WellFormed) {id : PieceId} {target : Square} {m : Move}
    (h : p.move? id target = some m) {rook : PieceId} {rookFrom rookTo : Square}
    (hspecial : m.special = .castle rook rookFrom rookTo) :
    ∃ k r : Piece, r.square = rookFrom ∧ (Castling.mk ⟨id, k⟩ ⟨rook, r⟩ target rookTo).Allowed p ∧
      m = (Castling.mk ⟨id, k⟩ ⟨rook, r⟩ target rookTo).move := by
  have hfits : p.Fits m := hp.fits (.legal h)
  obtain ⟨k, hk, hmove⟩ := of_move? h
  have hrook : m.rook? = some rook := by simp [Move.rook?, hspecial]
  obtain ⟨⟨-, -, -, -, -, hrank, hfar⟩, slot, hslot, ⟨hside, -, -, hdistance, -, -, hsafe⟩, rfl⟩ :=
    of_castle? (castle?_of_rook? hmove hrook)
  obtain ⟨rfl, rfl, rfl⟩ := Special.castle.inj hspecial
  obtain ⟨hne, -, hcrossed, -⟩ := hfits.castle rfl
  obtain ⟨-, -, s, hs⟩ := of_firstAlong hslot
  obtain ⟨-, hpiece, -, -⟩ := p.of_occupant? hs
  have hhome : target ≠ slot.piece.square := by
    -- The king goes two files, and the rook stands three away or more.
    intro htarget
    rw [← htarget] at hdistance
    dsimp only at hdistance hfar
    omega
  have hprobe := List.isEmpty_iff.mp hsafe
  exact ⟨k, slot.piece, rfl, ⟨hk, hpiece, hne, hside, hrank, hhome, hcrossed.symm, hprobe⟩, rfl⟩

end Position

namespace Castling
open Position

variable {c : Castling} {p : Position} (choice : Option Kind)

theorem Allowed.displace_king (h : c.Allowed p) :
    c.move.displace c.king.id c.king.piece = c.king.piece.advance c.move := by
  simp [Move.displace, Castling.move, h.ne.symm]

theorem Allowed.promotion?_eq (h : c.Allowed p) :
    p.promotion? c.move choice = (c.king.piece.advance c.move).promotion? choice := by
  have hking : p.piece? c.move.mover = some c.king.piece := h.king_mem
  rw [p.promotion?_eq hking]
  exact congrArg (Piece.promotion? · choice) h.displace_king

/-- The castled king, which promotes if that is due. -/
theorem Allowed.piece?_king (h : c.Allowed p) :
    (p.after c.move choice).piece? c.king.id =
      some ((c.king.piece.advance c.move).promoted choice) := by
  have hmover : c.king.id = c.move.mover := rfl
  rw [piece?_after, h.king_mem, Option.map_some, Move.effect, if_pos hmover, h.displace_king]

theorem Allowed.piece?_rook (h : c.Allowed p) :
    (p.after c.move choice).piece? c.rook.id = some (c.rook.piece.castleTo c.crossed) := by
  rw [piece?_after, h.rook_mem, Option.map_some]
  simp [Move.effect, Move.displace, Castling.move, h.ne]

theorem piece?_after_castling_of_ne {id : PieceId} (hking : id ≠ c.king.id) (hrook : id ≠ c.rook.id) :
    (p.after c.move choice).piece? id = p.piece? id := by
  have htouched : id ∉ c.move.touched := by
    simp [Move.touched, Castling.move, Move.rook?, hking, hrook]
  exact p.piece?_after_of_not_touched htouched choice

/-- The castled king stands on its target and cannot be captured en passant. -/
theorem Allowed.exists_king (h : c.Allowed p) :
    ∃ k, (p.after c.move choice).piece? c.king.id = some k ∧
      k.square = c.target ∧ k.enPassant = false := by
  refine ⟨_, h.piece?_king choice, Piece.square_promoted choice _, Piece.enPassant_promoted ?_⟩
  simp [Piece.advance, Castling.move, h.rank]

theorem Allowed.view_target (h : c.Allowed p) (hp : p.WellFormed) (hfits : p.Fits c.move)
    (hbox : c.target ≠ .box) :
    ∃ dummy, (p.after c.move choice).view c.target = some (c.king.id, dummy) := by
  obtain ⟨k, hk, hsquare, -⟩ := h.exists_king choice
  have hstands : k.isCaptured = false := by
    rw [Piece.isCaptured, hsquare]
    exact beq_false_of_ne hbox
  have hoccupant : (p.after c.move choice).occupant? k.square =
      some ⟨c.king.id, k⟩ := (hp.after hfits choice).occupant?_eq (Slot.mk c.king.id k) hk hstands
  rw [hsquare] at hoccupant
  exact ⟨k.isDummy, by rw [view, hoccupant, Option.map_some]⟩

/-- The enemy stays as it is, and is no part of the move. -/
theorem Allowed.piece?_enemy (h : c.Allowed p) {id : PieceId} (hid : id.side ≠ c.king.id.side) :
    id ≠ c.rook.id ∧ (p.after c.move choice).piece? id = (c.tested p).piece? id := by
  have hking : id ≠ c.king.id := fun heq => hid (congrArg PieceId.side heq)
  have hrook : id ≠ c.rook.id := fun heq => hid ((congrArg PieceId.side heq).trans h.side)
  refine ⟨hrook, ?_⟩
  rw [piece?_after_castling_of_ne choice hking hrook, tested, piece?_modify_of_ne _ hking]

variable {choice}

theorem Allowed.enPassant_king (h : c.Allowed p) {k : Piece}
    (hk : (p.after c.move choice).piece? c.king.id = some k) : k.enPassant = false := by
  obtain ⟨k', hk', -, henPassant⟩ := h.exists_king choice
  rw [hk] at hk'
  rw [Option.some.inj hk', henPassant]

/-- With the rook put back, the position after castling looks like the one that was tested. -/
theorem Allowed.view_returned (h : c.Allowed p)
    (hdummy : c.king.piece.isDummy = true → p.promotion? c.move choice = none) (s : Square) :
    (c.returned p choice).view s = (c.tested p).view s := by
  unfold returned tested
  apply view_congr
  · simp only [bounds_modify, bounds_after]
  intro id
  by_cases hking : id = c.king.id
  · subst hking
    rw [h.promotion?_eq] at hdummy
    rw [piece?_modify_of_ne _ h.ne.symm, piece?_modify_self, h.piece?_king, h.king_mem]
    refine congrArg some (Piece.seenAt_congr ?_ ?_ s)
    · exact Piece.square_promoted choice _
    · exact Piece.isDummy_promoted hdummy
  by_cases hrook : id = c.rook.id
  · subst hrook
    rw [piece?_modify_self, piece?_modify_of_ne _ hking, h.piece?_rook, h.rook_mem]
    exact congrArg some (Piece.seenAt_congr rfl rfl s)
  · rw [piece?_modify_of_ne _ hrook, piece?_modify_of_ne _ hking,
      piece?_after_castling_of_ne choice hking hrook]

/-- The rook itself only changes what its two squares look like. -/
theorem Allowed.view_after (h : c.Allowed p) {s : Square} (hfrom : s ≠ c.rook.piece.square)
    (hto : s ≠ c.crossed) : (p.after c.move choice).view s = (c.returned p choice).view s := by
  unfold returned
  apply view_congr
  · simp only [bounds_modify]
  intro id
  by_cases hrook : id = c.rook.id
  · subst hrook
    have hreached : (c.rook.piece.castleTo c.crossed).seenAt s = none := Piece.seenAt_of_ne hto.symm
    have hleft : ((c.rook.piece.castleTo c.crossed).relocate c.rook.piece.square).seenAt s = none :=
      Piece.seenAt_of_ne hfrom.symm
    rw [piece?_modify_self, h.piece?_rook]
    exact congrArg some (hreached.trans hleft.symm)
  · rw [piece?_modify_of_ne _ hrook]

variable (hp : p.WellFormed) (hfits : p.Fits c.move)
  (hdummy : c.king.piece.isDummy = true → p.promotion? c.move choice = none)
include hp hfits hdummy

theorem Allowed.threats_returned (h : c.Allowed p) :
    (c.returned p choice).threats c.target c.king.id.side = [] := by
  by_cases hbox : c.target = .box
  · rw [hbox, threats_box]
  have hreturned := h.view_returned hdummy
  obtain ⟨d, hview⟩ := h.view_target choice hp hfits hbox
  rw [h.view_after h.target_ne_home h.target_ne_crossed] at hview
  have hprobe := (hreturned c.target).symm.trans hview
  have henPassant : ∀ k, (c.returned p choice).piece? c.king.id = some k → k.enPassant = false := by
    intro k hk
    rw [returned, piece?_modify_of_ne _ h.ne.symm] at hk
    exact h.enPassant_king hk
  have henemies : ∀ id : PieceId, id.side ≠ c.king.id.side →
      (c.returned p choice).piece? id = (c.tested p).piece? id := by
    intro id hid
    obtain ⟨hrook, henemy⟩ := h.piece?_enemy choice hid
    rw [returned, piece?_modify_of_ne _ hrook, henemy]
  rw [List.eq_nil_iff_forall_not_mem]
  intro a ha
  obtain ⟨q, -, hdiffers⟩ := exists_of_mem_threats hview hprobe henPassant henemies h.safe ha
  exact hdiffers fun _ _ _ _ _ square _ => hreturned square

/-- What threatens the castled king looks along a square of the rook. -/
theorem Allowed.exists_route (h : c.Allowed p) {a : PieceId}
    (ha : a ∈ (p.after c.move choice).threats c.target c.king.id.side) :
    ∃ q, (p.after c.move choice).piece? a = some q ∧
      ∃ clause ∈ q.grammar.clauses, ∃ s, ∃ route ∈ clause.pattern.routes q.frame {} q.square s,
        c.rook.piece.square ∈ route.squares ∨ c.crossed ∈ route.squares := by
  by_cases hbox : c.target = .box
  · rw [hbox, threats_box] at ha
    cases ha
  have hreturned := h.view_returned hdummy
  obtain ⟨d, hview⟩ := h.view_target choice hp hfits hbox
  have hprobe := hview
  rw [h.view_after h.target_ne_home h.target_ne_crossed, hreturned] at hprobe
  obtain ⟨q, hq, hdiffers⟩ := exists_of_mem_threats hview hprobe (fun k => h.enPassant_king)
    (fun id hid => (h.piece?_enemy choice hid).2) h.safe ha
  refine ⟨q, hq, ?_⟩
  by_contra hnone
  apply hdiffers
  intro clause hclause s route hroute square hsquare
  have hfrom : square ≠ c.rook.piece.square := by
    rintro rfl
    exact hnone ⟨clause, hclause, s, route, hroute, .inl hsquare⟩
  have hto : square ≠ c.crossed := by
    rintro rfl
    exact hnone ⟨clause, hclause, s, route, hroute, .inr hsquare⟩
  exact (h.view_after hfrom hto).trans (hreturned square)

end Castling

namespace Position

variable {p : Position}

/--
Castling leaves the king safe but for the rook: nothing would threaten the king with the rook put back,
and whatever threatens it has a route over a square that the rook has left or reached. A king that is a
dummy must not promote, since it can be captured then.
-/
theorem WellFormed.threats_after_castling (hp : p.WellFormed) {id : PieceId} {target : Square}
    {m : Move} (hm : p.move? id target = some m) {rook : PieceId} {rookFrom rookTo : Square}
    (hspecial : m.special = .castle rook rookFrom rookTo) {choice : Option Kind}
    (hdummy : ∀ king, p.piece? id = some king → king.isDummy = true →
      p.promotion? m choice = none) :
    ((p.after m choice).modify rook (Piece.relocate rookFrom)).threats target id.side = [] ∧
      ∀ a ∈ (p.after m choice).threats target id.side,
        ∃ q, (p.after m choice).piece? a = some q ∧
          ∃ c ∈ q.grammar.clauses, ∃ s, ∃ route ∈ c.pattern.routes q.frame {} q.square s,
            rookFrom ∈ route.squares ∨ rookTo ∈ route.squares := by
  have hfits : p.Fits m := hp.fits (.legal hm)
  obtain ⟨k, r, rfl, h, rfl⟩ := hp.castling hm hspecial
  have hking := hdummy k h.king_mem
  exact ⟨h.threats_returned hp hfits hking, fun a ha => h.exists_route hp hfits hking ha⟩

theorem threats_after_castling_rooks :
    let board : Bounds := { left := 0, right := 5, bottom := 0, top := 1 }
    let p := ((Piece.standard? .king ⟨0, 0⟩ .white board).toList ++
      (Piece.standard? .rook ⟨3, 0⟩ .white board).toList ++
      (Piece.standard? .rook ⟨4, 0⟩ .black board).toList).foldl Position.add { bounds := board }
    let m : Move := { mover := ⟨.white, 0⟩, origin := ⟨0, 0⟩, target := ⟨2, 0⟩,
                      special := .castle ⟨.white, 1⟩ ⟨3, 0⟩ ⟨1, 0⟩ }
    p.move? ⟨.white, 0⟩ ⟨2, 0⟩ = some m ∧
      ((p.after m none).modify ⟨.white, 1⟩ (Piece.relocate ⟨3, 0⟩)).threats ⟨2, 0⟩ .white = [] ∧
      ∃ q, (p.after m none).piece? ⟨.black, 0⟩ = some q ∧
        ∃ c ∈ q.grammar.clauses, ∃ s, ∃ route ∈ c.pattern.routes q.frame {} q.square s,
          ⟨3, 0⟩ ∈ route.squares ∨ ⟨1, 0⟩ ∈ route.squares := by
  intro board p m
  have hp : p.WellFormed :=
    (regular_foldl_add (by decide) (by decide) (by decide) (by decide)).toWellFormed
  have hm : p.move? ⟨.white, 0⟩ ⟨2, 0⟩ = some m := by cbv
  have hthreat : ⟨.black, 0⟩ ∈ (p.after m none).threats ⟨2, 0⟩ .white := by decide_cbv
  have hpromotion : p.promotion? m none = none := by cbv
  obtain ⟨hback, hroutes⟩ := hp.threats_after_castling hm rfl fun _ _ _ => hpromotion
  exact ⟨hm, hback, hroutes ⟨.black, 0⟩ hthreat⟩

/-- The rook uncovers an attack on the king that it castles with. -/
theorem not_safe_after_castling :
    let board : Bounds := { left := 0, right := 5, bottom := 0, top := 1 }
    let p := ((Piece.standard? .king ⟨4, 0⟩ .white board).toList ++
      (Piece.standard? .rook ⟨1, 0⟩ .white board).toList ++
      (Piece.standard? .rook ⟨0, 0⟩ .black board).toList).foldl Position.add { bounds := board }
    p.WellFormed ∧ ∃ m, p.move? ⟨.white, 0⟩ ⟨2, 0⟩ = some m ∧
      m.special = .castle ⟨.white, 1⟩ ⟨1, 0⟩ ⟨3, 0⟩ ∧
      ((p.after m none).piece? ⟨.white, 0⟩).map (·.square) = some ⟨2, 0⟩ ∧
      (p.after m none).threats ⟨2, 0⟩ .white = [⟨.black, 0⟩] := by
  intro board p
  have hp : p.WellFormed :=
    (regular_foldl_add (by decide) (by decide) (by decide) (by decide)).toWellFormed
  have hm : p.move? ⟨.white, 0⟩ ⟨2, 0⟩ =
      some { mover := ⟨.white, 0⟩, origin := ⟨4, 0⟩, target := ⟨2, 0⟩,
             special := .castle ⟨.white, 1⟩ ⟨1, 0⟩ ⟨3, 0⟩ } := by
    cbv
  exact ⟨hp, _, hm, rfl, by cbv, by cbv⟩

end Position

end FairyChess
