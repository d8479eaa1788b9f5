import FairyChess.Proofs.Move.Effect
import FairyChess.Proofs.Move.Legal

/-! Lines of moves made and taken back. Taking back every move that stands gives the first position. -/
namespace FairyChess

namespace Position

variable {p : Position} {m : Move}

/-- The moves that can be made in a position, with its rules or against them. -/
inductive Offers (p : Position) : Move → Prop
  | legal {id : PieceId} {target : Square} {m : Move} (h : p.move? id target = some m) : p.Offers m
  | forced {id : PieceId} {target : Square} {m : Move} (h : p.forcedMove? id target = some m) :
      p.Offers m
  | forcedCapture {id victim : PieceId} {m : Move} (h : p.forcedCapture? id victim = some m) :
      p.Offers m

theorem Offers.of_mem_moves {side : Side} (h : m ∈ p.moves side) : p.Offers m :=
  .legal (mem_moves.mp h).2

/-- No castling move captures, so the rook is saved as it was before the move. -/
theorem Offers.captured_of_castle (h : p.Offers m) {rook : PieceId} {rookFrom rookTo : Square}
    (hcastle : m.special = .castle rook rookFrom rookTo) : m.captured = [] := by
  cases h with
  | legal h =>
    obtain ⟨q, -, hmove⟩ := of_move? h
    rcases of_moveOf? hmove with hplain | hcastled
    · have hspecial := special_of_plainMove? hplain
      rcases hspecial with hnormal | henPassant <;> simp_all
    · obtain ⟨-, -, -, -, rfl⟩ := of_castle? hcastled
      rfl
  | forced h =>
    obtain ⟨q, -, -, -, -, rfl⟩ := of_forcedMove? h
    rfl
  | forcedCapture h =>
    obtain ⟨q, v, -, -, -, -, -, rfl⟩ := of_forcedCapture? h
    cases hcastle

/-- Putting back saved pieces gives the position they were saved from, if it differs nowhere else. -/
theorem piece?_foldl_restore (p q : Position) (saved : List Slot) (id : PieceId)
    (hsaved : ∀ slot ∈ saved, p.piece? slot.id = some slot.piece)
    (hsame : (∀ slot ∈ saved, slot.id ≠ id) → q.piece? id = p.piece? id)
    (hsome : (q.piece? id).isSome = (p.piece? id).isSome) :
    (saved.foldl restore q).piece? id = p.piece? id := by
  induction saved generalizing q with
  | nil => exact hsame (by simp)
  | cons slot saved ih =>
    have hslot := hsaved slot List.mem_cons_self
    have hrestore : (q.restore slot).piece? id =
        (q.piece? id).map fun r => if id = slot.id then slot.piece else r := q.piece?_modify ..
    refine ih (q.restore slot) (fun s hs => hsaved s (List.mem_cons_of_mem _ hs)) (fun hrest => ?_) ?_
    · by_cases hid : slot.id = id
      · subst hid
        obtain ⟨r, hr⟩ := Option.isSome_iff_exists.mp (hsome.trans (by rw [hslot]; rfl))
        simp [hrestore, hr, hslot]
      · have hq : q.piece? id = p.piece? id :=
          hsame (List.forall_mem_cons.mpr ⟨hid, hrest⟩)
        simp [hrestore, hq, Ne.symm hid]
    · rw [hrestore, Option.isSome_map, hsome]

@[simp] theorem bounds_foldl_restore (saved : List Slot) (q : Position) :
    (saved.foldl restore q).bounds = q.bounds := by
  induction saved generalizing q with
  | nil => rfl
  | cons slot saved ih => exact (ih (q.restore slot)).trans (q.bounds_modify ..)

theorem saved_record (h : p.Offers m) (choice : Option Kind) :
    (p.record m choice).saved = m.touched.filterMap p.slot? := by
  cases hspecial : m.special with
  | normal => simp [record, Move.touched, Move.rook?, hspecial]
  | enPassant => simp [record, Move.touched, Move.rook?, hspecial]
  | castle rook rookFrom rookTo =>
    have hcaptured := h.captured_of_castle hspecial
    simp only [record, Move.touched, Move.rook?, hspecial, hcaptured, captureAll, List.foldl_nil,
      Option.toList_some, List.filterMap_append]

/-- Taking back a move right after it was made. -/
theorem undo_make (h : p.Offers m) (choice : Option Kind) :
    (p.make m choice).position.undo (p.make m choice).record = p := by
  change { (p.record m choice).saved.foldl restore (p.after m choice) with
    lastMoved := p.lastMoved } = p
  rw [saved_record h]
  refine ext_piece? (by simp) (fun id => ?_) rfl
  have hput : ({ (m.touched.filterMap p.slot?).foldl restore (p.after m choice) with
      lastMoved := p.lastMoved } : Position).piece? id =
        ((m.touched.filterMap p.slot?).foldl restore (p.after m choice)).piece? id := by
    cases id with
    | mk side index => cases side <;> rfl
  rw [hput]
  refine p.piece?_foldl_restore _ _ id (fun slot hslot => ?_) (fun hrest => ?_) ?_
  · obtain ⟨_, -, hget⟩ := List.mem_filterMap.mp hslot
    obtain ⟨rfl, hpiece⟩ := p.slot?_eq_some.mp hget
    exact hpiece
  · cases hpiece : p.piece? id with
    | none => rw [piece?_after, hpiece, Option.map_none]
    | some q =>
      have huntouched : id ∉ m.touched := fun htouched =>
        hrest ⟨id, q⟩ (List.mem_filterMap.mpr ⟨id, htouched, p.slot?_eq_some.mpr ⟨rfl, hpiece⟩⟩) rfl
      rw [p.piece?_after_of_not_touched huntouched, hpiece]
  · rw [piece?_after, Option.isSome_map]

end Position

/-- A position in a session, with the records of the moves that stand, the latest first. -/
structure Line where
  position : Position
  records : List Record := []
  deriving DecidableEq, Repr

/-- What can be done in a session. A choice is what the mover becomes if it promotes. -/
inductive Action
  | make (mover : PieceId) (target : Square) (choice : Option Kind)
  | force (mover : PieceId) (target : Square) (choice : Option Kind)
  | forceCapture (mover victim : PieceId) (choice : Option Kind)
  /-- Makes the move with an index in the list of a side. -/
  | apply (side : Side) (index : ℕ) (choice : Option Kind)
  | undo
  deriving DecidableEq, Repr

namespace Line

def play (l : Line) (choice : Option Kind) (m : Move) : Line :=
  let made := l.position.make m choice
  ⟨made.position, made.record :: l.records⟩

def play? (l : Line) (choice : Option Kind) (m : Option Move) : Line :=
  (m.map (l.play choice)).getD l

/-- An action that is not possible changes nothing. -/
def act (l : Line) : Action → Line
  | .make mover target choice => l.play? choice (l.position.move? mover target)
  | .force mover target choice => l.play? choice (l.position.forcedMove? mover target)
  | .forceCapture mover victim choice => l.play? choice (l.position.forcedCapture? mover victim)
  | .apply side index choice => l.play? choice (l.position.moves side)[index]?
  | .undo =>
    match l.records with
    | [] => l
    | record :: records => ⟨l.position.undo record, records⟩

def run (l : Line) (actions : List Action) : Line :=
  actions.foldl act l

/-- The position once every move that stands is taken back, the latest first. -/
def unwind (l : Line) : Position :=
  l.records.foldl Position.undo l.position

/-- A line of moves that stand, each offered by the position before it. -/
inductive Stands (start : Position) : Line → Prop
  | start : Stands start ⟨start, []⟩
  | play {l : Line} {m : Move} (choice : Option Kind) (h : Stands start l) (hm : l.position.Offers m) :
      Stands start (l.play choice m)

variable {start : Position} {l : Line}

theorem Stands.play? (h : Stands start l) (choice : Option Kind) {m : Option Move}
    (hm : ∀ m' ∈ m, l.position.Offers m') : Stands start (l.play? choice m) := by
  cases m with
  | none => exact h
  | some m => exact .play choice h (hm m rfl)

theorem Stands.act (h : Stands start l) (a : Action) : Stands start (l.act a) := by
  cases a with
  | make mover target choice => exact h.play? choice fun _ hm => .legal hm
  | force mover target choice => exact h.play? choice fun _ hm => .forced hm
  | forceCapture mover victim choice => exact h.play? choice fun _ hm => .forcedCapture hm
  | apply side index choice =>
    exact h.play? choice fun _ hm => .of_mem_moves (List.mem_of_getElem? hm)
  | undo =>
    cases h with
    | start => exact .start
    | @play l m choice h hm =>
      have hundo : (l.play choice m).act .undo = l :=
        congrArg (Line.mk · l.records) (l.position.undo_make hm choice)
      rwa [hundo]

theorem Stands.run (h : Stands start l) (actions : List Action) : Stands start (l.run actions) := by
  induction actions generalizing l with
  | nil => exact h
  | cons a actions ih => exact ih (h.act a)

theorem Stands.unwind (h : Stands start l) : l.unwind = start := by
  induction h with
  | start => rfl
  | @play l m choice h hm ih =>
    calc (l.play choice m).unwind
        = l.records.foldl Position.undo
            ((l.position.make m choice).position.undo (l.position.make m choice).record) := rfl
      _ = l.unwind := by rw [l.position.undo_make hm choice]; rfl
      _ = start := ih

/-- However moves are made and taken back, taking back those that stand gives the first position. -/
theorem unwind_run (p : Position) (actions : List Action) :
    (Line.run ⟨p, []⟩ actions).unwind = p := (Stands.start.run actions).unwind

end Line

end FairyChess
