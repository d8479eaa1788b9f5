import FairyChess.Fixed.Route
import FairyChess.Move.Legal

/-!
Moves in coordinates of 32 bits. Each function follows the one of the same name on exact coordinates, in
the order in which the program computes its numbers.
-/
namespace FairyChess.Fixed

variable {m : Type → Type} [Build m]

def passed? (p : Position) (mover : Piece) (leaper : Bool) (step : Segment) :
    m (Option (List PieceId)) := do
  return p.cleared? mover leaper step.gait (← between step.start step.finish)

def passedBy? (p : Position) (mover : Piece) (leaper : Bool) : Route → m (Option (List PieceId))
  | [] => return some []
  | step :: rest => do
    match ← passed? p mover leaper step with
    | none => return none
    | some here =>
      if !rest.isEmpty && !leaper && p.blocks mover step.finish then return none
      else return (← passedBy? p mover leaper rest).map (here ++ ·)

def clausePasses? (p : Position) (mover : Piece) (target : Square) (c : Clause) :
    m (Option (List PieceId)) := do
  match ← findRoute c.pattern mover.frame mover.square target fun route =>
      Option.isSome <$> passedBy? p mover c.leaper route with
  | none => return none
  | some route => passedBy? p mover c.leaper route

def grammarMove? (p : Position) (mover : Slot) (target : Square) (occupant : Option Slot) :
    m (Option Move) :=
  mover.piece.grammar.clauses.findSomeM? fun c => do
    if c.permits mover.piece occupant.isSome then
      return (← clausePasses? p mover.piece target c).map fun passed => {
        mover := mover.id
        origin := mover.piece.square
        target
        captured := ((occupant.map (·.id)).toList ++ passed).eraseDups }
    else return none

def enPassant? (p : Position) (mover : Slot) (target : Square) : m (Option Move) :=
  if mover.piece.behavior.pawnLike then
    match p.occupant? ⟨target.file, mover.piece.square.rank⟩ with
    | none => return none
    | some victim =>
      if victim.id.side ≠ mover.id.side ∧ victim.piece.behavior.pawnLike ∧ victim.piece.enPassant ∧
          victim.piece.turns = 1 ∧ p.lastMoved = some victim.id ∧ !victim.piece.isDummy then do
        if ← allows Position.enPassantStep mover.piece.frame mover.piece.square target then
          return some {
            mover := mover.id
            origin := mover.piece.square
            target
            captured := [victim.id]
            special := .enPassant }
        else return none
      else return none
  else return none

/-- The move of a piece to a square, castling aside. -/
def plainMove? (p : Position) (mover : Slot) (target : Square) : m (Option Move) := do
  if mover.piece.isCaptured || !decide (target ∈ mover.piece.bounds) then return none
  else match p.occupant? target with
    | some other =>
      if other.id.side = mover.id.side ∨ other.piece.isDummy then return none
      else grammarMove? p mover target (some other)
    | none =>
      match ← grammarMove? p mover target none with
      | some move => return some move
      | none => enPassant? p mover target

def plainMoves (p : Position) (mover : Slot) : m (List Move) :=
  if mover.piece.isCaptured then return []
  else mover.piece.bounds.squares.filterMapM (plainMove? p mover)

def canCapture (p : Position) (attacker : Slot) (s : Square) (victim : PieceId) : m Bool := do
  if attacker.piece.grammar.hasLocust then
    return (← plainMoves p attacker).any (·.captured.contains victim)
  else return (← plainMove? p attacker s).any (·.captured.contains victim)

def threats (p : Position) (s : Square) (side : Side) : m (List PieceId) :=
  if s ∈ p.bounds then
    let (probe, victim) := p.probe s side
    (probe.alive side.opposite).filterMapM fun attacker => do
      return if ← canCapture probe attacker s victim then some attacker.id else none
  else return []

def checkStatus (p : Position) (side : Side) : m CheckStatus :=
  if p.hasLost side then return .lost
  else do
    let threats ← (p.kings side).mapM fun king => threats p king.piece.square side
    let attackers := threats.flatten.eraseDups
    return if attackers.isEmpty then .safe else .check attackers

/-- The first piece on the squares from `s` along a rank. The file past the bounds is still computed. -/
def firstAlong (p : Position) (bounds : Bounds) (step : Int) : Nat → Square → m (Option Slot)
  | 0, _ => return none
  | n + 1, s =>
    if s ∈ bounds then
      match p.occupant? s with
      | some slot => return some slot
      | none => do firstAlong p bounds step n ⟨← word (s.file + step), s.rank⟩
    else return none

def castle? (p : Position) (king : Slot) (target : Square) : m (Option Move) := do
  let home := king.piece.square
  if king.piece.behavior.castleRole = some .king ∧ king.piece.turns = 0 ∧
      !king.piece.isCaptured ∧ target ∈ king.piece.bounds ∧ p.isEmpty target ∧
      target.rank = home.rank then
    let across ← word (target.file - home.file)
    let far ← word across.natAbs
    if far = 2 then
      let passed : Square := ⟨← word (home.file + across.sign), home.rank⟩
      let width := (king.piece.bounds.right - king.piece.bounds.left).toNat
      match ← firstAlong p king.piece.bounds across.sign width passed with
      | none => return none
      | some rook =>
        if rook.id.side = king.id.side ∧ rook.piece.behavior.castleRole = some .rook ∧
            rook.piece.turns = 0 then
          let reach ← word (rook.piece.square.file - home.file)
          let reach ← word reach.natAbs
          let safe (s : Square) : m Bool :=
            List.isEmpty <$> threats (p.modify king.id (Piece.relocate s)) s king.id.side
          if ← pure (decide (3 ≤ reach)) <&&> safe home <&&> safe passed <&&> safe target then
            return some {
              mover := king.id
              origin := home
              target
              special := .castle rook.id rook.piece.square passed }
          else return none
        else return none
    else return none
  else return none

def moveOf? (p : Position) (mover : Slot) (target : Square) : m (Option Move) := do
  match ← plainMove? p mover target with
  | some move => return some move
  | none => castle? p mover target

def move? (p : Position) (id : PieceId) (target : Square) : m (Option Move) :=
  match p.slot? id with
  | some mover => moveOf? p mover target
  | none => return none

def movesOf (p : Position) (mover : Slot) : m (List Move) :=
  if mover.piece.isCaptured then return []
  else mover.piece.bounds.squares.filterMapM (moveOf? p mover)

def moves (p : Position) (side : Side) : m (List Move) := do
  return (← (p.alive side).mapM (movesOf p)).flatten

end FairyChess.Fixed
