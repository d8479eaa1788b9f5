import FairyChess.Proofs.Move.Symmetry

/-!
The rules know no colour. In the mirror of a position the board is turned by half a turn and the sides are
exchanged, so that each piece stands and faces as before for the player behind it. The legal moves are the
mirrors of the legal moves.
-/
namespace FairyChess

/-- Where a square goes when the board is turned by half a turn about its middle. -/
def Bounds.rotate (b : Bounds) (s : Square) : Square :=
  ⟨b.left + b.right - 1 - s.file, b.bottom + b.top - 1 - s.rank⟩

def PieceId.mirror (id : PieceId) : PieceId :=
  ⟨id.side.opposite, id.index⟩

def Piece.mirror (b : Bounds) (q : Piece) : Piece :=
  { q with
    square := if q.isCaptured then .box else b.rotate q.square
    direction := -q.direction }

def Position.mirror (p : Position) : Position where
  bounds := p.bounds
  white := p.black.map (Piece.mirror p.bounds)
  black := p.white.map (Piece.mirror p.bounds)
  lastMoved := p.lastMoved.map PieceId.mirror

def Special.mirror (b : Bounds) : Special → Special
  | .castle rook rookFrom rookTo => .castle rook.mirror (b.rotate rookFrom) (b.rotate rookTo)
  | other => other

def Move.mirror (b : Bounds) (m : Move) : Move where
  mover := m.mover.mirror
  origin := b.rotate m.origin
  target := b.rotate m.target
  captured := m.captured.map PieceId.mirror
  special := m.special.mirror b

namespace Bounds

/-- The half turn that takes a board to itself. -/
def halfTurn (b : Bounds) : Symmetry where
  turned := true
  files := b.left + b.right - 1
  ranks := b.bottom + b.top - 1

variable (b : Bounds)

theorem halfTurn_bounds : b.halfTurn.bounds b = b := by
  simp only [Symmetry.bounds, halfTurn, if_true]
  cases b
  simp only [Bounds.mk.injEq]
  omega

end Bounds

namespace Position

variable {p : Position}

theorem Regular.carries (hp : p.Regular) (hbox : .box ∉ p.bounds)
    (hlocust : ∀ id q, p.piece? id = some q → q.grammar.hasLocust = false) :
    p.bounds.halfTurn.Carries p where
  bounds := hp.bounds
  onBoard := hp.onBoard
  box := hbox
  box_image := by rwa [p.bounds.halfTurn_bounds]
  upright _ := hp.upright
  distinct _ := hp.distinct
  locust _ := fun {id q} => hlocust id q

end Position

end FairyChess
