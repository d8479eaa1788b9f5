import FairyChess.Main
import FairyChess.Move.Reach
import FairyChess.Proofs.Fixed.Balance
import FairyChess.Proofs.Fixed.Footprint
import FairyChess.Proofs.Fixed.OpenRoute
import FairyChess.Proofs.Fixed.SelfPlay
import FairyChess.Proofs.Fixed.Slide
import FairyChess.Proofs.Game.Dummy
import FairyChess.Proofs.Game.EnPassant
import FairyChess.Proofs.Game.Replay
import FairyChess.Proofs.Game.Contest
import FairyChess.Proofs.Game.Turns
import FairyChess.Proofs.Game.Winner
import FairyChess.Proofs.Move.Captures
import FairyChess.Proofs.Move.Balance
import FairyChess.Proofs.Move.Castling
import FairyChess.Proofs.Move.Clearing
import FairyChess.Proofs.Move.Effect
import FairyChess.Proofs.Move.Footprint
import FairyChess.Proofs.Move.Legal
import FairyChess.Proofs.Move.Mirror
import FairyChess.Proofs.Move.OpenRoute
import FairyChess.Proofs.Move.Locust
import FairyChess.Proofs.Move.Passage
import FairyChess.Proofs.Move.Recast
import FairyChess.Proofs.Move.Listing
import FairyChess.Proofs.Move.Regroup
import FairyChess.Proofs.Move.Slide
import FairyChess.Proofs.Move.Symmetry
import FairyChess.Proofs.Move.Threat
import FairyChess.Proofs.Move.Undo
import FairyChess.Proofs.Movement.Chain
import FairyChess.Proofs.Movement.Image
import FairyChess.Proofs.Movement.Notation
import FairyChess.Proofs.Movement.Repair
import FairyChess.Proofs.Movement.RoundTrip
import FairyChess.Proofs.Movement.Routes
import FairyChess.Proofs.Movement.Rides
import FairyChess.Proofs.Movement.Sequences
import FairyChess.Proofs.Movement.Grouping
import FairyChess.Proofs.Movement.Slide
import FairyChess.Proofs.Movement.Symmetry
import FairyChess.Proofs.Movement.Tokens
import FairyChess.Proofs.Position.Lookup
import FairyChess.Proofs.Position.Material
import FairyChess.Proofs.Position.Symmetry
import FairyChess.Proofs.Position.Tally
import FairyChess.Proofs.Position.WellFormed
import FairyChess.Proofs.Reading
import FairyChess.Proofs.Search.Minimax
import FairyChess.Proofs.Search.Nodes
import FairyChess.Proofs.Variant.Placement
import FairyChess.Proofs.Variant.Start
import FairyChess.Proofs.Move.Shift
import FairyChess.Proofs.Search.Shift
import FairyChess.Proofs.Move.Check
import FairyChess.Proofs.Game.Play
import FairyChess.Proofs.Bounds
import FairyChess.Proofs.Text.Blank
import FairyChess.Proofs.Text.Numeral
import FairyChess.Proofs.Display.SquareName
import FairyChess.Proofs.Display.MoveText
import FairyChess.Proofs.Display.Grid
import FairyChess.Proofs.SelfPlay
import FairyChess.Proofs.Square
import FairyChess.Proofs.SquareSet
import FairyChess.Proofs.Variant.Description
import FairyChess.Proofs.Variant.Fault
import FairyChess.Proofs.Variant.Ranks
import FairyChess.Proofs.Variant.Arrangement
import FairyChess.Proofs.Variant.Written
