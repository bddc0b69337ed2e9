import SiblingSwap.Main
import SiblingSwap.Mark
import SiblingSwap.Proofs.Classified
import SiblingSwap.Proofs.Spine
import SiblingSwap.Proofs.Order
import SiblingSwap.Proofs.Exchange
import SiblingSwap.Proofs.Grammar
import SiblingSwap.Proofs.Precedence
import SiblingSwap.Proofs.Places
import SiblingSwap.Proofs.Brackets
import SiblingSwap.Proofs.Contiguity
import SiblingSwap.Proofs.Level
import SiblingSwap.Proofs.Lexeme
import SiblingSwap.Proofs.Locality
import SiblingSwap.Proofs.Row
import SiblingSwap.Proofs.Listing
import SiblingSwap.Proofs.Carry
import SiblingSwap.Proofs.Links
import SiblingSwap.Proofs.Follow
import SiblingSwap.Proofs.Balance
import SiblingSwap.Proofs.Kept
import SiblingSwap.Proofs.Alike
import SiblingSwap.Proofs.Origin
import SiblingSwap.Proofs.Crossing
import SiblingSwap.Proofs.Replay
import SiblingSwap.Proofs.Landing
import SiblingSwap.Proofs.Neighbors
import SiblingSwap.Proofs.Leaning
import SiblingSwap.Proofs.Flattening
import SiblingSwap.Proofs.Holding
import SiblingSwap.Proofs.Lines
import SiblingSwap.Proofs.Reach
import SiblingSwap.Proofs.Writing
import SiblingSwap.Proofs.Return
import SiblingSwap.Proofs.Spelling
import SiblingSwap.Proofs.Coverage
import SiblingSwap.Proofs.Layering
import SiblingSwap.Proofs.Conservation
import SiblingSwap.Proofs.Marks
import SiblingSwap.Proofs.Drawing
import SiblingSwap.Proofs.Traversal
import SiblingSwap.Proofs.Seams
