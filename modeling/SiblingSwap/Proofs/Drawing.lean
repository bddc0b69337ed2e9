import SiblingSwap.Proofs.Lines
import SiblingSwap.Proofs.Traversal
import SiblingSwap.Proofs.WellFormed
import SiblingSwap.Tree.Drawing

/-! What a drawing shows of a tree. It has one line for each node, parents before their children. What comes before a
    label is made of pairs of columns and ends with a connector, so a label that looks like one does no harm: depth and
    label of the node can be read off the line. The depths of all nodes in this order leave only one shape for the
    tree. -/

namespace SiblingSwap
namespace Node
variable {tree m n c : Node} {cs ds : List Node} {here a : Address} {i : Nat}

/-! ### One line for each node -/

end Node
end SiblingSwap
