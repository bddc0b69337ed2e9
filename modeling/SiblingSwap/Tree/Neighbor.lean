import SiblingSwap.Tree.Basic

/-! Neighbours in a tree. Operators of one priority build a chain that leans to the left: `a, b, c` is a comma over a
    comma over `a` and `b`, and then `c`. Neighbours treat the chain as a flat list, so that next to `b` there are `a`
    and `c` and never an inner comma. -/

namespace SiblingSwap
namespace Node

/-! ### Under one parent -/

/-- The next child of the same parent. -/
def next? (tree : Node) : Address → Option Address
  | [] => none
  | i :: up => if (tree.at? ((i + 1) :: up)).isSome then some ((i + 1) :: up) else none

/-- The previous child of the same parent. -/
def prev? (tree : Node) : Address → Option Address
  | [] | 0 :: _ => none
  | (i + 1) :: up => if (tree.at? (i :: up)).isSome then some (i :: up) else none

/-- The last child of the node at an address. -/
def lastChild? (tree : Node) (a : Address) : Option Address :=
  match tree.at? a with
  | some ⟨_, _ :: cs⟩ => some (cs.length :: a)
  | _ => none

/-! ### Across parents -/

/-- The node at an address is an operator that continues the chain of its parent. -/
def isChainLink (tree : Node) : Address → Bool
  | [] => false
  | i :: up =>
    match tree.at? (i :: up), tree.at? up with
    | some n, some parent => n.role = .operator && n.priority = parent.priority
    | _, _ => false

/-- Two neighbours from left to right; either may be missing. -/
structure Neighbors where
  left : Option Address
  right : Option Address
deriving DecidableEq, Repr

/-- The climb to the right: the first ancestor with a next sibling gives the right side. The left side is the element
    kept on the way, else the ancestor itself. -/
def rightFrom (tree : Node) (kept : Option Address) : Address → Neighbors
  | [] => ⟨some (kept.getD []), none⟩
  | i :: up =>
    match tree.next? (i :: up) with
    | some right => ⟨some (kept.getD (i :: up)), some right⟩
    | none => rightFrom tree (kept <|> if tree.isChainLink up then some (i :: up) else none) up

/-- The node at an address with its nearest neighbour to the right. The last element below an inner link of a chain
    is itself an element of the list. -/
def rightNeighbors (tree : Node) (a : Address) : Neighbors := rightFrom tree none a

/-- The node at an address with its nearest neighbour to the left. A neighbour that is an inner link of the same chain
    stands for its last element. -/
def leftNeighbors (tree : Node) : Address → Neighbors
  | [] => ⟨none, some []⟩
  | i :: up =>
    match tree.prev? (i :: up) with
    | none => leftNeighbors tree up
    | some before =>
      match tree.at? up, tree.at? before with
      | some parent, some n =>
        if parent.role = .operator ∧ n.priority = parent.priority then
          ⟨tree.lastChild? before, some (i :: up)⟩
        else ⟨some before, some (i :: up)⟩
      | _, _ => ⟨some before, some (i :: up)⟩

end Node
end SiblingSwap
