import SiblingSwap.Tree.Basic

/-! Finding the element at a place: the first in post-order, children before their parent, whose own span contains
    the place. The walk keeps its own list of open nodes, since a chain is as deep as its list is long. -/

namespace SiblingSwap
namespace Node

mutual

/-- The number of nodes of a tree. -/
def count : Node → Nat
  | ⟨_, cs⟩ => countAmong cs + 1

/-- The number of nodes of some trees. -/
def countAmong : List Node → Nat
  | [] => 0
  | c :: cs => count c + countAmong cs

end

/-- A node on the way to the place of the walk. -/
structure Visit where
  node : Node
  address : Address
  /-- The index of the first child still to be searched. -/
  index : Nat
  /-- The children still to be searched. -/
  rest : List Node
deriving Repr

namespace Visit

/-- A node before any of its children. -/
def enter (a : Address) (n : Node) : Visit := ⟨n, a, 0, n.children⟩

/-- How much is left to do at a node: each node still to come is entered and left. -/
def work (v : Visit) : Nat := 2 * countAmong v.rest + 1

end Visit

/-- Continues the walk: the next child of the innermost node is entered, and a node without one is tested and left.
    The root is no element. -/
def walk (pos : Nat) : List Visit → Option Address
  | [] => none
  | ⟨n, a, i, c :: cs⟩ :: outer => walk pos (.enter (i :: a) c :: ⟨n, a, i + 1, cs⟩ :: outer)
  | ⟨n, a, _, []⟩ :: outer => if a ≠ [] ∧ n.span.contains pos then some a else walk pos outer
termination_by visits => visits.foldr (fun v n => v.work + n) 0
decreasing_by
  · obtain ⟨ts, ds⟩ := c
    simp [Visit.work, Visit.enter, countAmong, count]
    omega
  · simp [Visit.work]

/-- The element at a place. -/
def locate? (tree : Node) (pos : Nat) : Option Address := walk pos [.enter [] tree]

/-- The first token of an element that contains the place, with its index. -/
def tokenAt? (n : Node) (pos : Nat) : Option (Nat × Token) :=
  let i := n.tokens.findIdx (·.span.contains pos)
  n.tokens[i]?.map fun t => (i, t)

end Node
end SiblingSwap
