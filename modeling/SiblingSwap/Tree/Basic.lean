import SiblingSwap.Token.Rule

/-! The tree of a text. A node holds the tokens that make up its element, in order, and the elements below it. The
    root holds no token. A node is named by its address: the indices of the children on the way to it. -/

namespace SiblingSwap

/-- An element with the elements below it. -/
structure Node where
  tokens : List Token
  children : List Node
deriving Repr, Inhabited

namespace Node

/-- The root of a tree that holds nothing. -/
def root : Node := ⟨[], []⟩

/-- An element of one token, with nothing below it. -/
def leaf (t : Token) : Node := ⟨[t], []⟩

/-! ### Properties of an element -/

/-- The last token says what an element does. The root is never complete. -/
def role (n : Node) : Role := (n.tokens.getLast?.map (·.role)).getD .opener

/-- The last token says how tightly an element binds. -/
def priority (n : Node) : Int := (n.tokens.getLast?.map (·.priority)).getD rootPriority

/-- An element reaches from the start of its first token to the end of its last, whatever lies below it. -/
def span (n : Node) : Span :=
  ⟨(n.tokens.head?.map (·.span.start)).getD 0, (n.tokens.getLast?.map (·.span.stop)).getD 0⟩

/-- The text of the first token. -/
def lexeme (n : Node) : List Char := (n.tokens.head?.map (·.text)).getD []

/-- The texts of all tokens, put together. -/
def text (n : Node) : List Char := n.tokens.flatMap (·.text)

/-! ### Bounds -/

/-- The least of `acc` and the starts of the first children on the way down. -/
def leftEdge (acc : Nat) : Node → Nat
  | ⟨_, []⟩ => acc
  | ⟨_, c :: _⟩ => leftEdge (min acc c.span.start) c

mutual

/-- The greatest of `acc` and the ends of the last children on the way down. -/
def rightEdge (acc : Nat) : Node → Nat
  | ⟨_, cs⟩ => rightEdgeAmong acc cs

/-- The right edge below the last of some children. -/
def rightEdgeAmong (acc : Nat) : List Node → Nat
  | [] => acc
  | [c] => rightEdge (max acc c.span.stop) c
  | _ :: c :: cs => rightEdgeAmong acc (c :: cs)

end

/-- The span of an element with all that lies below it, read off its left and right edges. -/
def bound (n : Node) : Span := ⟨n.leftEdge n.span.start, n.rightEdge n.span.stop⟩

end Node

/-! ### Addresses -/

/-- The way to a node, innermost first: the head is the index of the node among its siblings and the tail is the
    address of its parent. The root has the empty address. -/
abbrev Address := List Nat

namespace Node

/-- The node at an address. -/
def at? (n : Node) : Address → Option Node
  | [] => some n
  | i :: up => (n.at? up).bind (·.children[i]?)

/-- Changes the node at an address, and nothing where there is none. -/
def modifyAt (n : Node) : Address → (Node → Node) → Node
  | [], f => f n
  | i :: up, f => n.modifyAt up fun m => ⟨m.tokens, m.children.modify i f⟩

mutual

/-- The addresses of a node and of all below it, each node before its children. -/
def addresses (here : Address) : Node → List Address
  | ⟨_, cs⟩ => here :: addressesAmong here 0 cs

/-- The addresses of the children of a node from the `i`-th on, and of all below them. -/
def addressesAmong (here : Address) (i : Nat) : List Node → List Address
  | [] => []
  | c :: cs => addresses (i :: here) c ++ addressesAmong here (i + 1) cs

end

end Node
end SiblingSwap
