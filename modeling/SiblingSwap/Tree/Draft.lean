import SiblingSwap.Tree.Basic

/-! Growing a tree token by token. A draft is a tree with a focus, the element that was touched last, and the openers
    that wait for their closing bracket. Each token either joins an element, becomes a new last child, or takes the
    place of a last child and adopts it. -/

namespace SiblingSwap

/-- A tree under construction. -/
structure Draft where
  tree : Node
  /-- The element touched last. -/
  focus : Address
  /-- The closing brackets still to come, each with the element it will close, innermost first. -/
  awaited : List (List Char × Address)
deriving Repr, Inhabited

namespace Node

/-- The element with one more token, which now says what the element does. -/
def absorb (t : Token) (n : Node) : Node := ⟨n.tokens ++ [t], n.children⟩

/-- The node with a new last child. -/
def addChild (t : Token) (n : Node) : Node := ⟨n.tokens, n.children ++ [.leaf t]⟩

/-- The node with its last child, if there is one, put below a new element in its place. -/
def wrapLast (t : Token) (n : Node) : Node :=
  ⟨n.tokens, n.children.dropLast ++ [⟨[t], n.children.getLast?.toList⟩]⟩

end Node

/-- Where the node at `a` is found once the one at `slot` has become the first child of a newcomer. -/
def Address.adopted (slot a : Address) : Address :=
  if slot.isSuffixOf a then a.take (a.length - slot.length) ++ 0 :: slot else a

namespace Draft

/-- Nothing has been read. -/
def empty : Draft := ⟨.root, [], []⟩

/-- The element in focus. -/
def focused (d : Draft) : Node := (d.tree.at? d.focus).getD .root

/-- The element that a newcomer goes below: the focus while it expects more, else its parent. -/
def host (d : Draft) : Address := if d.focused.role.expectsMore then d.focus else d.focus.tail

/-- The closest element at or above an address that binds more loosely than `priority`, or the root. -/
def looserAt (tree : Node) (priority : Int) : Address → Address
  | [] => []
  | i :: up =>
    if priority ≤ ((tree.at? (i :: up)).getD .root).priority then looserAt tree priority up else i :: up

/-- The number of children of the node at an address. -/
def width (d : Draft) (a : Address) : Nat := ((d.tree.at? a).getD .root).children.length

/-! ### What a token does -/

/-- The token joins the element at an address, which comes into focus. -/
def join (d : Draft) (a : Address) (t : Token) : Draft :=
  { d with tree := d.tree.modifyAt a (·.absorb t), focus := a }

/-- The token becomes the last child of the host. -/
def append (d : Draft) (t : Token) : Draft :=
  { d with tree := d.tree.modifyAt d.host (·.addChild t), focus := d.width d.host :: d.host }

/-- Neighbouring words make one element. -/
def addAtom (d : Draft) (t : Token) : Draft :=
  if d.focused.role = .atom then d.join d.focus t else d.append t

/-- An opener is placed like a word; a bracket also waits for its closer. -/
def addOpener (d : Draft) (t : Token) : Draft :=
  let d := d.addAtom t
  match closerOf? t.text with
  | some closer => { d with awaited := (closer, d.focus) :: d.awaited }
  | none => d

/-- An operator climbs past all that binds as tightly as it does, and adopts the last element it finds there. -/
def addOperator (d : Draft) (t : Token) : Draft :=
  let parent := looserAt d.tree t.priority d.host
  let slot := (d.width parent - 1) :: parent
  { tree := d.tree.modifyAt parent (·.wrapLast t)
    focus := slot
    awaited := d.awaited.map fun (closer, a) => (closer, Address.adopted slot a) }

/-- A line break is dropped while more is expected. The bracket that is awaited closes its element. Any other closer
    acts as an operator. -/
def addCloser (d : Draft) (t : Token) : Draft :=
  if t.text = ['\n'] then
    if d.focused.role.expectsMore then d else d.addOperator t
  else
    match d.awaited with
    | (closer, a) :: rest => if closer = t.text then { d with awaited := rest }.join a t else d.addOperator t
    | [] => d.addOperator t

/-- Reads one token. -/
def add (d : Draft) (t : Token) : Draft :=
  match t.role with
  | .atom => d.addAtom t
  | .opener => d.addOpener t
  | .closer => d.addCloser t
  | .operator => d.addOperator t

/-- Reads tokens in order. -/
def ofTokens (ts : List Token) : Draft := ts.foldl add empty

end Draft

/-- The tree of a list of tokens. Every list has one: brackets need not match. -/
def Node.ofTokens (ts : List Token) : Node := (Draft.ofTokens ts).tree

end SiblingSwap
