import SiblingSwap.Tree.Basic

/-! A tree in one array. Its nodes refer to one another by their ids, which are their places in the array, and what a
    node is at the moment is stored with it. The tree grows token by token as a draft does, but nodes are linked anew
    where a draft is rebuilt. Whoever follows links goes on as long as there are any: the loops that do are given as
    partial functions, and their answer is missing if they do not end. -/

namespace SiblingSwap

/-- A node with the ids of the nodes next to it. -/
structure Cell where
  tokens : List Token
  priority : Int
  role : Role
  parent : Option Nat
  children : List Nat
  /-- The index among the children of the parent. A node without a parent keeps the last one it had. -/
  index : Nat
  span : Span
deriving Repr, Inhabited

namespace Cell

/-- The root of a tree that holds nothing. -/
def root : Cell := ⟨[], rootPriority, .opener, none, [], 0, ⟨0, 0⟩⟩

/-- A node of one token that is not in a tree yet. -/
def ofToken (t : Token) : Cell := ⟨[t], t.priority, t.role, none, [], 0, t.span⟩

/-- The text of the first token. -/
def lexeme (c : Cell) : List Char := (c.tokens.head?.map (·.text)).getD []

end Cell

/-- All nodes by their ids. The root has the id 0. -/
structure Arena where
  cells : Array Cell
deriving Repr, Inhabited

namespace Arena

/-- Nothing but the root. -/
def empty : Arena := ⟨#[.root]⟩

/-- The number of nodes. -/
def size (A : Arena) : Nat := A.cells.size

/-- The node with an id. -/
def cell (A : Arena) (i : Nat) : Cell := A.cells.getD i .root

/-- Changes the node with an id. -/
def modify (A : Arena) (i : Nat) (f : Cell → Cell) : Arena := ⟨A.cells.modify i f⟩

/-! ### Changes -/

/-- Makes room for a node. Its id is the number of nodes there were. -/
def alloc (A : Arena) (c : Cell) : Arena := ⟨A.cells.push c⟩

/-- Links a node as the last child of another. -/
def add (A : Arena) (parent child : Nat) : Arena :=
  let index := (A.cell parent).children.length
  (A.modify parent fun c => { c with children := c.children ++ [child] }).modify child
    fun c => { c with parent := some parent, index }

/-- Takes the last child off a node. -/
def pop (A : Arena) (parent : Nat) : Arena × Option Nat :=
  match (A.cell parent).children.getLast? with
  | none => (A, none)
  | some child =>
    ((A.modify parent fun c => { c with children := c.children.dropLast }).modify child
      fun c => { c with parent := none }, some child)

/-- Puts a node in the place of the last child of another, and that child below it. -/
def insert (A : Arena) (parent node : Nat) : Arena :=
  match A.pop parent with
  | (A, none) => A.add parent node
  | (A, some last) => (A.add parent node).add node last

/-- Adds the tokens of a newcomer to a node, which from now on acts and binds as the newcomer and ends where it does. -/
def merge (A : Arena) (target : Nat) (other : Cell) : Arena :=
  A.modify target fun c =>
    { c with priority := other.priority, role := other.role, span := ⟨c.span.start, other.span.stop⟩
             tokens := c.tokens ++ other.tokens }

/-! ### Queries -/

/-- The closest node at or above another that binds more loosely than `priority`, or the root. -/
def climb (A : Arena) (priority : Int) (i : Nat) : Option Nat :=
  if priority ≤ (A.cell i).priority then
    match (A.cell i).parent with
    | some parent => A |>.climb priority parent
    | none => some i
  else some i
partial_fixpoint

/-- The next child of the same parent. -/
def next? (A : Arena) (i : Nat) : Option Nat :=
  (A.cell i).parent.bind fun parent => (A.cell parent).children[(A.cell i).index + 1]?

/-- The previous child of the same parent. -/
def prev? (A : Arena) (i : Nat) : Option Nat :=
  (A.cell i).parent.bind fun parent =>
    match (A.cell i).index with
    | 0 => none
    | k + 1 => (A.cell parent).children[k]?

/-- The node is an operator that continues the chain of its parent. -/
def isChainLink (A : Arena) (i : Nat) : Bool :=
  match (A.cell i).parent with
  | some parent => (A.cell i).role = .operator && (A.cell i).priority = (A.cell parent).priority
  | none => false

/-- Two neighbours from left to right; either may be missing. -/
abbrev Beside := Option Nat × Option Nat

/-- The climb to the right, with the node that was kept on the way. -/
def rightFrom (A : Arena) (kept : Option Nat) (i : Nat) : Option Beside :=
  match (A.cell i).parent with
  | none => some (some (kept.getD i), none)
  | some parent =>
    match A.next? i with
    | some right => some (some (kept.getD i), some right)
    | none => A |>.rightFrom (kept <|> if A.isChainLink parent then some i else none) parent
partial_fixpoint

/-- A node with its nearest neighbour to the right. -/
def rightNeighbors (A : Arena) (i : Nat) : Option Beside := A.rightFrom none i

/-- A node with its nearest neighbour to the left. -/
def leftNeighbors (A : Arena) (i : Nat) : Option Beside :=
  match (A.cell i).parent with
  | none => some (none, some i)
  | some parent =>
    match A.prev? i with
    | none => A |>.leftNeighbors parent
    | some before =>
      if (A.cell parent).role = .operator ∧ (A.cell before).priority = (A.cell parent).priority then
        some ((A.cell before).children.getLast?, some i)
      else some (some before, some i)
partial_fixpoint

/-- The least of `acc` and the starts of the first children on the way down. -/
def leftEdge (A : Arena) (acc i : Nat) : Option Nat :=
  match (A.cell i).children.head? with
  | none => some acc
  | some c => A |>.leftEdge (min acc (A.cell c).span.start) c
partial_fixpoint

/-- The greatest of `acc` and the ends of the last children on the way down. -/
def rightEdge (A : Arena) (acc i : Nat) : Option Nat :=
  match (A.cell i).children.getLast? with
  | none => some acc
  | some c => A |>.rightEdge (max acc (A.cell c).span.stop) c
partial_fixpoint

/-- The span of a node with all that lies below it. -/
def bound (A : Arena) (i : Nat) : Option Span := do
  let start ← A.leftEdge (A.cell i).span.start i
  let stop ← A.rightEdge (A.cell i).span.stop i
  return ⟨start, stop⟩

/-- Continues the search for a place with the nodes on the way, each with the index of the child to be searched next. -/
def walk (A : Arena) (pos : Nat) (open_ : List (Nat × Nat)) : Option (Option Nat) :=
  match open_ with
  | [] => some none
  | (i, k) :: outer =>
    match (A.cell i).children[k]? with
    | some c => A |>.walk pos ((c, 0) :: (i, k + 1) :: outer)
    | none =>
      if (A.cell i).parent.isSome ∧ (A.cell i).span.contains pos then some (some i) else A |>.walk pos outer
partial_fixpoint

/-- The element at a place. -/
def locate (A : Arena) (pos : Nat) : Option (Option Nat) := A.walk pos [(0, 0)]

end Arena

/-! ### Growing -/

/-- A tree under construction: the element touched last, and the closing brackets still to come, each with the element
    it will close, innermost first. -/
structure Growth where
  arena : Arena
  focus : Nat
  awaited : List (List Char × Nat)
deriving Repr, Inhabited

namespace Growth

/-- Nothing has been read. -/
def empty : Growth := ⟨.empty, 0, []⟩

/-- The element in focus. -/
def focused (g : Growth) : Cell := g.arena.cell g.focus

/-- The element that a newcomer goes below: the focus while it expects more, else its parent. -/
def host (g : Growth) : Nat := if g.focused.role.expectsMore then g.focus else g.focused.parent.getD g.focus

/-- The newcomer becomes the last child of the host. -/
def append (g : Growth) (c : Cell) : Growth :=
  { g with arena := (g.arena.alloc c).add g.host g.arena.size, focus := g.arena.size }

/-- Neighbouring words make one element. -/
def addAtom (g : Growth) (c : Cell) : Growth :=
  if g.focused.role = .atom then { g with arena := g.arena.merge g.focus c } else g.append c

/-- An opener is placed like a word; a bracket also waits for its closer. -/
def addOpener (g : Growth) (c : Cell) : Growth :=
  let g := g.addAtom c
  match closerOf? c.lexeme with
  | some closer => { g with awaited := (closer, g.focus) :: g.awaited }
  | none => g

/-- An operator climbs past all that binds as tightly as it does, and adopts the last element it finds there. -/
def addOperator (g : Growth) (c : Cell) : Option Growth :=
  (g.arena.climb c.priority g.host).map fun parent =>
    { g with arena := (g.arena.alloc c).insert parent g.arena.size, focus := g.arena.size }

/-- A line break is dropped while more is expected. The bracket that is awaited closes its element. Any other closer
    acts as an operator. -/
def addCloser (g : Growth) (c : Cell) : Option Growth :=
  if c.lexeme = ['\n'] then
    if g.focused.role.expectsMore then some g else g.addOperator c
  else
    match g.awaited with
    | (closer, i) :: rest =>
      if closer = c.lexeme then some { arena := g.arena.merge i c, focus := i, awaited := rest } else g.addOperator c
    | [] => g.addOperator c

/-- Reads one token. -/
def add (g : Growth) (t : Token) : Option Growth :=
  let c := Cell.ofToken t
  match c.role with
  | .atom => some (g.addAtom c)
  | .opener => some (g.addOpener c)
  | .closer => g.addCloser c
  | .operator => g.addOperator c

/-- Reads tokens in order. -/
def ofTokens (ts : List Token) : Option Growth := ts.foldlM add empty

end Growth
end SiblingSwap
