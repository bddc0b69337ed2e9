import SiblingSwap.Buffer
import SiblingSwap.Token.Scan
import SiblingSwap.Tree.Draft
import SiblingSwap.Tree.Locate
import SiblingSwap.Tree.Neighbor

/-! Choosing what to swap. The lines around a place are read into a tree; the element at the place and its neighbour
    in the asked direction give two spans. Every step may decline, with a reason. -/

namespace SiblingSwap

/-- Which neighbour to swap with. -/
inductive Direction where
  | forward
  | backward
deriving DecidableEq, Repr, Inhabited

/-- Why nothing is swapped. -/
inductive Skip where
  | noTarget
  | noNeighbor
  | closerMismatch
  | unorderedSpans
deriving DecidableEq, Repr

/-- The reason in words. -/
def Skip.reason : Skip → String
  | noTarget => "no element under the cursor"
  | noNeighbor => "no neighbor in the requested direction"
  | closerMismatch => "a closer can only be swapped with another closer"
  | unorderedSpans => "spans are overlapping or out of order"

/-- Two spans to swap, the left one first. -/
structure Pair where
  first : Span
  second : Span
deriving DecidableEq, Repr, Inhabited

/-! ### In a tree -/

namespace Node

/-- Two tokens side by side in one element, one of them at the place. -/
def tokenPair (n : Node) (pos : Nat) (d : Direction) : Except Skip Pair :=
  match n.tokenAt? pos, d with
  | none, _ => .error .noTarget
  | some (i, t), .forward =>
    match n.tokens[i + 1]? with
    | some next => .ok ⟨t.span, next.span⟩
    | none => .error .noNeighbor
  | some (0, _), .backward => .error .noNeighbor
  | some (i + 1, t), .backward =>
    match n.tokens[i]? with
    | some before => .ok ⟨before.span, t.span⟩
    | none => .error .noNeighbor

/-- Two elements to swap. A closed element, and the end of a statement, only changes places with another one. -/
def elementPair (left right : Node) : Except Skip Pair :=
  if left.role = .closer ↔ right.role = .closer then .ok ⟨left.bound, right.bound⟩
  else .error .closerMismatch

/-- The neighbours of the node at an address in a direction. -/
def neighbors (tree : Node) (a : Address) : Direction → Neighbors
  | .forward => tree.rightNeighbors a
  | .backward => tree.leftNeighbors a

/-- What to swap at a place. An element right below the root that has no neighbour gives way to its tokens. -/
def pairAt (tree : Node) (pos : Nat) (d : Direction) : Except Skip Pair :=
  match tree.locate? pos with
  | none => .error .noTarget
  | some target =>
    let ⟨left, right⟩ := tree.neighbors target d
    match left.bind tree.at?, right.bind tree.at? with
    | some left, some right => elementPair left right
    | _, _ =>
      match target, tree.at? target with
      | [_], some n => n.tokenPair pos d
      | _, _ => .error .noNeighbor

end Node

/-! ### In a text -/

namespace Buffer

/-- The lines that are read: the one that holds the place and `extendLines` more in the direction of the swap. -/
def window (b : Buffer) (pos : Nat) (d : Direction) (extendLines : Nat) : Span :=
  let reach : Int := min extendLines Text.maxLineOffset
  match d with
  | .forward => ⟨b.lineStart pos 0, b.lineStop pos reach⟩
  | .backward => ⟨b.lineStart pos (-reach), b.lineStop pos 0⟩

/-- The tree of the lines that are read. -/
def tree (b : Buffer) (pos : Nat) (d : Direction) (extendLines : Nat) : Node :=
  .ofTokens (tokenize b.text (b.window pos d extendLines))

/-- What a swap at a place would exchange. -/
def resolve (b : Buffer) (pos : Nat) (d : Direction) (extendLines : Nat) : Except Skip Pair :=
  (b.tree pos d extendLines).pairAt pos d

end Buffer
end SiblingSwap
