import SiblingSwap.Settings.Basic
import SiblingSwap.Swap.Resolve

/-! Swapping: the texts of two spans are exchanged, and the cursor moves with the element it is on. -/

namespace SiblingSwap

/-- What came of a swap. The spans are those before it. -/
inductive Outcome where
  | swapped (pair : Pair) (cursor : Nat)
  | skipped (why : Skip)
deriving DecidableEq, Repr

/-- Where the cursor lands: at the end of the right slot going forward, at the start of the left slot going
    backward. -/
def Pair.cursorAfter (p : Pair) : Direction → Nat
  | .forward => p.second.stop
  | .backward => p.first.start

namespace Buffer

/-- Exchanges the texts of two spans, the later one first, so that the earlier one keeps its place. -/
def exchange (b : Buffer) (p : Pair) : Except Skip Buffer :=
  if p.second.start < p.first.stop then .error .unorderedSpans
  else
    let firstText := b.slice p.first
    let secondText := b.slice p.second
    .ok ((((b.erase p.second).insert p.second.start firstText).erase p.first).insert p.first.start secondText)

/-- Swaps the element under the cursor with its neighbour. Nothing changes when the swap is skipped. -/
def swap (b : Buffer) (s : Settings) (d : Direction) : Buffer × Outcome :=
  match b.resolve b.cursor d s.extendLines with
  | .error why => (b, .skipped why)
  | .ok pair =>
    match b.exchange pair with
    | .error why => (b, .skipped why)
    | .ok swapped =>
      let moved := if s.followSwap then swapped.setCursor (pair.cursorAfter d) else swapped
      (moved, .swapped pair moved.cursor)

end Buffer
end SiblingSwap
