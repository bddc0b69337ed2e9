import SiblingSwap.Text.Basic

/-! Where the lines of a text start. A line break ends its line, so a text has one line more than it has line breaks.
    The starts are kept in a table, which is searched by halving. -/

namespace SiblingSwap
namespace Text

/-- Where lines start after the line breaks of a text that starts at offset `pos`. -/
def startsAfterBreaks (pos : Nat) : List Char → List Nat
  | [] => []
  | c :: cs =>
    let next := pos + c.utf8Size
    if c = '\n' then next :: startsAfterBreaks next cs else startsAfterBreaks next cs

/-- Where each line starts. -/
def lineStarts (cs : List Char) : List Nat := 0 :: startsAfterBreaks 0 cs

/-- The table of where each line starts. -/
def lineTable (cs : List Char) : Array Nat := (lineStarts cs).toArray

/-- The first index from `lo` up to `hi` at which a table of growing numbers has passed a limit. The entry in the middle
    tells in which half it is. -/
def partitionPoint (table : Array Nat) (limit lo hi : Nat) : Nat :=
  if lo < hi then
    let mid := (lo + hi) / 2
    if table[mid]?.any (· ≤ limit) then partitionPoint table limit (mid + 1) hi
    else partitionPoint table limit lo mid
  else lo
termination_by hi - lo

/-- The greatest line offset, `2 ^ 63 - 1`: offsets are signed words of 64 bits. -/
def maxLineOffset : Int := 9223372036854775807

/-- A sum of line numbers that is no signed word becomes the nearest one that is. -/
def saturate (n : Int) : Int := max (-maxLineOffset - 1) (min n maxLineOffset)

end Text
end SiblingSwap
