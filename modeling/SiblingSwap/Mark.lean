import SiblingSwap.Swap.Run

/-! Texts with the cursor drawn into them. -/

namespace SiblingSwap
namespace Mark

/-- The sign that shows the cursor. It starts no lexeme. -/
def sign : Char := '¦'

/-- Reads a text with the cursor drawn in. Only the first sign counts; without one the cursor is at the start. -/
def read (source : List Char) : Buffer :=
  match source.dropWhile (· != sign) with
  | [] => .withCursor source 0
  | _ :: after =>
    let before := source.takeWhile (· != sign)
    .withCursor (before ++ after) (Text.size before)

/-- Draws the cursor in. This fails when the cursor is inside a character. -/
def draw? (b : Buffer) : Option (List Char) :=
  (Text.splitAt? b.cursor b.text).map fun (before, after) => before ++ sign :: after

/-- Swaps in a text with the cursor drawn in, with all settings at their defaults. -/
def swap? (source : List Char) (d : Direction) : Option (List Char) := draw? ((read source).swap {} d).1

end Mark
end SiblingSwap
