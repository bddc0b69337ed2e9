import SiblingSwap.Tree.Basic

/-! Drawing a tree, one line per node. The root is drawn as `?`, every other node as its text behind a connector. -/

namespace SiblingSwap
namespace Node

/-- The most characters of a text that are drawn. -/
def labelWidth : Nat := 30

/-- A text on one line: line breaks are made visible, and what does not fit is cut off. -/
def label (n : Node) : List Char :=
  let shown := n.text.map fun c => if c = '\n' then '⏎' else c
  if shown.length > labelWidth then shown.take labelWidth ++ ['…'] else shown

mutual

/-- The lines of a node and of all below it. -/
def lines (indent : List Char) (isLast : Bool) : Node → List (List Char)
  | ⟨ts, cs⟩ =>
    (indent ++ (if isLast then ['└', '─', ' '] else ['├', '─', ' ']) ++ label ⟨ts, cs⟩) ::
      linesAmong (indent ++ if isLast then [' ', ' '] else ['│', ' ']) cs

/-- The lines of the last children of a node. -/
def linesAmong (indent : List Char) : List Node → List (List Char)
  | [] => []
  | [c] => lines indent true c
  | c :: d :: cs => lines indent false c ++ linesAmong indent (d :: cs)

end

/-- The drawing of a whole tree. -/
def drawing (tree : Node) : List Char := (['?'] :: linesAmong [] tree.children).flatMap (· ++ ['\n'])

end Node
end SiblingSwap
