import SiblingSwap.Span

/-! Tokens: a lexeme with its place in the text and the two properties that shape the tree, its role and its
    priority. -/

namespace SiblingSwap

/-- What a token does in the tree. -/
inductive Role where
  /-- A word, number or quoted literal. -/
  | atom
  /-- Something that waits for an operand to its right: a bracket, or a word such as `return`. -/
  | opener
  /-- A closing bracket or the end of a statement. -/
  | closer
  /-- Something between two operands. -/
  | operator
deriving DecidableEq, Repr, Inhabited

namespace Role

/-- An element of this role is not complete on its own: what follows belongs to it. -/
def expectsMore : Role → Bool
  | opener | operator => true
  | atom | closer => false

end Role

/-- A classified lexeme. A lower priority binds more loosely. -/
structure Token where
  text : List Char
  priority : Int
  role : Role
  span : Span
deriving DecidableEq, Repr, Inhabited

end SiblingSwap
