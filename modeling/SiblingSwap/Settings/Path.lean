import SiblingSwap.Text.Digits

/-! Paths to settings: a name, then names after dots and numbers in brackets, such as `scan.extend_lines` and
    `scan[0]`. -/

namespace SiblingSwap
namespace Settings

/-- One step of a path. -/
inductive Step where
  /-- To the entry of a table. -/
  | key (name : List Char)
  /-- To the item of an array, counted from its end if negative. -/
  | index (i : Int)
deriving DecidableEq, Repr

/-- A path starts with a name. -/
structure Path where
  name : List Char
  steps : List Step
deriving DecidableEq, Repr

namespace Path

/-- A character of a name. Blanks are part of the name. -/
def isNameChar (c : Char) : Bool := c.isAlphanum || c == '_' || c == '-' || c == ' '

/-- A name that is not empty, with what is left. -/
def name? (cs : List Char) : Option (List Char × List Char) :=
  match cs.takeWhile isNameChar with
  | [] => none
  | k => some (k, cs.dropWhile isNameChar)

/-- A number with blanks around it, if it is a signed word of 64 bits. -/
def index? (cs : List Char) : Option Int :=
  let isBlank (c : Char) : Bool := c == ' ' || c == '\t'
  let trimmed := ((cs.dropWhile isBlank).reverse.dropWhile isBlank).reverse
  match trimmed with
  | '-' :: ds => (Text.natBelow? (Nat.pow 2 63 + 1) ds).map fun n => -(n : Int)
  | ds => (Text.natBelow? (Nat.pow 2 63) ds).map Int.ofNat

/-- The steps after the first name. -/
def steps? : List Char → Option (List Step)
  | [] => some []
  | '.' :: cs =>
    match name? cs with
    | some (k, rest) => if rest.length ≤ cs.length then (steps? rest).map (.key k :: ·) else none
    | none => none
  | '[' :: cs =>
    match index? (cs.takeWhile (· != ']')), cs.dropWhile (· != ']') with
    | some i, _ :: rest => if rest.length ≤ cs.length then (steps? rest).map (.index i :: ·) else none
    | _, _ => none
  | _ => none
termination_by cs => cs.length

/-- Reads a path. -/
def ofChars? (cs : List Char) : Option Path := do
  let (name, rest) ← name? cs
  return ⟨name, ← steps? rest⟩

end Path
end Settings
end SiblingSwap
