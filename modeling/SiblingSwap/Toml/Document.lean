import SiblingSwap.Toml.Moment
import SiblingSwap.Toml.Number
import SiblingSwap.Toml.Table

/-! Reading a TOML document. The document is read line by line into statements, and the statements build its tables.
    Whether a document can be read does not depend on which of its faults comes first. -/

namespace SiblingSwap
namespace Toml

/-! ### Keys -/

/-- A character of a key without quotes. -/
def isKeyChar (c : Char) : Bool := c.isAlphanum || c == '_' || c == '-'

/-- One part of a key. -/
def keyPart? : Reader (List Char)
  | '"' :: cs => basicTail? cs
  | '\'' :: cs => literalTail? cs
  | cs =>
    match cs.takeWhile isKeyChar with
    | [] => none
    | k => some (k, cs.dropWhile isKeyChar)

/-- How deep values and keys may be nested. -/
def maxDepth : Nat := 79

/-- A key with blanks around it and around its dots. -/
def key? (cs : List Char) : Option (List (List Char) × List Char) :=
  match keyPart? (skipBlanks cs) with
  | none => none
  | some (k, rest) =>
    match skipBlanks rest with
    | '.' :: rest =>
      if rest.length < cs.length then (key? rest).map fun (ks, left) => (k :: ks, left) else none
    | rest => some ([k], rest)
termination_by cs.length

/-- A key that is not too deep. -/
def boundedKey? : Reader (List (List Char)) := fun cs => (key? cs).filter fun (ks, _) => ks.length ≤ maxDepth

/-! ### Values -/

/-- A character of a value that is one word. -/
def isWordSign (c : Char) : Bool := c.isAlphanum || c == '+' || c == '-' || c == '_' || c == '.' || c == ':'

/-- A value that holds no other. -/
def scalar? (cs : List Char) : Option (Value × List Char) :=
  match cs with
  | '"' :: _ | '\'' :: _ => (string? cs).map fun (s, rest) => (.string s, rest)
  | cs =>
    match moment? cs with
    | some (m, rest) => some (.moment m, rest)
    | none => (word? (cs.takeWhile isWordSign)).map fun v => (v, cs.dropWhile isWordSign)

/-- The items of an array, parted by commas, with one more allowed at the end; the bracket has been read. -/
def items? (item? : Reader Value) (cs : List Char) : Option (List Value × List Char) :=
  match skipLines cs with
  | ']' :: rest => some ([], rest)
  | start =>
    match item? start with
    | none => none
    | some (v, rest) =>
      match skipLines rest with
      | ']' :: rest => some ([v], rest)
      | ',' :: rest =>
        if rest.length < cs.length then (items? item? rest).map fun (vs, left) => (v :: vs, left) else none
      | _ => none
termination_by cs.length

/-- A key with its value. -/
def pair? (item? : Reader Value) : Reader (List (List Char) × Value) := fun cs =>
  match boundedKey? cs with
  | some (key, '=' :: rest) => (item? (skipBlanks rest)).map fun (v, left) => ((key, v), left)
  | _ => none

/-- The entries of a table in one line, parted by commas; there is at least one. -/
def pairs? (item? : Reader Value) (cs : List Char) : Option (List (List (List Char) × Value) × List Char) :=
  match pair? item? cs with
  | none => none
  | some (p, rest) =>
    match skipBlanks rest with
    | '\x7d' :: rest => some ([p], rest)
    | ',' :: rest =>
      if rest.length < cs.length then (pairs? item? rest).map fun (ps, left) => (p :: ps, left) else none
    | _ => none
termination_by cs.length

/-- A table in one line; the brace has been read. -/
def inline? (item? : Reader Value) : Reader Value := fun cs =>
  match skipBlanks cs with
  | '\x7d' :: rest => some (.table [], rest)
  | cs => (pairs? item? cs).bind fun (ps, rest) => (inlineTable? ps).map fun es => (.table es, rest)

/-- A value that may hold others down to some depth. -/
def value? : Nat → Reader Value
  | depth + 1, '[' :: cs => (items? (value? depth) cs).map fun (vs, rest) => (.array vs, rest)
  | depth + 1, '\x7b' :: cs => inline? (value? depth) cs
  | _, cs => scalar? cs

/-! ### Statements -/

/-- What a line says. -/
inductive Statement where
  /-- The entries that follow belong to this table. -/
  | header (path : List (List Char))
  /-- The entries that follow belong to one more table under this name. -/
  | element (path : List (List Char))
  | entry (key : List (List Char)) (v : Value)

/-- What a line says that is neither blank nor a comment, with what is left of the line. -/
def statement? : Reader Statement
  | '[' :: '[' :: cs =>
    match boundedKey? cs with
    | some (path, ']' :: ']' :: rest) => some (.element path, rest)
    | _ => none
  | '[' :: cs =>
    match boundedKey? cs with
    | some (path, ']' :: rest) => some (.header path, rest)
    | _ => none
  | cs => (pair? (value? maxDepth) cs).map fun ((key, v), rest) => (.entry key v, rest)

/-- All statements of a document. -/
def statements? (cs : List Char) : Option (List Statement) :=
  match skipLines cs with
  | [] => some []
  | start =>
    match statement? start with
    | none => none
    | some (s, rest) =>
      match lineEnd? rest with
      | none => none
      | some rest => if rest.length < cs.length then (statements? rest).map (s :: ·) else none
termination_by cs.length

/-- Follows one statement: the path of the table that entries belong to, and all tables. -/
def follow? : List (List Char) × Items → Statement → Option (List (List Char) × Items)
  | (_, es), .header path =>
    (changeAt false (writeTable (path.getLastD [])) path.dropLast .written es).map fun (_, es) => (path, es)
  | (_, es), .element path =>
    (changeAt false (addTable (path.getLastD [])) path.dropLast .written es).map fun (_, es) => (path, es)
  | (path, es), .entry key v =>
    (changeAt false (assign key v) path .written es).map fun (_, es) => (path, es)

/-! ### Tables that stand for moments -/

/-- The key of a moment. A table whose first key this is stands for the moment under it. -/
def momentKey : List Char := "$__toml_private_datetime".toList

/-- The moment that is a text. -/
def Value.moment? : Value → Option Value
  | .string s => (momentOf? s).map .moment
  | _ => none

mutual

/-- A value, with moments for the tables that stand for them. -/
def Value.settled? : Value → Option Value
  | .array items => (settledItems? items).map .array
  | .table [] => some (.table [])
  | .table ((k, v) :: es) =>
    if k = momentKey then v.moment?
    else
      match v.settled?, settledEntries? es with
      | some v, some es => some (.table ((k, v) :: es))
      | _, _ => none
  | v => some v

/-- The items of an array, with moments for the tables that stand for them. -/
def settledItems? : List Value → Option (List Value)
  | [] => some []
  | v :: vs =>
    match v.settled?, settledItems? vs with
    | some v, some vs => some (v :: vs)
    | _, _ => none

/-- The entries of a table, with moments for the tables that stand for them. -/
def settledEntries? : List (List Char × Value) → Option (List (List Char × Value))
  | [] => some []
  | (k, v) :: es =>
    match v.settled?, settledEntries? es with
    | some v, some es => some ((k, v) :: es)
    | _, _ => none

end

/-- What a document stands for, or nothing when it breaks a rule. A byte order mark may stand at its start. -/
def document? (cs : List Char) : Option Value := do
  let text := match cs with
    | '\ufeff' :: rest => rest
    | _ => cs
  let (_, es) ← (← statements? text).foldlM follow? ([], [])
  (Value.table (Items.toEntries es)).settled?

end Toml
end SiblingSwap
