import SiblingSwap.Token.Basic

/-! The rules of the token language: which lexemes there are, in the order they are tried, and what role and
    priority a lexeme has. -/

namespace SiblingSwap

/-! ### Tiers -/

/-- The priority tiers, from the loosest to the tightest. -/
inductive Tier where
  | bracket
  | unbracket
  | leading
  | statement
  | comma
  | pair
  | assign
  | or
  | and
  | not
  | equality
  | compare
  | additive
  | multiplicative
deriving DecidableEq, Repr

namespace Tier

/-- The tiers are numbered from 0. -/
def priority : Tier → Int
  | bracket => 0
  | unbracket => 1
  | leading => 2
  | statement => 3
  | comma => 4
  | pair => 5
  | assign => 6
  | or => 7
  | and => 8
  | not => 9
  | equality => 10
  | compare => 11
  | additive => 12
  | multiplicative => 13

end Tier

/-- The priority of whatever no rule classifies: words, numbers and literals bind tightest. -/
def atomPriority : Int := 32

/-- The priority of the root of a tree, looser than every tier. -/
def rootPriority : Int := -1

/-! ### Shapes -/

/-- The letters, digits and signs a word is made of. -/
def isWordChar (c : Char) : Bool :=
  c.isAlphanum || c == '_' || c == '.' || c == '#' || c == '@' || c == '^'

/-- What a lexeme looks like. -/
inductive Shape where
  /-- Exactly this text. -/
  | literal (text : List Char)
  /-- A quote, anything but the quote, and the quote again. -/
  | quoted (quote : Char)
  /-- A word between angle brackets, such as `<T>`; the word may be empty. -/
  | angled
  /-- As many word characters as there are, and at least one. -/
  | word
deriving DecidableEq, Repr

namespace Shape

/-- The lexeme of this shape at the head of a text, with what follows it. -/
def match? : Shape → List Char → Option (List Char × List Char)
  | literal text, cs => if text.isPrefixOf cs then some (text, cs.drop text.length) else none
  | quoted q, c :: cs =>
    if c = q then
      match cs.dropWhile (· != q) with
      | _ :: rest => some (c :: cs.takeWhile (· != q) ++ [q], rest)
      | [] => none
    else none
  | angled, '<' :: cs =>
    match cs.dropWhile isWordChar with
    | '>' :: rest => some ('<' :: cs.takeWhile isWordChar ++ ['>'], rest)
    | _ => none
  | word, cs =>
    match cs.takeWhile isWordChar with
    | [] => none
    | w => some (w, cs.dropWhile isWordChar)
  | _, _ => none

end Shape

/-! ### The table -/

/-- One line of the table of rules. -/
inductive Rule where
  /-- Texts that are lexemes of their own and share a role and a tier. -/
  | symbols (texts : List String) (role : Role) (tier : Tier)
  /-- Lexemes of a shape that say nothing about their role: atoms. -/
  | atoms (shape : Shape)
  /-- Words with a role and a tier of their own. They are found as words and known by their text. -/
  | keywords (texts : List String) (role : Role) (tier : Tier)
deriving Repr

namespace Rule

/-- The shapes a rule adds to the scan, in order. -/
def shapes : Rule → List Shape
  | symbols texts _ _ => texts.map fun t => .literal t.toList
  | atoms shape => [shape]
  | keywords _ _ _ => []

/-- What a rule says about the role and priority of a text. -/
def classify? (text : List Char) : Rule → Option (Role × Int)
  | symbols texts role tier | keywords texts role tier =>
    if texts.any fun t => t.toList == text then some (role, tier.priority) else none
  | atoms _ => none

end Rule

/-- All rules, in the order in which they are tried. A symbol comes before those that start it, and literals in
    quotes or angle brackets come before the comparisons `<` and `>`. -/
def rules : List Rule :=
  [ .symbols ["\x7b", "[", "("] .opener .bracket,
    .symbols [")", "]", "\x7d"] .closer .unbracket,
    .symbols [";", "\n"] .closer .statement,
    .symbols [","] .operator .comma,
    .symbols [":", "=>"] .operator .pair,
    .symbols ["+=", "-=", "*=", "%=", "&=", "|=", "^="] .operator .assign,
    .symbols ["||"] .operator .or,
    .symbols ["&&"] .operator .and,
    .symbols ["==", "!=", "~="] .operator .equality,
    .symbols ["!"] .opener .not,
    .symbols ["="] .operator .assign,
    .symbols ["<=", ">="] .operator .compare,
    .symbols ["+", "-"] .operator .additive,
    .symbols ["*", "/", "%"] .operator .multiplicative,
    .atoms (.quoted '"'),
    .atoms (.quoted '\''),
    .atoms .angled,
    .symbols ["<", ">"] .operator .compare,
    .atoms .word,
    .keywords ["if", "return"] .opener .leading,
    .keywords ["or"] .operator .or,
    .keywords ["and"] .operator .and,
    .keywords ["not"] .opener .not ]

/-- The shapes of lexemes, in the order in which they are tried. -/
def shapes : List Shape := rules.flatMap Rule.shapes

/-- The role and priority of a text: those of the rule that lists it, else those of an atom. -/
def classify (text : List Char) : Role × Int :=
  (rules.findSome? (Rule.classify? text)).getD (.atom, atomPriority)

/-- The bracket that closes an opening bracket. -/
def closerOf? : List Char → Option (List Char)
  | ['('] => some [')']
  | ['['] => some [']']
  | ['\x7b'] => some ['\x7d']
  | _ => none

/-- The token of a lexeme at a place. -/
def Token.ofLexeme (text : List Char) (span : Span) : Token :=
  { text, priority := (classify text).2, role := (classify text).1, span }

end SiblingSwap
