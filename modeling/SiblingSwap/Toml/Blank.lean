/-! What stands between the parts of a TOML document: blanks, comments and line breaks. A reader takes the rest of the
    document and gives what it read with what is left. -/

namespace SiblingSwap
namespace Toml

/-- A reader: what it read and what is left, or nothing when the document breaks a rule. -/
abbrev Reader (α : Type) := List Char → Option (α × List Char)

/-- Blanks do not end a line. -/
def isBlank (c : Char) : Bool := c == ' ' || c == '\t'

/-- A character that may stand in a comment: anything but a control character, except the tab. -/
def isPlain (c : Char) : Bool := c == '\t' || (' ' ≤ c && c != '\x7f')

/-- What is left after blanks. -/
def skipBlanks (cs : List Char) : List Char := cs.dropWhile isBlank

/-- What is left after a comment, if there is one. -/
def skipComment : List Char → List Char
  | '#' :: cs => cs.dropWhile isPlain
  | cs => cs

/-- What is left after a line break, which is a line feed or a carriage return with a line feed. -/
def lineBreak? : List Char → Option (List Char)
  | '\n' :: cs => some cs
  | '\r' :: '\n' :: cs => some cs
  | _ => none

/-- A line break takes at least one character. -/
theorem length_lt_of_lineBreak? {cs rest : List Char} (h : lineBreak? cs = some rest) : rest.length < cs.length := by
  unfold lineBreak? at h
  split at h
  · simp_all
  · simp only [Option.some.injEq] at h
    simp only [← h, List.length_cons]
    omega
  · simp at h

/-- What is left after blanks and line breaks. -/
def skipBreaks : List Char → List Char
  | '\n' :: cs => skipBreaks cs
  | '\r' :: '\n' :: cs => skipBreaks cs
  | c :: cs => if isBlank c then skipBreaks cs else c :: cs
  | [] => []

theorem length_skipBreaks_le (cs : List Char) : (skipBreaks cs).length ≤ cs.length := by
  fun_induction skipBreaks cs with
  | case1 cs ih => exact Nat.le_succ_of_le ih
  | case2 cs ih => simp only [List.length_cons]; omega
  | case3 c cs _ _ _ ih => exact Nat.le_succ_of_le ih
  | case4 => exact Nat.le_refl _
  | case5 => exact Nat.le_refl _

/-- What is left after the end of a line, with blanks and a comment before it. The last line needs no line break. -/
def lineEnd? (cs : List Char) : Option (List Char) :=
  match skipComment (skipBlanks cs) with
  | [] => some []
  | cs => lineBreak? cs

/-- What is left after blanks, comments and line breaks. -/
def skipLines : List Char → List Char
  | '#' :: cs => skipLines (cs.dropWhile isPlain)
  | '\n' :: cs => skipLines cs
  | '\r' :: '\n' :: cs => skipLines cs
  | c :: cs => if isBlank c then skipLines cs else c :: cs
  | [] => []
termination_by cs => cs.length
decreasing_by
  · exact Nat.lt_succ_of_le (List.dropWhile_suffix _).length_le
  · exact Nat.lt_succ_self _
  · simp only [List.length_cons]; omega
  · exact Nat.lt_succ_self _

end Toml
end SiblingSwap
