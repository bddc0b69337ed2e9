import SiblingSwap.Toml.Blank

/-! Strings of the TOML format. Between double quotes a backslash escapes; between single quotes all is taken as it
    stands. Three quotes enclose a text of several lines. -/

namespace SiblingSwap
namespace Toml

/-! ### Escapes -/

/-- The value of a hexadecimal digit. -/
def hexDigit? (c : Char) : Option Nat :=
  if c.isDigit then some (c.toNat - '0'.toNat)
  else if 'a' ≤ c ∧ c ≤ 'f' then some (c.toNat - 'a'.toNat + 10)
  else if 'A' ≤ c ∧ c ≤ 'F' then some (c.toNat - 'A'.toNat + 10)
  else none

/-- The character with a code in hexadecimal digits, if the code is one of a character. -/
def charOfHex? (digits : List Char) : Option Char :=
  (digits.foldlM (fun n c => (hexDigit? c).map (16 * n + ·)) 0).bind fun n =>
    if n.isValidChar then some (.ofNat n) else none

/-- A character by its code, in exactly `width` hexadecimal digits. -/
def codeEscape? (width : Nat) (cs : List Char) : Option (Char × List Char) :=
  if cs.length < width then none else (charOfHex? (cs.take width)).map fun c => (c, cs.drop width)

/-- What a letter stands for after a backslash. -/
def letterEscape? : Char → Option Char
  | 'b' => some '\x08'
  | 't' => some '\t'
  | 'n' => some '\n'
  | 'f' => some '\x0c'
  | 'r' => some '\r'
  | '"' => some '"'
  | '\\' => some '\\'
  | _ => none

/-- What an escape stands for; the backslash has been read. -/
def escape? : Reader Char
  | [] => none
  | 'u' :: cs => codeEscape? 4 cs
  | 'U' :: cs => codeEscape? 8 cs
  | letter :: cs => (letterEscape? letter).map fun c => (c, cs)

/-- What is left after a backslash at the end of a line, which takes the line break and all blanks and line breaks
    after it away; the backslash has been read. -/
def lineJoin? (cs : List Char) : Option (List Char) :=
  (lineBreak? (skipBlanks cs)).map skipBreaks

theorem length_le_of_codeEscape? {width : Nat} {cs rest : List Char} {c : Char}
    (h : codeEscape? width cs = some (c, rest)) : rest.length ≤ cs.length := by
  unfold codeEscape? at h
  split at h
  · simp at h
  · obtain ⟨_, _, he⟩ := Option.map_eq_some_iff.1 h
    simp only [Prod.mk.injEq] at he
    simp [← he.2]

/-- An escape takes at least one character. -/
theorem length_lt_of_escape? {cs rest : List Char} {c : Char} (h : escape? cs = some (c, rest)) :
    rest.length < cs.length := by
  unfold escape? at h
  split at h
  · simp at h
  · exact Nat.lt_succ_of_le (length_le_of_codeEscape? h)
  · exact Nat.lt_succ_of_le (length_le_of_codeEscape? h)
  · obtain ⟨_, _, he⟩ := Option.map_eq_some_iff.1 h
    simp only [Prod.mk.injEq] at he
    simp [← he.2]

/-- A line join takes at least one character. -/
theorem length_lt_of_lineJoin? {cs rest : List Char} (h : lineJoin? cs = some rest) : rest.length < cs.length := by
  obtain ⟨ds, hd, rfl⟩ := Option.map_eq_some_iff.1 h
  calc (skipBreaks ds).length ≤ ds.length := length_skipBreaks_le ds
    _ < (skipBlanks cs).length := length_lt_of_lineBreak? hd
    _ ≤ cs.length := (List.dropWhile_suffix _).length_le

/-! ### On one line -/

/-- The rest of a string between double quotes; the first quote has been read. -/
def basicTail? : Reader (List Char)
  | [] => none
  | '"' :: cs => some ([], cs)
  | '\\' :: cs =>
    match _h : escape? cs with
    | some (c, rest) => (basicTail? rest).map fun (s, left) => (c :: s, left)
    | none => none
  | c :: cs => if isPlain c then (basicTail? cs).map fun (s, left) => (c :: s, left) else none
termination_by cs => cs.length
decreasing_by
  · exact Nat.lt_succ_of_lt (length_lt_of_escape? _h)
  · exact Nat.lt_succ_self _

/-- The rest of a string between single quotes; the first quote has been read. -/
def literalTail? : Reader (List Char)
  | [] => none
  | '\'' :: cs => some ([], cs)
  | c :: cs => if isPlain c then (literalTail? cs).map fun (s, left) => (c :: s, left) else none

/-! ### On several lines -/

/-- The rest of a string between three double quotes; they have been read. One or two quotes are text, also right
    before the three at the end. A line break is a line feed. -/
def basicLinesTail? : Reader (List Char)
  | [] => none
  | '"' :: '"' :: '"' :: '"' :: '"' :: cs => some (['"', '"'], cs)
  | '"' :: '"' :: '"' :: '"' :: cs => some (['"'], cs)
  | '"' :: '"' :: '"' :: cs => some ([], cs)
  | '\\' :: cs =>
    match _h : escape? cs, _hj : lineJoin? cs with
    | some (c, rest), _ => (basicLinesTail? rest).map fun (s, left) => (c :: s, left)
    | none, some rest => basicLinesTail? rest
    | none, none => none
  | '\r' :: '\n' :: cs => (basicLinesTail? cs).map fun (s, left) => ('\n' :: s, left)
  | c :: cs =>
    if isPlain c || c == '\n' then (basicLinesTail? cs).map fun (s, left) => (c :: s, left) else none
termination_by cs => cs.length
decreasing_by
  · exact Nat.lt_succ_of_lt (length_lt_of_escape? _h)
  · exact Nat.lt_succ_of_lt (length_lt_of_lineJoin? _hj)
  · simp only [List.length_cons]; omega
  · exact Nat.lt_succ_self _

/-- The rest of a string between three single quotes; they have been read. -/
def literalLinesTail? : Reader (List Char)
  | [] => none
  | '\'' :: '\'' :: '\'' :: '\'' :: '\'' :: cs => some (['\'', '\''], cs)
  | '\'' :: '\'' :: '\'' :: '\'' :: cs => some (['\''], cs)
  | '\'' :: '\'' :: '\'' :: cs => some ([], cs)
  | '\r' :: '\n' :: cs => (literalLinesTail? cs).map fun (s, left) => ('\n' :: s, left)
  | c :: cs =>
    if isPlain c || c == '\n' then (literalLinesTail? cs).map fun (s, left) => (c :: s, left) else none

/-- What is left after a line break that follows the three quotes at the start of a string. -/
def skipFirstBreak (cs : List Char) : List Char := (lineBreak? cs).getD cs

/-- A string of any kind. -/
def string? : Reader (List Char)
  | '"' :: '"' :: '"' :: cs => basicLinesTail? (skipFirstBreak cs)
  | '"' :: cs => basicTail? cs
  | '\'' :: '\'' :: '\'' :: cs => literalLinesTail? (skipFirstBreak cs)
  | '\'' :: cs => literalTail? cs
  | _ => none

end Toml
end SiblingSwap
