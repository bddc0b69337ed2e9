import SiblingSwap.Text.Unprinted

/-! A text in quotes, with every character made visible. -/

namespace SiblingSwap
namespace Text

/-- A character between quotes. One without a shape of its own is written by its code. -/
def escaped (c : Char) : List Char :=
  match c with
  | '"' => ['\\', '"']
  | '\\' => ['\\', '\\']
  | '\n' => ['\\', 'n']
  | '\r' => ['\\', 'r']
  | '\t' => ['\\', 't']
  | '\x00' => ['\\', '0']
  | c => if isUnprinted c then ['\\', 'u', '\x7b'] ++ Nat.toDigits 16 c.toNat ++ ['\x7d'] else [c]

/-- A text in double quotes. -/
def quoted (cs : List Char) : List Char := '"' :: cs.flatMap escaped ++ ['"']

end Text
end SiblingSwap
