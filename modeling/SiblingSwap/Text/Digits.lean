/-! Whole numbers in decimal digits. -/

namespace SiblingSwap
namespace Text

/-- The number that digits stand for. -/
def natOfDigits (ds : List Char) : Nat := ds.foldl (fun n c => 10 * n + (c.toNat - '0'.toNat)) 0

/-- The number that a text of digits stands for, if it is below a limit. -/
def natBelow? (limit : Nat) (ds : List Char) : Option Nat :=
  if ds.isEmpty || !ds.all Char.isDigit || limit ≤ natOfDigits ds then none else some (natOfDigits ds)

/-- A number of 64 bits, with or without a plus sign. -/
def nat64? : List Char → Option Nat
  | '+' :: ds => natBelow? UInt64.size ds
  | ds => natBelow? UInt64.size ds

end Text
end SiblingSwap
