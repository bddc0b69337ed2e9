/-! What can be set about a swap. -/

namespace SiblingSwap

/-- The settings of a swap. -/
structure Settings where
  /-- How many lines past that of the cursor are read, in the direction of the swap. -/
  extendLines : Nat := 1
  /-- The cursor moves with the element it is on. -/
  followSwap : Bool := true
deriving DecidableEq, Repr, Inhabited

end SiblingSwap
