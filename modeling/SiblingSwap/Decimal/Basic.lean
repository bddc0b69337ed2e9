/-! Decimal numbers, and the floating-point number nearest to one. -/

namespace SiblingSwap

/-- The number `digits * 10 ^ exponent`. -/
structure Decimal where
  digits : Nat
  exponent : Int
deriving DecidableEq, Repr, Inhabited

namespace Decimal

/-- How many digits a number has; zero has one. -/
def width (n : Nat) : Nat := (Nat.toDigits 10 n).length

/-- The nearest floating-point number. All numbers from `10 ^ 310` on are infinite and all below `10 ^ (-330)` are
    zero, so that no huge power is ever computed. -/
def toFloat (d : Decimal) : Float :=
  let top := (width d.digits : Int) + d.exponent
  if d.digits = 0 ∨ top < -330 then 0
  else if 310 < top then 1 / 0
  else Float.ofScientific d.digits (d.exponent < 0) d.exponent.natAbs

end Decimal
end SiblingSwap
