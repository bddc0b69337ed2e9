import SiblingSwap.Decimal.Basic

/-! The shortest decimal of a floating-point number: of all decimals that are read back as the number, one with the
    fewest digits, and of those the nearest. -/

namespace SiblingSwap
namespace Decimal

/-! ### Floating-point numbers as fractions -/

/-- A positive fraction `num / den` and the decimals that are read back as it: those between `num - below` and
    `num + above` over `den`, with the ends if `closed`. -/
structure Interval where
  num : Nat
  den : Nat
  below : Nat
  above : Nat
  closed : Bool
deriving Repr

/-- The interval of `mantissa * 2 ^ exponent`. The numbers below the least mantissa of a binade are twice as close. -/
def Interval.ofBinary (mantissa : Nat) (exponent : Int) (leastOfBinade : Bool) : Interval :=
  let up := Nat.pow 2 exponent.toNat
  { num := 4 * mantissa * up
    den := 4 * Nat.pow 2 (-exponent).toNat
    below := if leastOfBinade then up else 2 * up
    above := 2 * up
    closed := mantissa % 2 = 0 }

namespace Interval

/-- The fraction in units of `10 ^ e`. -/
def scale (v : Interval) (e : Int) : Interval :=
  let up := Nat.pow 10 (-e).toNat
  { v with num := v.num * up, den := v.den * Nat.pow 10 e.toNat, below := v.below * up, above := v.above * up }

/-- A whole number is read back as the fraction. -/
def has (v : Interval) (n : Nat) : Bool :=
  if v.closed then v.num ≤ n * v.den + v.below && n * v.den ≤ v.num + v.above
  else v.num < n * v.den + v.below && n * v.den < v.num + v.above

/-- The whole number that is read back as the fraction, if one of its two neighbours is: the nearer one, and the
    greater one when both are as near. -/
def whole? (v : Interval) : Option Nat :=
  let n := v.num / v.den
  match v.has n, v.has (n + 1) with
  | true, true => if 2 * (v.num - n * v.den) < v.den then some n else some (n + 1)
  | true, false => some n
  | false, true => some (n + 1)
  | false, false => none

/-- The fraction is at least `10 ^ e`. -/
def reaches (v : Interval) (e : Int) : Bool := v.den * Nat.pow 10 e.toNat ≤ v.num * Nat.pow 10 (-e).toNat

/-- The greatest `e` from `low` to `low + steps` with `10 ^ e` at most the fraction, else `low`. -/
def order (v : Interval) (low : Int) : Nat → Int
  | 0 => low
  | steps + 1 => if v.reaches (low + steps + 1) then low + steps + 1 else v.order low steps

/-- The shortest decimal that is read back as the fraction: grids of more and more digits are tried in turn. The first
    grid has the next power of ten, which can be the nearest decimal of one digit. -/
def shortest (v : Interval) : Decimal :=
  let top := v.order (-324) 633 + 1
  ((List.range 18).findSome? fun k : Nat =>
    let e := top - k
    (v.scale e).whole?.map fun n => ⟨n, e⟩).getD ⟨0, 0⟩

end Interval

/-! ### Floating-point numbers by their bits -/

/-- The shortest decimal of the size of a finite floating-point number. -/
def ofFloat (x : Float) : Decimal :=
  let bits := x.toBits.toNat
  let fraction := bits % Nat.pow 2 52
  let exponent : Nat := bits / Nat.pow 2 52 % Nat.pow 2 11
  if fraction = 0 ∧ exponent = 0 then ⟨0, 0⟩
  else if exponent = 0 then (Interval.ofBinary fraction (-1074) false).shortest
  else (Interval.ofBinary (Nat.pow 2 52 + fraction) ((exponent : Int) - 1075) (fraction = 0 && 1 < exponent)).shortest

/-! ### Text -/

/-- The decimal with a point and no exponent, and at least one place after the point. -/
def pointed (d : Decimal) : List Char :=
  let ds := Nat.toDigits 10 d.digits
  if 0 ≤ d.exponent then ds ++ List.replicate d.exponent.toNat '0' ++ ['.', '0']
  else
    let places := (-d.exponent).toNat
    let ds := List.replicate (places + 1 - ds.length) '0' ++ ds
    ds.take (ds.length - places) ++ '.' :: ds.drop (ds.length - places)

end Decimal
end SiblingSwap
