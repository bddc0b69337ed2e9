import SiblingSwap.Decimal.Basic
import SiblingSwap.Toml.Quote
import SiblingSwap.Toml.Value

/-! Numbers of the TOML format. Digits may be parted by single underscores. An integer is a signed word of 64 bits; it
    has no leading zero unless it names a base. -/

namespace SiblingSwap
namespace Toml

/-- Digits without the underscores between them. There is at least one digit, and an underscore has one on either
    side. -/
def digits? (isDigit : Char → Bool) : List Char → Option (List Char)
  | [] => none
  | [c] => if isDigit c then some [c] else none
  | c :: '_' :: cs => if isDigit c then (digits? isDigit cs).map (c :: ·) else none
  | c :: cs => if isDigit c then (digits? isDigit cs).map (c :: ·) else none

/-- The number that digits stand for. -/
def ofDigits (base : Nat) (ds : List Char) : Nat := ds.foldl (fun n c => base * n + (hexDigit? c).getD 0) 0

/-- Decimal digits without a leading zero. -/
def decimalDigits? (cs : List Char) : Option (List Char) :=
  match digits? Char.isDigit cs with
  | some ('0' :: _ :: _) => none
  | ds => ds

/-- A number in a base that is named before it. -/
def based? (base : Nat) (cs : List Char) : Option Nat :=
  (digits? (fun c => (hexDigit? c).any (· < base)) cs).map (ofDigits base)

/-- A number without its sign, and whether it has a minus sign. -/
def unsign : List Char → Bool × List Char
  | '+' :: cs => (false, cs)
  | '-' :: cs => (true, cs)
  | cs => (false, cs)

/-- An integer of any size. -/
def wholeNumber? : List Char → Option Int
  | '0' :: 'x' :: cs => (based? 16 cs).map Int.ofNat
  | '0' :: 'o' :: cs => (based? 8 cs).map Int.ofNat
  | '0' :: 'b' :: cs => (based? 2 cs).map Int.ofNat
  | cs =>
    let (negative, cs) := unsign cs
    (decimalDigits? cs).map fun ds =>
      let n := ofDigits 10 ds
      if negative then -(n : Int) else n

/-- An integer that is a signed word of 64 bits. -/
def integer? (cs : List Char) : Option Int :=
  (wholeNumber? cs).filter fun n => Int64.minValue.toInt ≤ n && n ≤ Int64.maxValue.toInt

/-- The sign that starts the exponent of a number. -/
def isExponentSign (c : Char) : Bool := c == 'e' || c == 'E'

/-- The exponent of a number, with its sign `e`; there need not be one. -/
def exponent? : List Char → Option Int
  | [] => some 0
  | _ :: cs =>
    let (negative, cs) := unsign cs
    (digits? Char.isDigit cs).map fun ds =>
      let n := ofDigits 10 ds
      if negative then -(n : Int) else n

/-- A number with a point or an exponent. -/
def decimal? (cs : List Char) : Option Decimal := do
  let whole ← decimalDigits? (cs.takeWhile fun c => c != '.' && !isExponentSign c)
  match cs.dropWhile fun c => c != '.' && !isExponentSign c with
  | [] => none
  | '.' :: rest =>
    let places ← digits? Char.isDigit (rest.takeWhile (!isExponentSign ·))
    let e ← exponent? (rest.dropWhile (!isExponentSign ·))
    return ⟨ofDigits 10 (whole ++ places), e - places.length⟩
  | rest =>
    let e ← exponent? rest
    return ⟨ofDigits 10 whole, e⟩

/-- A floating-point number. Digits that stand for a number too great are refused; below zero such a number is the
    negative infinity. -/
def float? (cs : List Char) : Option Float :=
  let (negative, cs) := unsign cs
  let sign (x : Float) : Float := if negative then -x else x
  match cs with
  | ['i', 'n', 'f'] => some (sign (1 / 0))
  | ['n', 'a', 'n'] => some (sign (0 / 0))
  | cs => (decimal? cs).bind fun d =>
    let x := d.toFloat
    if x.isInf && !negative then none else some (sign x)

/-- A value written as one word: a number or a truth value. -/
def word? (cs : List Char) : Option Value :=
  match cs with
  | ['t', 'r', 'u', 'e'] => some (.boolean true)
  | ['f', 'a', 'l', 's', 'e'] => some (.boolean false)
  | cs => ((integer? cs).map .integer).or ((float? cs).map .float)

end Toml
end SiblingSwap
