import SiblingSwap.Text.Digits
import SiblingSwap.Toml.Blank

/-! Dates and times of day of the TOML format. They are kept as text in their normal spelling: a `T` between date and
    time, at most nine places of a second and no zero after them, and `Z` for no offset. -/

namespace SiblingSwap
namespace Toml

/-- A number of exactly `width` digits in a range, as text. -/
def field? (width low high : Nat) (cs : List Char) : Option (Nat × List Char × List Char) :=
  let ds := cs.take width
  let n := Text.natOfDigits ds
  if ds.length = width && ds.all Char.isDigit && low ≤ n && n ≤ high then some (n, ds, cs.drop width) else none

/-- What is left after a sign. -/
def sign? (c : Char) : List Char → Option (List Char)
  | c' :: cs => if c' = c then some cs else none
  | [] => none

/-- The number of days of a month. -/
def daysIn (year month : Nat) : Nat :=
  if month = 2 then
    if year % 4 = 0 ∧ (year % 100 ≠ 0 ∨ year % 400 = 0) then 29 else 28
  else if month = 4 ∨ month = 6 ∨ month = 9 ∨ month = 11 then 30
  else 31

/-- A day. -/
def date? : Reader (List Char) := fun cs => do
  let (year, y, cs) ← field? 4 0 9999 cs
  let cs ← sign? '-' cs
  let (month, m, cs) ← field? 2 1 12 cs
  let cs ← sign? '-' cs
  let (_, d, cs) ← field? 2 1 (daysIn year month) cs
  return (y ++ '-' :: m ++ '-' :: d, cs)

/-- The places of a second, with their point; there need not be any. -/
def places : List Char → List Char × List Char
  | '.' :: cs =>
    let ds := cs.takeWhile Char.isDigit
    let kept := (ds.take 9).reverse.dropWhile (· == '0') |>.reverse
    if ds.isEmpty then ([], '.' :: cs)
    else (if kept.isEmpty then [] else '.' :: kept, cs.dropWhile Char.isDigit)
  | cs => ([], cs)

/-- A time of day. A minute may have a 61st second. -/
def time? : Reader (List Char) := fun cs => do
  let (_, h, cs) ← field? 2 0 23 cs
  let cs ← sign? ':' cs
  let (_, m, cs) ← field? 2 0 59 cs
  let cs ← sign? ':' cs
  let (_, s, cs) ← field? 2 0 60 cs
  let (p, cs) := places cs
  return (h ++ ':' :: m ++ ':' :: s ++ p, cs)

/-- The hours and minutes of an offset. -/
def offsetSize? : Reader (List Char) := fun cs => do
  let (_, h, cs) ← field? 2 0 23 cs
  let cs ← sign? ':' cs
  let (_, m, cs) ← field? 2 0 59 cs
  return (h ++ ':' :: m, cs)

/-- How far a time is off; there need not be an offset. -/
def offset (cs : List Char) : List Char × List Char :=
  match cs with
  | 'Z' :: rest | 'z' :: rest => (['Z'], rest)
  | '+' :: rest => ((offsetSize? rest).map fun (o, left) => ('+' :: o, left)).getD ([], cs)
  | '-' :: rest =>
    ((offsetSize? rest).map fun (o, left) =>
      ((if o = ['0', '0', ':', '0', '0'] then '+' else '-') :: o, left)).getD ([], cs)
  | _ => ([], cs)

/-- A time after a date, with the sign between them and its offset; there need not be any. -/
def timeOfDay (cs : List Char) : List Char × List Char :=
  match cs with
  | 'T' :: rest | 't' :: rest | ' ' :: rest =>
    match time? rest with
    | some (t, rest) =>
      let (o, rest) := offset rest
      ('T' :: t ++ o, rest)
    | none => ([], cs)
  | _ => ([], cs)

/-- A date, a time or both. -/
def moment? : Reader (List Char) := fun cs =>
  match date? cs with
  | some (d, rest) =>
    let (t, rest) := timeOfDay rest
    some (d ++ t, rest)
  | none => time? cs

/-- A moment that is a whole text. -/
def momentOf? (cs : List Char) : Option (List Char) :=
  match moment? cs with
  | some (m, []) => some m
  | _ => none

end Toml
end SiblingSwap
