import SiblingSwap.Settings.Basic
import SiblingSwap.Settings.Error
import SiblingSwap.Text.Digits
import SiblingSwap.Text.LowerCase

/-! From values of any kind to settings. -/

namespace SiblingSwap
namespace Settings

/-- Words for yes and no. -/
def ofWord? (cs : List Char) : Option Bool :=
  let word := String.ofList (Text.lower cs)
  if ["true", "on", "yes"].contains word then some true
  else if ["false", "off", "no"].contains word then some false
  else none

namespace Value

/-- The value as a number of 64 bits. A fraction is rounded, halves away from zero, and cut to what 64 bits hold. -/
def toNat (key : String) (v : Value) : Except Error Nat :=
  match v with
  | .scalar _ (.integer n) =>
    if 0 ≤ n ∧ n.toNat < UInt64.size then .ok n.toNat else .error (.wrongKind v .unsigned key)
  | .scalar _ (.float x) => .ok x.round.toUInt64.toNat
  | .scalar _ (.boolean b) => .ok b.toNat
  | .scalar _ (.string s) =>
    match (ofWord? s).map Bool.toNat |>.or (Text.nat64? s) with
    | some n => .ok n
    | none => .error (.wrongKind v .integer key)
  | _ => .error (.wrongKind v .integer key)

/-- The value as yes or no. -/
def toBool (key : String) (v : Value) : Except Error Bool :=
  match v with
  | .scalar _ (.integer n) => .ok (n != 0)
  | .scalar _ (.float x) => .ok (x != 0)
  | .scalar _ (.boolean b) => .ok b
  | .scalar source (.string s) =>
    match (ofWord? s).or (if s = ['1'] then some true else if s = ['0'] then some false else none) with
    | some b => .ok b
    | none => .error (.wrongKind (.scalar source (.string (Text.lower s))) .boolean key)
  | _ => .error (.wrongKind v .boolean key)

/-- The one setting of a group, with the key that names it in messages. A group may be given as an array. -/
def setting (group : Section) (v : Value) : Except Error (Value × String) :=
  match v with
  | .table _ es =>
    match es.lookup group.field.toList with
    | some v => .ok (v, group.name ++ "." ++ group.field)
    | none => .error (.missing group.field)
  | .array _ (v :: _) => .ok (v, group.name ++ "[0]")
  | .array _ [] => .error (.emptyGroup group)
  | .scalar _ s => .error (.notGroup s group)

/-- A group of settings. -/
def group (root : Value) (g : Section) : Except Error Value :=
  match root.asTable.2.lookup g.name.toList with
  | some v => .ok v
  | none => .error (.missing g.name)

/-- The settings that values amount to. -/
def toSettings (root : Value) : Except Error Settings := do
  let (lines, linesKey) ← (← root.group .scan).setting .scan
  let extendLines ← lines.toNat linesKey
  let (follow, followKey) ← (← root.group .cursor).setting .cursor
  let followSwap ← follow.toBool followKey
  return { extendLines, followSwap }

end Value
end Settings
end SiblingSwap
