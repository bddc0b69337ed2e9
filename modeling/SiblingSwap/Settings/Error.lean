import SiblingSwap.Decimal.Shortest
import SiblingSwap.Settings.Value
import SiblingSwap.Text.Quoted

/-! Why settings cannot be loaded, and how that is told. -/

namespace SiblingSwap
namespace Settings

/-- The two groups of settings. -/
inductive Section where
  | scan
  | cursor
deriving DecidableEq, Repr

namespace Section

/-- The name of the group. -/
def name : Section → String
  | scan => "scan"
  | cursor => "cursor"

/-- The one setting of the group. -/
def field : Section → String
  | scan => "extend_lines"
  | cursor => "follow_swap"

/-- What the group is called in messages. -/
def title : Section → String
  | scan => "ScanConfig"
  | cursor => "CursorConfig"

end Section

/-- What a setting should have been. -/
inductive Expected where
  | integer
  | unsigned
  | boolean
deriving DecidableEq, Repr

/-- What was expected, in words. -/
def Expected.words : Expected → String
  | integer => "an integer"
  | unsigned => "an unsigned 64 bit or less integer"
  | boolean => "a boolean"

/-- Why settings cannot be loaded. -/
inductive Error where
  /-- The path of a setting cannot be read. -/
  | badPath (path : String)
  /-- There is no such file. -/
  | notFound (name : String)
  /-- The file is no text. -/
  | notText (name : String)
  /-- The file is no TOML document. -/
  | malformed (name : String)
  /-- The file is a TOML document that stands for a single value. -/
  | notTable (found : Value) (name : String)
  /-- A path leads to an item that no array can have. -/
  | noItem
  /-- A setting is of the wrong kind. -/
  | wrongKind (found : Value) (expected : Expected) (key : String)
  /-- A group of settings is a single value. -/
  | notGroup (found : Scalar) (group : Section)
  /-- A group of settings is an array without items. -/
  | emptyGroup (group : Section)
  /-- A group of settings lacks its setting. -/
  | missing (field : String)

/-- A floating-point number in words: the shortest digits, never with an exponent. -/
def floatWords (x : Float) : String :=
  if x.isNaN then "NaN"
  else
    let sign := if x.toBits.toNat / Nat.pow 2 63 = 1 then "-" else ""
    if x.isInf then sign ++ "inf" else sign ++ String.ofList (Decimal.ofFloat x).pointed

/-- A single value in words. -/
def Scalar.words : Scalar → String
  | nil => "unit value"
  | boolean b => s!"boolean `{b}`"
  | integer n => s!"integer `{n}`"
  | float x => "floating point `" ++ floatWords x ++ "`"
  | string s => "string " ++ String.ofList (Text.quoted s)

/-- The bits of the signed word that holds a number. -/
def bitsOf (n : Int) : Nat := if Int64.minValue.toInt ≤ n ∧ n ≤ Int64.maxValue.toInt then 64 else 128

/-- A value of the wrong kind in words. -/
def Value.words : Value → String
  | .scalar _ (.integer n) => s!"{bitsOf n}-bit integer `{n}`"
  | .scalar _ s => s.words
  | .array _ _ => "sequence"
  | .table _ _ => "map"

/-- The file of a value. -/
def Value.source? : Value → Option String
  | .scalar source _ | .array source _ | .table source _ => source

namespace Error

/-- The message without the words that start all such messages. -/
def detail : Error → String
  | badPath path => s!"malformed path {path}"
  | notFound name => s!"configuration file \"{name}\" not found"
  | notText _ => "stream did not contain valid UTF-8"
  | malformed name => s!"TOML parse error in {name}"
  | notTable found name => s!"invalid type: {found.words}, expected a map in {name} in {name}"
  | noItem => "no such item"
  | wrongKind found expected key =>
    s!"invalid type: {found.words}, expected {expected.words} for key `{key}`" ++
      match found.source? with
      | some file => s!" in {file}"
      | none => ""
  | notGroup found group => s!"invalid type: {found.words}, expected struct {group.title}"
  | emptyGroup group => s!"invalid length 0, expected struct {group.title} with 1 element"
  | missing field => s!"missing field `{field}`"

/-- The message. -/
def message (e : Error) : String := "configuration error: " ++ e.detail

end Error
end Settings
end SiblingSwap
