import SiblingSwap.Toml.Value

/-! Settings before they are checked: values of any kind, each with the file it comes from. -/

namespace SiblingSwap
namespace Settings

/-- A value that holds no other. -/
inductive Scalar where
  | nil
  | boolean (b : Bool)
  /-- A whole number of 64 or 128 bits. -/
  | integer (n : Int)
  | float (x : Float)
  | string (s : List Char)
deriving Inhabited

/-- A value, with the name of its file unless it was set in another way. -/
inductive Value where
  | scalar (source : Option String) (s : Scalar)
  | array (source : Option String) (items : List Value)
  | table (source : Option String) (entries : List (List Char × Value))
deriving Inhabited

namespace Value

/-- No value. -/
def nil : Value := .scalar none .nil

/-- The entries of a table. Anything else gives way to a new table without a file. -/
def asTable : Value → Option String × List (List Char × Value)
  | .table source es => (source, es)
  | _ => (none, [])

/-- The items of an array. Anything else gives way to a new array without a file. -/
def asArray : Value → Option String × List Value
  | .array source items => (source, items)
  | _ => (none, [])

mutual

/-- A value read from a file. Dates and times are texts. -/
def ofToml (source : Option String) : Toml.Value → Value
  | .boolean b => .scalar source (.boolean b)
  | .integer n => .scalar source (.integer n)
  | .float x => .scalar source (.float x)
  | .string s | .moment s => .scalar source (.string s)
  | .array items => .array source (ofTomlItems source items)
  | .table entries => .table source (ofTomlEntries source entries)

/-- The items of an array read from a file. -/
def ofTomlItems (source : Option String) : List Toml.Value → List Value
  | [] => []
  | v :: vs => ofToml source v :: ofTomlItems source vs

/-- The entries of a table read from a file. -/
def ofTomlEntries (source : Option String) : List (List Char × Toml.Value) → List (List Char × Value)
  | [] => []
  | (k, v) :: es => (k, ofToml source v) :: ofTomlEntries source es

end

end Value
end Settings
end SiblingSwap
