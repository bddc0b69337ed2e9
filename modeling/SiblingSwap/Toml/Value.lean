/-! Values of the TOML format, version 1.0. -/

namespace SiblingSwap
namespace Toml

/-- What a key can stand for. -/
inductive Value where
  | boolean (b : Bool)
  /-- A signed word of 64 bits. -/
  | integer (n : Int)
  | float (x : Float)
  | string (s : List Char)
  /-- A date, a time of day or both, in its normal spelling. -/
  | moment (s : List Char)
  | array (items : List Value)
  /-- Keys are distinct and in the order in which they were first written. -/
  | table (entries : List (List Char × Value))
deriving Inhabited

end Toml
end SiblingSwap
