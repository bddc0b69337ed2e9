import SiblingSwap.Token.Basic

/-! Tokens as a JSON text, indented by two blanks. -/

namespace SiblingSwap
namespace CommandLine

/-- A character of a JSON string. Only what has to be escaped is. -/
def jsonChar (c : Char) : List Char :=
  match c with
  | '"' => ['\\', '"']
  | '\\' => ['\\', '\\']
  | '\x08' => ['\\', 'b']
  | '\x0c' => ['\\', 'f']
  | '\n' => ['\\', 'n']
  | '\r' => ['\\', 'r']
  | '\t' => ['\\', 't']
  | c =>
    if c.toNat < 0x20 then
      ['\\', 'u', '0', '0', Nat.digitChar (c.toNat / 16), Nat.digitChar (c.toNat % 16)]
    else [c]

/-- A JSON string. -/
def jsonString (cs : List Char) : String := String.ofList ('"' :: cs.flatMap jsonChar ++ ['"'])

/-- What a role is called. -/
def roleName : Role → String
  | .atom => "atom"
  | .opener => "open"
  | .closer => "close"
  | .operator => "operator"

/-- The lines of a token. -/
def tokenLines (t : Token) : String :=
  "  \x7b\n" ++
  "    \"text\": " ++ jsonString t.text ++ ",\n" ++
  s!"    \"priority\": {t.priority},\n" ++
  s!"    \"class\": \"{roleName t.role}\",\n" ++
  "    \"span\": \x7b\n" ++
  s!"      \"start\": {t.span.start},\n" ++
  s!"      \"end\": {t.span.stop}\n" ++
  "    \x7d\n" ++
  "  \x7d"

/-- The listing of some tokens. -/
def listing (ts : List Token) : String :=
  if ts.isEmpty then "[]\n" else "[\n" ++ ",\n".intercalate (ts.map tokenLines) ++ "\n]\n"

end CommandLine
end SiblingSwap
