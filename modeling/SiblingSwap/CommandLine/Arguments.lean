import SiblingSwap.Swap.Resolve
import SiblingSwap.Text.Digits

/-! The arguments of the command line: an action, then a path and options in any order. Long options take their value
    after `=` or as the next argument, short ones also right after their letter, and short ones may share one dash.
    After `--` all arguments are paths. -/

namespace SiblingSwap
namespace CommandLine

/-- What is done with a file. -/
inductive Action where
  | swap
  | tokens
  | tree
deriving DecidableEq, Repr

/-- A request for an action. -/
structure Request where
  action : Action
  path : String
  offset : Nat
  direction : Direction
  settings : Option String
  extendLines : Option Nat
  stay : Bool
  write : Bool
deriving DecidableEq, Repr

/-- What is asked for. -/
inductive Command where
  | version
  | request (r : Request)
deriving DecidableEq, Repr

/-! ### Options -/

/-- An option without a value. -/
inductive Switch where
  | backward
  | stay
  | write
deriving DecidableEq, Repr

/-- An option with a value. -/
inductive Parameter where
  | offset
  | settings
  | extendLines
deriving DecidableEq, Repr

/-- The options given so far. -/
structure Given where
  path : Option String := none
  offset : Option Nat := none
  settings : Option String := none
  extendLines : Option Nat := none
  switches : List Switch := []
deriving Repr

/-- The option with a long name. Only a swap can be written back. -/
def longOption? (action : Action) : String → Option (Switch ⊕ Parameter)
  | "backward" => some (.inl .backward)
  | "stay" => some (.inl .stay)
  | "write" => if action = .swap then some (.inl .write) else none
  | "offset" => some (.inr .offset)
  | "config" => some (.inr .settings)
  | "extend-lines" => some (.inr .extendLines)
  | _ => none

/-- The option with a letter. -/
def shortOption? (action : Action) : Char → Option (Switch ⊕ Parameter)
  | 'b' => some (.inl .backward)
  | 'w' => if action = .swap then some (.inl .write) else none
  | 'o' => some (.inr .offset)
  | 'c' => some (.inr .settings)
  | 'n' => some (.inr .extendLines)
  | _ => none

/-- A number of lines, of 63 bits, with or without a sign; with a minus sign it can only be zero. -/
def linesOf? : List Char → Option Nat
  | '-' :: ds => Text.natBelow? 1 ds
  | '+' :: ds => Text.natBelow? (Nat.pow 2 63) ds
  | ds => Text.natBelow? (Nat.pow 2 63) ds

/-! ### Arguments one by one -/

namespace Given

/-- Turns a switch on that was not. -/
def switch? (g : Given) (s : Switch) : Option Given :=
  if g.switches.contains s then none else some { g with switches := s :: g.switches }

/-- Sets a parameter that was not set. -/
def set? (g : Given) (p : Parameter) (value : List Char) : Option Given :=
  match p with
  | .offset => if g.offset.isSome then none else (Text.nat64? value).map fun n => { g with offset := n }
  | .settings => if g.settings.isSome then none else some { g with settings := String.ofList value }
  | .extendLines => if g.extendLines.isSome then none else (linesOf? value).map fun n => { g with extendLines := n }

/-- Sets the path that was not set. -/
def path? (g : Given) (path : String) : Option Given :=
  if g.path.isSome then none else some { g with path }

/-- Reads letters that share a dash. The last one may lack its value. -/
def letters? (action : Action) (g : Given) : List Char → Option (Given × Option Parameter)
  | [] => some (g, none)
  | c :: cs =>
    match shortOption? action c, cs with
    | some (.inl s), cs => (g.switch? s).bind fun g => letters? action g cs
    | some (.inr p), [] => some (g, some p)
    | some (.inr p), '=' :: value => (g.set? p value).map (·, none)
    | some (.inr p), value => (g.set? p value).map (·, none)
    | none, _ => none

/-- Reads a long option, which may lack its value. -/
def long? (action : Action) (g : Given) (cs : List Char) : Option (Given × Option Parameter) :=
  match longOption? action (String.ofList (cs.takeWhile (· != '='))), cs.dropWhile (· != '=') with
  | some (.inl s), [] => (g.switch? s).map (·, none)
  | some (.inr p), [] => some (g, some p)
  | some (.inr p), _ :: value => (g.set? p value).map (·, none)
  | _, _ => none

/-- Reads the arguments after the action. `waiting` is an option whose value is the next argument; a value that starts
    with a dash has to be joined to its option. -/
def read? (action : Action) (g : Given) (waiting : Option Parameter) : List String → Option Given
  | [] => if waiting.isSome then none else some g
  | arg :: args =>
    match waiting, arg.toList with
    | none, ['-', '-'] => args.foldlM path? g
    | none, '-' :: '-' :: cs => (g.long? action cs).bind fun (g, waiting) => read? action g waiting args
    | none, '-' :: c :: cs => (g.letters? action (c :: cs)).bind fun (g, waiting) => read? action g waiting args
    | none, _ => (g.path? arg).bind fun g => read? action g none args
    | some _, '-' :: _ :: _ => none
    | some p, value => (g.set? p value).bind fun g => read? action g none args

/-- The request, if all it needs was given. -/
def request? (g : Given) (action : Action) : Option Request := do
  return {
    action
    path := ← g.path
    offset := ← g.offset
    direction := if g.switches.contains .backward then .backward else .forward
    settings := g.settings
    extendLines := g.extendLines
    stay := g.switches.contains .stay
    write := g.switches.contains .write }

end Given

/-- The action of a name. -/
def action? : String → Option Action
  | "swap" => some .swap
  | "tokens" => some .tokens
  | "tree" => some .tree
  | _ => none

/-- Reads all arguments. There is no command when they break a rule. -/
def command? : List String → Option Command
  | [] => none
  | first :: args =>
    match action? first with
    | some action => ((Given.read? action {} none args).bind (·.request? action)).map .request
    | none =>
      match first, first.toList with
      | "--version", _ | _, '-' :: 'V' :: _ => some .version
      | _, _ => none

end CommandLine
end SiblingSwap
