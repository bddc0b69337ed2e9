import SiblingSwap.CommandLine.Arguments
import SiblingSwap.CommandLine.Listing
import SiblingSwap.Settings.Load
import SiblingSwap.Swap.Run
import SiblingSwap.Tree.Drawing
import SiblingSwap.Workspace

/-! Running a command line. Settings are loaded first, then the file is read, then the offset is checked;
    the first fault ends the run, and then nothing is printed and no file is written. -/

namespace SiblingSwap
namespace CommandLine

/-- What a run does: the code it ends with, what it prints, and the path and text of the file it writes. -/
structure Report where
  code : Nat
  out : String
  err : String
  written : Option (String × String) := none
deriving DecidableEq, Repr

/-- Why a run ends early. -/
inductive Failure where
  | settings (e : Settings.Error)
  | read (e : ReadError)
  | range (e : OutOfRange)

/-- The message of a failure. -/
def Failure.message : Failure → String
  | settings e => e.message
  | read e => e.message
  | range e => e.message

/-- The code that a failure ends a run with. -/
def Failure.code : Failure → Nat
  | settings .noItem => 101
  | _ => 1

/-- The file of settings that belongs to a folder. -/
def projectFile : String := ".anyswap.toml"

/-- What `--version` prints. -/
def versionText : String := "anyswap 0.1.0\n"

/-- What is printed when the arguments break a rule. -/
def usageText : String :=
  "usage: anyswap (swap|tokens|tree) <path> --offset <N> [--backward] [--config <file>] " ++
  "[--extend-lines <N>] [--stay] [--write]\n"

namespace Request

/-- The files of settings, in order. -/
def layers (r : Request) : List Settings.Layer :=
  ⟨projectFile, true⟩ :: (r.settings.map fun name => ⟨name, false⟩).toList

/-- The single settings. -/
def single (r : Request) : List (String × Settings.Scalar) :=
  (r.extendLines.map fun n => ("scan.extend_lines", .integer n)).toList ++
    if r.stay then [("cursor.follow_swap", .boolean false)] else []

/-- All that a request works on: the settings and the file with the cursor in it. -/
def prepare (r : Request) (d : Disk) : Except Failure (Settings × Buffer) := do
  let s ← (Settings.load d r.layers r.single).mapError .settings
  let text ← (d.read r.path).mapError .read
  let b ← (Buffer.openAt text.toList r.offset).mapError .range
  return (s, b)

/-- Swaps, and writes the file or prints it. A file is only written when something was swapped. -/
def runSwap (r : Request) (s : Settings) (b : Buffer) : Report :=
  let (after, outcome) := b.swap s r.direction
  let text := String.ofList after.text
  let (said, written) := match outcome with
    | .swapped _ cursor => (s!"cursor: {cursor}\n", some (r.path, text))
    | .skipped why => (s!"unchanged: {why.reason}\n", none)
  if r.write then ⟨0, "", said, written⟩ else ⟨0, text, said, none⟩

/-- Carries a request out. -/
def run (r : Request) (d : Disk) : Report :=
  match r.prepare d with
  | .error e => ⟨e.code, "", s!"Error: {e.message}\n", none⟩
  | .ok (s, b) =>
    match r.action with
    | .swap => r.runSwap s b
    | .tokens => ⟨0, listing (tokenize b.text (b.window b.cursor r.direction s.extendLines)), "", none⟩
    | .tree => ⟨0, String.ofList (b.tree b.cursor r.direction s.extendLines).drawing, "", none⟩

end Request

/-- Runs a command line. -/
def run (d : Disk) (args : List String) : Report :=
  match command? args with
  | none => ⟨2, "", usageText, none⟩
  | some .version => ⟨0, versionText, "", none⟩
  | some (.request r) => r.run d

/-- Runs a command line in a workspace: what it does, and the workspace after it. -/
def runIn (w : Workspace) (args : List String) : Report × Workspace :=
  let report := run w.disk args
  match report.written with
  | some (path, text) => (report, w.write path text)
  | none => (report, w)

end CommandLine
end SiblingSwap
