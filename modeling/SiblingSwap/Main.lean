import SiblingSwap.CommandLine.Run

/-! The program: the files that a command line names are read, the command line is run on them, and what it says is
    printed and written. -/

namespace SiblingSwap

/-- What a path leads to on disk. -/
def readPath (path : String) : IO (Except ReadError ByteArray) := do
  try
    return .ok (← IO.FS.readBinFile path)
  catch
    | .inappropriateType _ 21 _ => return .error .isFolder
    | .inappropriateType .. => return .error .notFolder
    | .invalidArgument .. => return .error .nameTooLong
    | _ => return .error .notFound

/-- The paths of the files that a command line may read. -/
def pathsOf (args : List String) : List String :=
  match CommandLine.command? args with
  | some (.request r) => r.path :: r.layers.flatMap fun l => Settings.pathsOf l.name
  | _ => []

end SiblingSwap

open SiblingSwap in
/-- Runs the command line. -/
def main (args : List String) : IO UInt32 := do
  let known ← (pathsOf args).mapM fun path => return (path, ← readPath path)
  let report := CommandLine.run (fun path => (known.lookup path).getD (.error .notFound)) args
  if let some (path, text) := report.written then IO.FS.writeFile path text
  IO.eprint report.err
  IO.print report.out
  return report.code.toUInt32
