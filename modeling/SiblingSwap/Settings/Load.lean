import SiblingSwap.Disk
import SiblingSwap.Settings.Check
import SiblingSwap.Settings.Layer
import SiblingSwap.Toml.Document

/-! Loading settings: the defaults, then files in order, then single settings. What comes later wins. -/

namespace SiblingSwap
namespace Settings

/-- A file to be laid over what is below it. An optional one that cannot be read as a text does not count. -/
structure Layer where
  name : String
  isOptional : Bool
deriving DecidableEq, Repr

/-- The settings as values. -/
def toValue (s : Settings) : Value :=
  .table none
    [ ("scan".toList, .table none [("extend_lines".toList, .scalar none (.integer s.extendLines))]),
      ("cursor".toList, .table none [("follow_swap".toList, .scalar none (.boolean s.followSwap))]) ]

/-- The paths that a name may mean, in order: itself, and with `.toml` after it. -/
def pathsOf (name : String) : List String := name :: (Disk.withEnding ".toml" name).toList

/-- The path that a name means: the first that leads to a file. -/
def fileOf? (d : Disk) (name : String) : Option String := (pathsOf name).find? fun path => (d path).isOk

/-- The entries of a TOML document in a file. -/
def entriesOf (file : String) (text : List Char) : Except Error (List (List Char × Value)) :=
  match (Toml.document? text).map (Value.ofToml (some file)) with
  | none => .error (.malformed file)
  | some (.table _ es) => .ok es
  | some v => .error (.notTable v file)

/-- The entries of a layer. A file that can be read as a text has to be a TOML document. -/
def Layer.read (d : Disk) (l : Layer) : Except Error (List (List Char × Value)) :=
  match fileOf? d l.name with
  | none => if l.isOptional then .ok [] else .error (.notFound l.name)
  | some path =>
    match d.read path with
    | .error _ => if l.isOptional then .ok [] else .error (.notText l.name)
    | .ok text => entriesOf (Disk.plain path) text.toList

/-- Lays entries over settings. -/
def layEntries (v : Value) (entries : List (List Char × Value)) : Except Error Value :=
  match v.addFile entries with
  | some v => .ok v
  | none => .error .noItem

/-- Lays all layers over the defaults. The entries that come of it are laid once more, for in lower case a name may
    read as a path that was none before. -/
def layAll (d : Disk) (layers : List Layer) : Except Error Value := do
  let v ← layers.foldlM (fun v l => do layEntries v (← l.read d)) ({} : Settings).toValue
  layEntries (.table none []) v.asTable.2

/-- Sets single settings, in order. -/
def setAll (v : Value) (single : List (Path × Scalar)) : Except Error Value :=
  match single.foldlM (fun v (p, s) => v.setPath p (.scalar none s)) v with
  | some v => .ok v
  | none => .error .noItem

/-- Loads settings. Paths are read before files, and files in order: the first fault is told. -/
def load (d : Disk) (layers : List Layer) (single : List (String × Scalar)) : Except Error Settings := do
  let single ← single.mapM fun (path, s) =>
    match Path.ofChars? path.toList with
    | some p => .ok (p, s)
    | none => .error (.badPath path)
  (← setAll (← layAll d layers) single).toSettings

end Settings
end SiblingSwap
