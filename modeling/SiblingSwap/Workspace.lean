import SiblingSwap.Disk
import SiblingSwap.Entries
import SiblingSwap.Text.Basic

/-! Files and folders as a value, with the folder that paths start from. -/

namespace SiblingSwap

/-- What a name stands for: a file, or a folder of names with what they stand for. A name occurs once in a folder. -/
inductive Entry where
  | file (content : ByteArray)
  | folder (entries : List (String × Entry))
deriving Inhabited

/-- Names from a folder down to one of the things in it. -/
abbrev Place := List String

namespace Entry

/-- The names in the folder at a place. -/
def names? : Place → Entry → Option (List String)
  | [], .folder es => some (es.map Prod.fst)
  | name :: rest, .folder es => (es.lookup name).bind (names? rest)
  | _, .file _ => none

/-- The content of the file at a place. -/
def content? : Place → Entry → Option ByteArray
  | [], .file content => some content
  | [], .folder _ => none
  | name :: rest, .folder es => (es.lookup name).bind (content? rest)
  | _ :: _, .file _ => none

/-- Replaces the content of the file at a place. -/
def rewrite (content : ByteArray) : Place → Entry → Entry
  | [], .file _ => .file content
  | [], .folder es => .folder es
  | name :: rest, .folder es =>
    match es.lookup name with
    | some e => .folder (Entries.put name (rewrite content rest e) es)
    | none => .folder es
  | _ :: _, .file old => .file old

end Entry

/-- All files and folders there are, and the place of the folder that paths start from. -/
structure Workspace where
  root : Entry
  here : Place
deriving Inhabited

namespace Workspace

/-- The most bytes of a name. -/
def maxName : Nat := 255

/-- The most bytes of a path. -/
def maxPath : Nat := 4095

/-- Follows one part of a path. Above the root there is the root again. -/
def follow (w : Workspace) (p : Place) (part : List Char) : Except ReadError Place :=
  match w.root.names? p with
  | none => .error .notFolder
  | some names =>
    if Disk.isStill part then .ok p
    else if part = ['.', '.'] then .ok p.dropLast
    else if maxName < Text.size part then .error .nameTooLong
    else if names.contains (String.ofList part) then .ok (p ++ [String.ofList part])
    else .error .notFound

/-- Where a path leads. One that starts with a slash starts at the root. -/
def find (w : Workspace) (path : String) : Except ReadError Place :=
  let cs := path.toList
  if cs = [] then .error .notFound
  else if maxPath < Text.size cs then .error .nameTooLong
  else (Disk.parts cs).foldlM w.follow (if cs.head? = some '/' then [] else w.here)

/-- What can be read. -/
def disk (w : Workspace) : Disk := fun path =>
  match w.find path with
  | .error e => .error e
  | .ok p =>
    match w.root.content? p with
    | some content => .ok content
    | none => .error .isFolder

/-- Replaces the content of the file that a path leads to. -/
def write (w : Workspace) (path text : String) : Workspace :=
  match w.find path with
  | .error _ => w
  | .ok p => { w with root := w.root.rewrite text.toUTF8 p }

end Workspace
end SiblingSwap
