/-! Files by their paths, and the paths themselves: parts with slashes between them. -/

namespace SiblingSwap

/-- Why a file cannot be read. -/
inductive ReadError where
  | notFound
  /-- The path leads to a folder. -/
  | isFolder
  /-- The path leads on from a file. -/
  | notFolder
  | nameTooLong
  | notText
deriving DecidableEq, Repr

/-- The message for a file that cannot be read. -/
def ReadError.message : ReadError → String
  | notFound => "i/o error: No such file or directory (os error 2)"
  | isFolder => "i/o error: Is a directory (os error 21)"
  | notFolder => "i/o error: Not a directory (os error 20)"
  | nameTooLong => "i/o error: File name too long (os error 36)"
  | notText => "i/o error: stream did not contain valid UTF-8"

/-- What can be read: the content of the file that a path leads to. -/
abbrev Disk := String → Except ReadError ByteArray

namespace Disk

/-- The text of a file. -/
def read (d : Disk) (path : String) : Except ReadError String :=
  match d path with
  | .error e => .error e
  | .ok content =>
    match String.fromUTF8? content with
    | some text => .ok text
    | none => .error .notText

/-! ### Paths -/

/-- The parts of a path. One that starts with a slash has an empty first part. -/
def parts : List Char → List (List Char)
  | [] => [[]]
  | c :: cs =>
    if c = '/' then [] :: parts cs
    else
      match parts cs with
      | [] => [[c]]
      | p :: ps => (c :: p) :: ps

/-- The path with given parts. -/
def ofParts (ps : List (List Char)) : String := String.ofList (['/'].intercalate ps)

/-- A part that leads nowhere else. -/
def isStill (part : List Char) : Bool := part = [] || part = ['.']

/-- A path without the parts that lead nowhere else. -/
def plain (path : String) : String :=
  match path.toList with
  | '/' :: cs => "/" ++ ofParts ((parts cs).filter (!isStill ·))
  | cs => ofParts ((parts cs).filter (!isStill ·))

/-- A path with something added to its last name. There is none in a path that ends above where it started. -/
def withEnding (ending path : String) : Option String :=
  match (parts path.toList).reverse.dropWhile isStill with
  | [] => none
  | last :: before => if last = ['.', '.'] then none else some (ofParts (last :: before).reverse ++ ending)

end Disk
end SiblingSwap
