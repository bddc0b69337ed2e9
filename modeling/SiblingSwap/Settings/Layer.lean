import SiblingSwap.Entries
import SiblingSwap.Settings.Path
import SiblingSwap.Settings.Value
import SiblingSwap.Text.LowerCase

/-! Laying settings over others. Tables are merged entry by entry; any other value replaces what was there. Names are
    kept in lower case. A table that comes of a merge belongs to no file. -/

namespace SiblingSwap
namespace Settings
namespace Value

mutual

/-- What comes of a value that is laid over another, or over nothing. An empty table changes nothing that is there. -/
def laidOver (below : Option Value) : Value → Value
  | .table _ es => laidOverEach (below.getD (.table none [])) es
  | v => v

/-- What comes of entries that are laid over a value one by one. -/
def laidOverEach (below : Value) : List (List Char × Value) → Value
  | [] => below
  | (k, v) :: es =>
    let (source, old) := below.asTable
    laidOverEach (.table source (Entries.put (Text.lower k) (laidOver (old.lookup (Text.lower k)) v) old)) es

end

/-- Lays a value over one entry of a table. -/
def setKey (t : Value) (k : List Char) (v : Value) : Value :=
  let (source, es) := t.asTable
  .table source (Entries.put (Text.lower k) (laidOver (es.lookup (Text.lower k)) v) es)

/-- The most items of an array: so many of 96 bytes each fill the memory that a word of 64 bits can name. -/
def maxItems : Nat := (Nat.pow 2 63 - 1) / 96

/-- The place of an item in an array of a given size. A negative number counts from the end, but not past the start. -/
def place? (size : Nat) (i : Int) : Option Nat :=
  let n := if i < 0 then size + i else i
  if 0 ≤ n ∧ n < maxItems then some n.toNat else none

/-- Sets the value at the end of a path, making tables and arrays on the way of whatever is there. An array is filled
    up as far as needed. -/
def setAt (v : Value) : List Step → Value → Option Value
  | [], _ => some v
  | [.key k], t => some (t.setKey k v)
  | .key k :: steps, t =>
    let (source, es) := t.asTable
    let k := Text.lower k
    (setAt v steps ((es.lookup k).getD nil)).map fun v => .table source (Entries.put k v es)
  | .index i :: steps, t =>
    let (source, items) := t.asArray
    (place? items.length i).bind fun n =>
      (setAt v steps (items.getD n nil)).map fun v =>
        .array source ((items ++ List.replicate (n + 1 - items.length) nil).set n v)

/-- Sets the value at the end of a path. -/
def setPath (t : Value) (p : Path) (v : Value) : Option Value := setAt v (.key p.name :: p.steps) t

/-- Lays the entries of a file over settings. A key of the file that reads as a path is one. -/
def addFile (t : Value) (entries : List (List Char × Value)) : Option Value :=
  entries.foldlM (fun t (k, v) => t.setPath ((Path.ofChars? k).getD ⟨k, []⟩) v) t

end Value
end Settings
end SiblingSwap
