import SiblingSwap.Entries
import SiblingSwap.Toml.Value

/-! Building tables from keys. A table is written once: under its header, or by keys with dots, never both. Above it
    tables come into being without being written, and those may be written later. -/

namespace SiblingSwap
namespace Toml

/-- How a table came into being. -/
inductive Made where
  /-- Under its own header. -/
  | written
  /-- On the way to the header of a table below it. -/
  | implied
  /-- On the way to the last part of a key with dots. -/
  | dotted
deriving DecidableEq, Repr

/-- What stands under a key while a document is read. -/
inductive Item where
  | value (v : Value)
  | table (made : Made) (entries : List (List Char × Item))
  /-- Tables under one header each, in order. -/
  | tables (elements : List (List (List Char × Item)))
deriving Inhabited

/-- The entries of a table while a document is read. -/
abbrev Items := List (List Char × Item)

mutual

/-- What an item amounts to. -/
def Item.toValue : Item → Value
  | .value v => v
  | .table _ es => .table (Items.toEntries es)
  | .tables els => .array (Items.toValues els)

/-- What the items of a table amount to. -/
def Items.toEntries : List (List Char × Item) → List (List Char × Value)
  | [] => []
  | (k, i) :: es => (k, i.toValue) :: Items.toEntries es

/-- What some tables amount to. -/
def Items.toValues : List (List (List Char × Item)) → List Value
  | [] => []
  | es :: els => .table (Items.toEntries es) :: Items.toValues els

end

/-- A change to a table, which may break a rule. -/
abbrev Change := Made → Items → Option (Made × Items)

/-- Changes the table that a path leads to, making the tables that are missing on the way. The last of several tables
    under one name stands for them. A key with dots does not lead through a written table. -/
def changeAt (dotted : Bool) (f : Change) : List (List Char) → Change
  | [], made, es => f made es
  | k :: path, made, es =>
    match es.lookup k with
    | none =>
      (changeAt dotted f path (if dotted then .dotted else .implied) []).map fun (made', es') =>
        (made, Entries.put k (.table made' es') es)
    | some (.value _) => none
    | some (.table made' es') =>
      if dotted ∧ made' = .written then none
      else
        (changeAt dotted f path made' es').map fun (made', es') => (made, Entries.put k (.table made' es') es)
    | some (.tables els) =>
      (changeAt dotted f path .written (els.getLast?.getD [])).map fun (_, es') =>
        (made, Entries.put k (.tables (els.dropLast ++ [es'])) es)

/-- A header writes a table that is not yet written. The table then stands after all others. -/
def writeTable (k : List Char) : Change := fun made es =>
  match es.lookup k with
  | none => some (made, Entries.put k (.table .written []) es)
  | some (.table .implied es') => some (made, es.filter (·.1 != k) ++ [(k, .table .written es')])
  | _ => none

/-- A header in double brackets adds one more table under its name. -/
def addTable (k : List Char) : Change := fun made es =>
  match es.lookup k with
  | none => some (made, Entries.put k (.tables [[]]) es)
  | some (.tables els) => some (made, Entries.put k (.tables (els ++ [[]])) es)
  | _ => none

/-- A new key gets a value. After dots the table must be one that dots made. -/
def setValue (afterDots : Bool) (k : List Char) (v : Value) : Change := fun made es =>
  if afterDots ∧ made ≠ .dotted then none
  else
    match es.lookup k with
    | none => some (made, Entries.put k (.value v) es)
    | some _ => none

/-- A key, whose parts are parted by dots, gets a value. -/
def assign (key : List (List Char)) (v : Value) : Change :=
  changeAt true (setValue (1 < key.length) (key.getLastD []) v) key.dropLast

/-- The entries of a table that is written in one line. -/
def inlineTable? (pairs : List (List (List Char) × Value)) : Option (List (List Char × Value)) :=
  let add (es : Items) (pair : List (List Char) × Value) : Option Items :=
    (assign pair.1 pair.2 .written es).map (·.2)
  (pairs.foldlM add []).map Items.toEntries

end Toml
end SiblingSwap
