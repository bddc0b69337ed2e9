import SiblingSwap.Span
import SiblingSwap.Text.Line

/-! A text with a cursor. Edits that name no valid place of the text do nothing. An edit never carries the cursor along:
    it stays at its offset, or moves back to the end when the text gets shorter than that. The starts of the lines are
    kept beside the text, and each edit makes the table anew. Lines are counted from 0 and asked for relative to the
    line that holds a place. -/

namespace SiblingSwap

/-- A text, the byte offset of the cursor in it, and the table of where its lines start. -/
structure Buffer where
  text : List Char
  cursor : Nat
  starts : Array Nat
deriving DecidableEq, Repr

/-- An offset past the end of a text. -/
structure OutOfRange where
  offset : Nat
  size : Nat
deriving DecidableEq, Repr

/-- The message for an offset past the end. -/
def OutOfRange.message (e : OutOfRange) : String :=
  s!"offset {e.offset} is outside the document ({e.size} bytes)"

namespace Buffer

/-- The number of bytes of the text. -/
def size (b : Buffer) : Nat := Text.size b.text

/-- A text and a cursor, with the table of the text. -/
def ofText (text : List Char) (cursor : Nat) : Buffer := ⟨text, cursor, Text.lineTable text⟩

@[simp]
theorem text_ofText (text : List Char) (cursor : Nat) : (ofText text cursor).text = text := rfl

@[simp]
theorem cursor_ofText (text : List Char) (cursor : Nat) : (ofText text cursor).cursor = cursor := rfl

/-- A text with its cursor at an offset, or at the end when the offset lies past it. -/
def withCursor (text : List Char) (cursor : Nat) : Buffer := ofText text (min cursor (Text.size text))

/-- A text with its cursor at an offset that must not lie past the end. -/
def openAt (text : List Char) (cursor : Nat) : Except OutOfRange Buffer :=
  if Text.size text < cursor then .error ⟨cursor, Text.size text⟩ else .ok (withCursor text cursor)

/-- Moves the cursor. -/
def setCursor (b : Buffer) (cursor : Nat) : Buffer := { b with cursor := min cursor b.size }

/-- The text in a span, or nothing when the span is not valid. -/
def slice (b : Buffer) (s : Span) : List Char :=
  match Text.cut? s b.text with
  | some (_, inside, _) => inside
  | none => []

/-- Puts a text in at an offset. -/
def insert (b : Buffer) (pos : Nat) (new : List Char) : Buffer :=
  match Text.splitAt? pos b.text with
  | some (before, after) => ofText (before ++ new ++ after) b.cursor
  | none => b

/-- Takes the text in a span out. -/
def erase (b : Buffer) (s : Span) : Buffer :=
  match Text.cut? s b.text with
  | some (before, _, after) => withCursor (before ++ after) b.cursor
  | none => b

/-! ### Lines -/

/-- The number of lines. -/
def lineCount (b : Buffer) : Nat := b.starts.size

/-- The line that holds a place: the last that starts at or before it. A place past the end is in the last line. -/
def lineOf (b : Buffer) (pos : Nat) : Nat := Text.partitionPoint b.starts (min pos b.size) 0 b.starts.size - 1

/-- The line `offset` lines after the one that holds a place, or the first or last line where there is none. -/
def lineAt (b : Buffer) (pos : Nat) (offset : Int) : Nat :=
  min (Text.saturate (b.lineOf pos + offset)).toNat (b.lineCount - 1)

/-- The start of the line `offset` lines after the one that holds a place. -/
def lineStart (b : Buffer) (pos : Nat) (offset : Int) : Nat := b.starts[b.lineAt pos offset]?.getD 0

/-- The end, before its line break, of the line `offset` lines after the one that holds a place. -/
def lineStop (b : Buffer) (pos : Nat) (offset : Int) : Nat :=
  match b.starts[b.lineAt pos offset + 1]? with
  | some next => next - 1
  | none => b.size

end Buffer
end SiblingSwap
