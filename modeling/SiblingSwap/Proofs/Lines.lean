import Mathlib.Algebra.Group.Nat.Defs
import SiblingSwap.Proofs.Window
import SiblingSwap.Swap.Run

/-! Lines through a session. Whatever edits, moves of the cursor and swaps a buffer has been through, its cursor lies in
    its text, and places and line offsets find the lines of the text as it is. A line break is one byte, and no other
    character has that byte in its UTF-8 form, so lines can be counted in bytes. -/

namespace SiblingSwap
namespace Text

/-! ### Bytes -/

/-- The UTF-8 form. -/
def bytes (cs : List Char) : List UInt8 := cs.flatMap String.utf8EncodeChar

theorem bytes_cons (c : Char) (cs : List Char) : bytes (c :: cs) = String.utf8EncodeChar c ++ bytes cs := rfl

theorem length_bytes (cs : List Char) : (bytes cs).length = size cs := by
  induction cs with
  | nil => rfl
  | cons c cs ih => rw [bytes_cons, List.length_append, ih, String.length_utf8EncodeChar, size_cons]

/-- The byte of a line break. -/
def lineBreak : UInt8 := 10

theorem lineBreak_notMem {c : Char} (h : c ≠ '\n') : lineBreak ∉ String.utf8EncodeChar c := by
  intro hmem
  have hne : c.val.toNat ≠ 10 := fun heq => h (Char.ext (UInt32.toNat_inj.mp heq))
  -- A character of one byte is that byte; all bytes of other characters are greater.
  have hbyte : lineBreak.toNat = c.val.toNat ∨ 128 ≤ lineBreak.toNat := by
    unfold String.utf8EncodeChar at hmem
    simp only at hmem
    split at hmem
    · rw [List.mem_singleton.mp hmem, UInt8.toNat_ofNat', Nat.mod_eq_of_lt (by omega)]
      exact Or.inl rfl
    · right
      split at hmem
      · simp only [List.mem_cons, List.not_mem_nil, or_false] at hmem
        rcases hmem with h | h <;> rw [h, UInt8.toNat_ofNat', Nat.mod_eq_of_lt (by omega)] <;> omega
      split at hmem
      · simp only [List.mem_cons, List.not_mem_nil, or_false] at hmem
        rcases hmem with h | h | h <;> rw [h, UInt8.toNat_ofNat', Nat.mod_eq_of_lt (by omega)] <;> omega
      · simp only [List.mem_cons, List.not_mem_nil, or_false] at hmem
        rcases hmem with h | h | h | h <;> rw [h, UInt8.toNat_ofNat', Nat.mod_eq_of_lt (by omega)] <;> omega
  rcases hbyte with hbyte | hbyte
  · exact hne hbyte.symm
  · exact absurd hbyte (by decide)

/-! ### Counting line breaks -/

/-- Up to any offset as many lines have started as there are line breaks before it. -/
theorem countP_startsAfterBreaks (limit pos : Nat) (cs : List Char) :
    (startsAfterBreaks pos cs).countP (· ≤ limit) = ((bytes cs).take (limit - pos)).count lineBreak := by
  induction cs generalizing pos with
  | nil => simp [startsAfterBreaks, bytes]
  | cons c cs ih =>
    rw [bytes_cons, List.take_append, List.count_append, String.length_utf8EncodeChar, Nat.sub_sub]
    by_cases hc : c = '\n'
    · subst hc
      have hsize : ('\n' : Char).utf8Size = 1 := rfl
      have hbytes : String.utf8EncodeChar '\n' = [lineBreak] := by decide
      simp only [startsAfterBreaks, ↓reduceIte, hsize, hbytes, List.countP_cons, ih, decide_eq_true_eq]
      by_cases h : pos + 1 ≤ limit
      · have hone : [lineBreak].take (limit - pos) = [lineBreak] := List.take_of_length_le (by simp; omega)
        rw [if_pos h, hone, List.count_singleton_self, Nat.add_comm]
      · rw [if_neg h, show limit - pos = 0 by omega, List.take_zero, List.count_nil, Nat.add_comm]
    · have hnone : ((String.utf8EncodeChar c).take (limit - pos)).count lineBreak = 0 :=
        List.count_eq_zero.mpr fun h => lineBreak_notMem hc (List.mem_of_mem_take h)
      simp only [startsAfterBreaks, hc, ↓reduceIte, ih, hnone, Nat.zero_add]

/-! ### The lines of a text -/

/-- The lines, without their line breaks. -/
def lines (cs : List Char) : List (List Char) := cs.splitOn '\n'

/-- All that comes before a line: the earlier lines, each with its line break. -/
def beforeLine (cs : List Char) (k : Nat) : List Char := ((lines cs).take k).flatMap (· ++ ['\n'])

theorem lines_cons_break (cs : List Char) : lines ('\n' :: cs) = [] :: lines cs := by
  simp [lines, List.splitOn_cons_eq_if_modifyHead]

theorem exists_lines_cons {c : Char} (h : c ≠ '\n') (cs : List Char) :
    ∃ line rest, lines cs = line :: rest ∧ lines (c :: cs) = (c :: line) :: rest := by
  obtain ⟨line, rest, hlines⟩ := List.exists_cons_of_ne_nil (List.splitOn_ne_nil '\n' cs)
  exact ⟨line, rest, hlines, by simp [lines, List.splitOn_cons_eq_if_modifyHead, h, hlines]⟩

/-- A line starts after all that comes before it. -/
theorem starts_eq (pos : Nat) (cs : List Char) :
    pos :: startsAfterBreaks pos cs = (List.range (lines cs).length).map fun k => pos + size (beforeLine cs k) := by
  induction cs generalizing pos with
  | nil => simp [startsAfterBreaks, lines, beforeLine]
  | cons c cs ih =>
    by_cases hc : c = '\n'
    · subst hc
      have hsize : ('\n' : Char).utf8Size = 1 := rfl
      simp only [startsAfterBreaks, ↓reduceIte, ih, lines_cons_break, List.length_cons, List.range_succ_eq_map,
        List.map_cons, List.map_map]
      simp [beforeLine, lines_cons_break, hsize, Nat.add_assoc]
    · obtain ⟨line, rest, hlines, hcons⟩ := exists_lines_cons hc cs
      have htail := congrArg List.tail (ih (pos + c.utf8Size))
      simp only [hlines, List.length_cons, List.range_succ_eq_map, List.map_cons, List.map_map, List.tail_cons] at htail
      simp only [startsAfterBreaks, hc, ↓reduceIte, htail, hcons, List.length_cons, List.range_succ_eq_map,
        List.map_cons, List.map_map]
      simp [beforeLine, hlines, hcons, Nat.add_assoc]

theorem lineStarts_eq (cs : List Char) :
    lineStarts cs = (List.range (lines cs).length).map fun k => size (beforeLine cs k) := by
  rw [lineStarts, starts_eq]
  simp

theorem intercalate_around (before : List (List Char)) (line : List Char) (after : List (List Char)) :
    ['\n'].intercalate (before ++ line :: after) =
      before.flatMap (· ++ ['\n']) ++ line ++ after.flatMap ('\n' :: ·) := by
  induction before with
  | nil =>
    induction after generalizing line with
    | nil => simp
    | cons next after ih =>
      have htail := ih next
      simp only [List.nil_append, List.flatMap_nil] at htail
      simp [List.intercalate_cons_cons, htail]
  | cons first before ih =>
    have hne : before ++ line :: after ≠ [] := by simp
    obtain ⟨next, rest, hrest⟩ := List.exists_cons_of_ne_nil hne
    rw [List.cons_append, hrest, List.intercalate_cons_cons, ← hrest, ih]
    simp

/-- The text around a line: before it the earlier lines, each with its line break, and after it the later ones, each
    with the line break before it. -/
theorem eq_around_line {cs line : List Char} {k : Nat} (h : (lines cs)[k]? = some line) :
    cs = beforeLine cs k ++ line ++ ((lines cs).drop (k + 1)).flatMap ('\n' :: ·) := by
  have hlines : lines cs = (lines cs).take k ++ line :: (lines cs).drop (k + 1) := by
    obtain ⟨hk, rfl⟩ := List.getElem?_eq_some_iff.mp h
    simp
  calc cs = ['\n'].intercalate (lines cs) := (List.intercalate_splitOn '\n').symm
    _ = ['\n'].intercalate ((lines cs).take k ++ line :: (lines cs).drop (k + 1)) := congrArg _ hlines
    _ = _ := intercalate_around _ _ _

theorem beforeLine_succ {cs line : List Char} {k : Nat} (h : (lines cs)[k]? = some line) :
    beforeLine cs (k + 1) = beforeLine cs k ++ line ++ ['\n'] := by
  simp [beforeLine, List.take_add_one, h]

theorem length_startsAfterBreaks_le (pos : Nat) (cs : List Char) : (startsAfterBreaks pos cs).length ≤ size cs := by
  induction cs generalizing pos with
  | nil => exact Nat.le_refl _
  | cons c cs ih =>
    have hle := ih (pos + c.utf8Size)
    have hpos := c.utf8Size_pos
    rw [startsAfterBreaks, size_cons]
    split
    · rw [List.length_cons]
      omega
    · omega

end Text

namespace Buffer
variable {b c : Buffer}

/-! ### Lines by the table -/

namespace Fresh
variable (hb : b.Fresh)
include hb

theorem lineOf_eq_count (pos : Nat) :
    b.lineOf pos = ((Text.bytes b.text).take (min pos b.size)).count Text.lineBreak := by
  rw [hb.lineOf_eq, Text.lineStarts, List.countP_cons, Text.countP_startsAfterBreaks]
  simp

theorem lineOf_lt (pos : Nat) : b.lineOf pos < b.lineCount := by
  have hle := List.countP_le_length (p := fun start => decide (start ≤ min pos b.size)) (l := Text.lineStarts b.text)
  have hpos : 0 < (Text.lineStarts b.text).length := by simp [Text.lineStarts]
  rw [hb.lineOf_eq, hb.lineCount_eq]
  omega

theorem lineCount_eq_length_lines : b.lineCount = (Text.lines b.text).length := by
  rw [hb.lineCount_eq, Text.lineStarts_eq, List.length_map, List.length_range]

theorem lineCount_le : b.lineCount ≤ b.size + 1 := by
  rw [hb.lineCount_eq]
  exact Nat.succ_le_succ (Text.length_startsAfterBreaks_le 0 b.text)

theorem exists_line (pos : Nat) (offset : Int) : ∃ line, (Text.lines b.text)[b.lineAt pos offset]? = some line := by
  have hlt : b.lineAt pos offset < (Text.lines b.text).length := by
    rw [← hb.lineCount_eq_length_lines, hb.lineCount_eq]
    exact hb.lineAt_lt pos offset
  exact ⟨_, List.getElem?_eq_getElem hlt⟩

/-- The range of the line that is asked for relative to a place. -/
theorem lineStart_lineStop {line : List Char} {pos : Nat} {offset : Int}
    (h : (Text.lines b.text)[b.lineAt pos offset]? = some line) :
    b.lineStart pos offset = Text.size (Text.beforeLine b.text (b.lineAt pos offset)) ∧
      b.lineStop pos offset = Text.size (Text.beforeLine b.text (b.lineAt pos offset)) + Text.size line := by
  have hlt := (List.getElem?_eq_some_iff.mp h).1
  have hstart : ∀ k < (Text.lines b.text).length, b.starts[k]? = some (Text.size (Text.beforeLine b.text k)) := by
    intro k hk
    rw [hb.getElem?_starts, Text.lineStarts_eq, List.getElem?_map, List.getElem?_range hk]
    rfl
  refine ⟨by rw [lineStart, hstart _ hlt]; rfl, ?_⟩
  unfold lineStop
  by_cases hnext : b.lineAt pos offset + 1 < (Text.lines b.text).length
  · rw [hstart _ hnext, Text.beforeLine_succ h]
    simp [show ('\n' : Char).utf8Size = 1 from rfl]
  · have hnone : b.starts[b.lineAt pos offset + 1]? = none := by
      rw [hb.getElem?_starts, List.getElem?_eq_none_iff, Text.lineStarts_eq, List.length_map, List.length_range]
      omega
    have htext := Text.eq_around_line h
    rw [List.drop_eq_nil_of_le (by omega), List.flatMap_nil, List.append_nil] at htext
    rw [hnone, ← Text.size_append, ← htext, size]

/-- No sum of a line number and an offset leaves the words where it matters: a text in memory has less than `2 ^ 63`
    bytes, and no more lines than that. -/
theorem lineAt_eq (h : b.size < 2 ^ 63) (pos : Nat) (offset : Int64) :
    (b.lineAt pos offset.toInt : Int) = max 0 (min (b.lineOf pos + offset.toInt) (b.lineCount - 1)) := by
  have hlow := offset.le_toInt
  have hhigh := offset.toInt_lt
  have hline := hb.lineOf_lt pos
  have hcount := hb.lineCount_le
  unfold lineAt Text.saturate Text.maxLineOffset
  omega

end Fresh

/-! ### Sessions -/

/-- The buffers that come of opening a text, editing it, moving the cursor and swapping, with any arguments. -/
inductive Reached : Buffer → Prop
  | withCursor (text : List Char) (cursor : Nat) : Reached (withCursor text cursor)
  | openAt {text : List Char} {cursor : Nat} {b : Buffer} (opened : openAt text cursor = .ok b) : Reached b
  | insert {b : Buffer} (pos : Nat) (new : List Char) (before : Reached b) : Reached (b.insert pos new)
  | erase {b : Buffer} (s : Span) (before : Reached b) : Reached (b.erase s)
  | setCursor {b : Buffer} (cursor : Nat) (before : Reached b) : Reached (b.setCursor cursor)
  | swap {b : Buffer} (s : Settings) (d : Direction) (before : Reached b) : Reached (b.swap s d).1

/-- What a session keeps: the cursor lies in the text, and the table is that of the text. -/
structure Kept (b : Buffer) : Prop where
  cursor_le : b.cursor ≤ b.size
  fresh : b.Fresh

theorem kept_withCursor (text : List Char) (cursor : Nat) : (withCursor text cursor).Kept :=
  ⟨Nat.min_le_right _ _, fresh_ofText _ _⟩

namespace Kept

theorem openAt {text : List Char} {cursor : Nat} (h : openAt text cursor = .ok b) : b.Kept := by
  unfold Buffer.openAt at h
  split at h
  · cases h
  · exact Except.ok.inj h ▸ kept_withCursor text cursor

theorem insert (h : b.Kept) (pos : Nat) (new : List Char) : (b.insert pos new).Kept := by
  unfold Buffer.insert
  split
  · next before after hsplit =>
    refine ⟨?_, fresh_ofText _ _⟩
    have hle := h.cursor_le
    have hsize : b.size = Text.size before + Text.size after := by
      rw [size, (Text.splitAt?_eq_some hsplit).1, Text.size_append]
    simp only [size, cursor_ofText, text_ofText, Text.size_append] at hle hsize ⊢
    omega
  · exact h

theorem erase (h : b.Kept) (s : Span) : (b.erase s).Kept := by
  unfold Buffer.erase
  split
  · exact kept_withCursor _ _
  · exact h

theorem setCursor (h : b.Kept) (cursor : Nat) : (b.setCursor cursor).Kept := ⟨Nat.min_le_right _ _, h.fresh⟩

theorem exchange {p : Pair} (h : b.Kept) (hc : b.exchange p = .ok c) : c.Kept := by
  unfold Buffer.exchange at hc
  split at hc
  · cases hc
  · obtain rfl := Except.ok.inj hc
    exact (((h.erase _).insert _ _).erase _).insert _ _

theorem swap (h : b.Kept) (s : Settings) (d : Direction) : (b.swap s d).1.Kept := by
  unfold Buffer.swap
  split
  · exact h
  · split
    · exact h
    · next c hc =>
      simp only
      split
      · exact (h.exchange hc).setCursor _
      · exact h.exchange hc

end Kept

theorem Reached.kept (h : b.Reached) : b.Kept := by
  induction h with
  | withCursor text cursor => exact kept_withCursor text cursor
  | openAt opened => exact .openAt opened
  | insert pos new _ ih => exact ih.insert pos new
  | erase s _ ih => exact ih.erase s
  | setCursor cursor _ ih => exact ih.setCursor cursor
  | swap s d _ ih => exact ih.swap s d

theorem insert_of_not_boundary {pos : Nat} (h : ¬Text.isBoundary pos b.text) (new : List Char) :
    b.insert pos new = b := by
  have hnone : Text.splitAt? pos b.text = none := by simpa [Text.isBoundary] using h
  rw [insert, hnone]

theorem erase_of_invalid {s : Span}
    (h : ¬(s.start ≤ s.stop ∧ Text.isBoundary s.start b.text ∧ Text.isBoundary s.stop b.text)) : b.erase s = b := by
  have hnone : Text.cut? s b.text = none := by
    cases hcut : Text.cut? s b.text with
    | none => rfl
    | some parts =>
      obtain ⟨before, inside, after⟩ := parts
      obtain ⟨htext, hstart, hstop⟩ := Text.cut?_eq_some hcut
      refine absurd ⟨by omega, ?_, ?_⟩ h
      · exact Text.isBoundary_iff.mpr ⟨before, inside ++ after, by simp [htext], hstart⟩
      · exact Text.isBoundary_iff.mpr ⟨before ++ inside, after, htext, by simpa using hstop⟩
  rw [erase, hnone]

/-- Through any session the cursor stays in the text, the text is valid UTF-8, an edit at an invalid place does nothing,
    and the table of line starts is that of the text. The line of any place is the number of line breaks among the bytes
    before it. A line offset of 64 bits, added to that number and kept within the lines there are, gives a line of the
    text: it starts after all earlier lines and their line breaks, and it stops before its own. -/
theorem reached_lines (h : b.Reached) :
    b.cursor ≤ b.size ∧ (Text.bytes b.text).toByteArray.IsValidUTF8 ∧
    (∀ pos new, ¬Text.isBoundary pos b.text → b.insert pos new = b) ∧
    (∀ s : Span, ¬(s.start ≤ s.stop ∧ Text.isBoundary s.start b.text ∧ Text.isBoundary s.stop b.text) → b.erase s = b) ∧
    b.starts.toList = Text.lineStarts b.text ∧ b.lineCount = (b.text.splitOn '\n').length ∧
    ∀ pos, b.lineOf pos = ((Text.bytes b.text).take (min pos b.size)).count 10 ∧
      (b.size < 2 ^ 63 → ∀ offset : Int64, ∃ (k : Nat) (before line after : List Char),
        (k : Int) = max 0 (min (b.lineOf pos + offset.toInt) (b.lineCount - 1)) ∧
        (b.text.splitOn '\n')[k]? = some line ∧ b.text = before ++ line ++ after ∧
        before = ((b.text.splitOn '\n').take k).flatMap (· ++ ['\n']) ∧
        b.lineAt pos offset.toInt = k ∧ b.lineStart pos offset.toInt = Text.size before ∧
        b.lineStop pos offset.toInt = Text.size before + Text.size line) := by
  obtain ⟨hcursor, hb⟩ := h.kept
  refine ⟨hcursor, ⟨b.text, rfl⟩, fun pos new hpos => insert_of_not_boundary hpos new, fun s => erase_of_invalid,
    congrArg Array.toList hb, hb.lineCount_eq_length_lines, fun pos => ⟨hb.lineOf_eq_count pos, fun hsize offset => ?_⟩⟩
  obtain ⟨line, hline⟩ := hb.exists_line pos offset.toInt
  obtain ⟨hstart, hstop⟩ := hb.lineStart_lineStop hline
  exact ⟨_, _, _, _, hb.lineAt_eq hsize pos offset, hline, Text.eq_around_line hline, rfl, rfl, hstart, hstop⟩

/-- In `'é', b` over `c` the first line is swapped. The table has then moved on to the new text, an offset inside of `é`
    is no place to insert at, and from any place the greatest offset leads to the last line. -/
theorem reached_lines_of_swap :
    let b := ((withCursor "'é', b\nc".toList 0).swap {} .forward).1
    b.text = "b, 'é'\nc".toList ∧ b.insert 5 ['x'] = b ∧ b.starts.toList = [0, 8] ∧ b.lineOf 100 = 1 ∧
      b.lineStart 2 Int64.maxValue.toInt = 8 ∧ b.lineStop 2 Int64.maxValue.toInt = 9 := by
  intro b
  have htext : b.text = "b, 'é'\nc".toList := by decide +kernel
  obtain ⟨-, -, hinsert, -, hstarts, -, hlines⟩ := reached_lines (b := b) (.swap {} .forward (.withCursor _ 0))
  refine ⟨htext, hinsert 5 ['x'] (by decide +kernel), hstarts.trans (by decide +kernel),
    (hlines 100).1.trans (by decide +kernel), ?_⟩
  obtain ⟨k, before, line, after, hk, hline, -, rfl, -, hstart, hstop⟩ :=
    (hlines 2).2 (by decide +kernel) Int64.maxValue
  obtain rfl : k = 1 := by
    have hone : max 0 (min (b.lineOf 2 + Int64.maxValue.toInt) (b.lineCount - 1)) = 1 := by
      decide +kernel
    omega
  obtain rfl : ['c'] = line := by
    rw [htext] at hline
    exact Option.some.inj ((by decide +kernel : some ['c'] = _).trans hline)
  have hbefore : Text.size (((b.text.splitOn '\n').take 1).flatMap (· ++ ['\n'])) = 8 := by decide +kernel
  rw [hstart, hstop, hbefore]
  decide

end Buffer
end SiblingSwap
