import SiblingSwap.Proofs.Balance
import SiblingSwap.Proofs.Lines

/-! How far a swap reaches. The lines that are read are the one that holds the place and as many more in the direction
    of the swap as are asked for and as there are. Tokens are taken from these lines only, so a pair lies in them, and a
    swap leaves all that is before and after them as it is. -/

namespace SiblingSwap

/-! ### Tokens of a part -/

theorem stop_le_of_mem_scan {stop pos : Nat} {cs : List Char} : ∀ t ∈ scan stop pos cs, t.span.stop ≤ stop := by
  fun_induction scan stop pos cs with
  | case1 pos cs hnone => simp
  | case2 pos cs t rest hnext hle ih => exact List.forall_mem_cons.mpr ⟨hle, ih⟩
  | case3 => simp

/-- The tokens of a part of a text lie in that part. -/
theorem covers_of_mem_tokenize {text : List Char} {range : Span} {t : Token} (ht : t ∈ tokenize text range) :
    range.covers t.span = true := by
  unfold tokenize at ht
  cases hseek : Text.seek range.start 0 text with
  | mk pos rest =>
    simp only [hseek] at ht
    have hstart := ((scan_spec range.stop pos rest).2 t ht).le_start
    rcases Text.le_seek hseek with rfl | hle
    · rw [scan_nil] at ht
      cases ht
    · exact Span.covers_iff.mpr ⟨Nat.le_trans hle hstart, stop_le_of_mem_scan t ht⟩

/-! ### Lines that are read -/

namespace Text

theorem bytes_append (cs ds : List Char) : bytes (cs ++ ds) = bytes cs ++ bytes ds := List.flatMap_append

theorem take_bytes_append {n : Nat} {cs : List Char} (h : n ≤ size cs) (ds : List Char) :
    (bytes (cs ++ ds)).take n = (bytes cs).take n := by
  rw [bytes_append, List.take_append_of_le_length (by rwa [length_bytes])]

theorem drop_bytes_append {n : Nat} {cs : List Char} (h : size cs ≤ n) (ds : List Char) :
    (bytes (cs ++ ds)).drop n = (bytes ds).drop (n - size cs) := by
  rw [bytes_append, List.drop_append, List.drop_eq_nil_of_le (by rwa [length_bytes]), List.nil_append, length_bytes]

/-- The byte range of a line, without its line break. -/
def lineSpan (cs : List Char) (k : Nat) : Span :=
  ⟨size (beforeLine cs k), size (beforeLine cs k) + size ((lines cs)[k]?.getD [])⟩

end Text

namespace Buffer
variable {b : Buffer} {p : Pair} {d : Direction}

namespace Fresh
variable (hb : b.Fresh)
include hb

theorem lineSpan_lineAt (pos : Nat) (offset : Int) :
    b.lineStart pos offset = (Text.lineSpan b.text (b.lineAt pos offset)).start ∧
      b.lineStop pos offset = (Text.lineSpan b.text (b.lineAt pos offset)).stop := by
  obtain ⟨line, hline⟩ := hb.exists_line pos offset
  rw [Text.lineSpan, hline]
  exact hb.lineStart_lineStop hline

section
variable (hsize : b.size < 2 ^ 63)
include hsize

theorem lineAt_add (pos k : Nat) :
    b.lineAt pos (min (k : Int) Text.maxLineOffset) = min (b.lineOf pos + k) (b.lineCount - 1) := by
  have hline := hb.lineOf_lt pos
  have hcount := hb.lineCount_le
  unfold lineAt Text.saturate Text.maxLineOffset
  omega

theorem lineAt_sub (pos k : Nat) : b.lineAt pos (-min (k : Int) Text.maxLineOffset) = b.lineOf pos - k := by
  have hline := hb.lineOf_lt pos
  have hcount := hb.lineCount_le
  unfold lineAt Text.saturate Text.maxLineOffset
  omega

theorem lineAt_zero (pos : Nat) : b.lineAt pos 0 = b.lineOf pos := hb.lineAt_sub hsize pos 0

/-- The lines of a window are counted without bounds: a line number never grows past the words of 64 bits. -/
theorem window_eq_lines (pos k : Nat) :
    let l := b.lineOf pos
    b.window pos d k = match d with
      | .forward => ⟨(Text.lineSpan b.text l).start, (Text.lineSpan b.text (min (l + k) (b.lineCount - 1))).stop⟩
      | .backward => ⟨(Text.lineSpan b.text (l - k)).start, (Text.lineSpan b.text l).stop⟩ := by
  intro l
  cases d with
  | forward =>
    simp only [window, (hb.lineSpan_lineAt pos _).1, (hb.lineSpan_lineAt pos _).2, hb.lineAt_zero hsize,
      hb.lineAt_add hsize, l]
  | backward =>
    simp only [window, (hb.lineSpan_lineAt pos _).1, (hb.lineSpan_lineAt pos _).2, hb.lineAt_zero hsize,
      hb.lineAt_sub hsize, l]

end
end Fresh

theorem window_covers_of_resolve {pos extendLines : Nat} (h : b.resolve pos d extendLines = .ok p) :
    (b.window pos d extendLines).covers p.first = true ∧ (b.window pos d extendLines).covers p.second = true := by
  obtain ⟨ho, hfound⟩ := tokenize_spec b.text (b.window pos d extendLines)
  have hclassified := fun t ht => (hfound t ht).classified
  rw [resolve, tree, Node.ofTokens_eq hclassified] at h
  obtain ⟨⟨s₁, hs₁, t₁, ht₁, h₁⟩, s₂, hs₂, t₂, ht₂, h₂⟩ :=
    Node.pairAt_edges hclassified ho (fun t ht => (hfound t ht).nonempty) h
  have hedges : ∀ s ∈ tokenize b.text (b.window pos d extendLines),
      ∀ t ∈ tokenize b.text (b.window pos d extendLines),
        (b.window pos d extendLines).covers ⟨s.span.start, t.span.stop⟩ = true := fun s hs t ht =>
    Span.covers_iff.mpr ⟨(Span.covers_iff.mp (covers_of_mem_tokenize hs)).1,
      (Span.covers_iff.mp (covers_of_mem_tokenize ht)).2⟩
  rw [h₁, h₂]
  exact ⟨hedges s₁ hs₁ t₁ ht₁, hedges s₂ hs₂ t₂ ht₂⟩

/-- A swap leaves the bytes before and after the lines it reads where they are. -/
theorem swap_outside_window (b : Buffer) (s : Settings) (d : Direction) :
    let w := b.window b.cursor d s.extendLines
    (Text.bytes (b.swap s d).1.text).take w.start = (Text.bytes b.text).take w.start ∧
      (Text.bytes (b.swap s d).1.text).drop w.stop = (Text.bytes b.text).drop w.stop := by
  intro w
  cases hresolve : b.resolve b.cursor d s.extendLines with
  | error why =>
    have hswap : b.swap s d = (b, .skipped why) := by rw [swap, hresolve]
    rw [hswap]
    exact ⟨rfl, rfl⟩
  | ok p =>
    obtain ⟨a, x, m, y, z, htext, hfirst, hsecond⟩ := (resolve_fits hresolve).parts
    obtain ⟨hcovers, hcovers'⟩ := window_covers_of_resolve hresolve
    rw [hfirst, Span.covers_iff] at hcovers
    rw [hsecond, Span.covers_iff] at hcovers'
    have hstart : w.start ≤ Text.size a := hcovers.1
    have hstop : Text.size (a ++ x ++ m ++ y) ≤ w.stop := hcovers'.2
    have hsize : Text.size (a ++ y ++ m ++ x) = Text.size (a ++ x ++ m ++ y) := by
      simp only [Text.size_append]
      omega
    rw [(swap_text htext hfirst hsecond hresolve).1, htext]
    constructor
    · simp only [List.append_assoc, Text.take_bytes_append hstart]
    · rw [Text.drop_bytes_append hstop, Text.drop_bytes_append (hsize ▸ hstop), hsize]

/-- A swap reads the line that holds the place, whose number is that of the line breaks before the place, and
    `extendLines` more, up to the last line going forward and down to the first going backward; the sum and the
    difference are those of unbounded numbers, as a text in memory has less than `2 ^ 63` bytes. Both spans of a pair
    lie in these lines, and every byte before or after them is left where it is. -/
theorem swap_within_window (text : List Char) (cursor : Nat) (hsize : Text.size text < 2 ^ 63) (s : Settings)
    (d : Direction) :
    let b := ofText text cursor
    (∀ pos,
      let l := ((Text.bytes b.text).take (min pos b.size)).count 10
      let last := (b.text.splitOn '\n').length - 1
      let w := b.window pos d s.extendLines
      l ≤ last ∧
      (w = match d with
        | .forward => ⟨(Text.lineSpan b.text l).start, (Text.lineSpan b.text (min (l + s.extendLines) last)).stop⟩
        | .backward => ⟨(Text.lineSpan b.text (l - s.extendLines)).start, (Text.lineSpan b.text l).stop⟩) ∧
      ∀ p, b.resolve pos d s.extendLines = .ok p → w.covers p.first = true ∧ w.covers p.second = true) ∧
    let w := b.window b.cursor d s.extendLines
    let b' := (b.swap s d).1
    (Text.bytes b'.text).take w.start = (Text.bytes b.text).take w.start ∧
      (Text.bytes b'.text).drop w.stop = (Text.bytes b.text).drop w.stop := by
  intro b
  refine ⟨?_, swap_outside_window b s d⟩
  intro pos l last w
  have hb : b.Fresh := fresh_ofText text cursor
  have hl : l = b.lineOf pos := (hb.lineOf_eq_count pos).symm
  have hcount : last = b.lineCount - 1 := by rw [hb.lineCount_eq_length_lines]; rfl
  refine ⟨hl ▸ hcount ▸ Nat.le_sub_one_of_lt (hb.lineOf_lt pos), ?_, fun p => window_covers_of_resolve⟩
  rw [hl, hcount]
  exact hb.window_eq_lines hsize pos s.extendLines

/-- With the greatest setting all lines from that of the cursor on are read, and the line before it, which ends with a
    character of two bytes, is not touched. -/
theorem swap_within_window_of_call :
    let b := ofText "é\nf(a,\n  b)\nz".toList 5
    let s : Settings := ⟨18446744073709551615, true⟩
    b.window 5 .forward s.extendLines = ⟨3, 14⟩ ∧ (b.swap s .forward).2 = .swapped ⟨⟨5, 6⟩, ⟨10, 11⟩⟩ 11 ∧
      (Text.bytes (b.swap s .forward).1.text).take 3 = [195, 169, 10] := by
  intro b s
  obtain ⟨hlines, hbefore, -⟩ := swap_within_window b.text 5 (by decide +kernel) s .forward
  have hwindow : b.window 5 .forward s.extendLines = ⟨3, 14⟩ := (hlines 5).2.1.trans (by decide +kernel)
  refine ⟨hwindow, by decide +kernel, ?_⟩
  rw [show (ofText b.text 5).window (ofText b.text 5).cursor .forward s.extendLines = ⟨3, 14⟩ from hwindow] at hbefore
  exact hbefore.trans (by decide +kernel)

end Buffer
end SiblingSwap
