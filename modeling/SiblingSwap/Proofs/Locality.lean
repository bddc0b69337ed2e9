import SiblingSwap.Proofs.Exchange
import SiblingSwap.Proofs.Lexeme
import SiblingSwap.Proofs.Window

/-! How far a swap looks. What it exchanges is settled by the lines that are read, but for one thing: a quote that stays
    open in them. If it is closed further on, it reaches out of the lines and nothing behind it is read; if it is not,
    it is passed over. -/

namespace SiblingSwap

/-- The characters of a text that belong to no lexeme. -/
def passed : List Char → List Char
  | [] => []
  | c :: cs =>
    match _h : lexeme? (c :: cs) with
    | some (_, rest) => passed rest
    | none => c :: passed cs
termination_by cs => cs.length
decreasing_by
  · rw [eq_append_of_lexeme? _h, List.length_append]
    have := List.length_pos_iff.mpr (ne_nil_of_lexeme? _h)
    omega
  · simp

/-- What follows a stretch of text is of no matter to its tokens, as long as it closes the same open quotes. -/
theorem scan_append_congr {inside after after' : List Char} (pos : Nat)
    (hafter : ∀ c ∈ after.head?, continuesLexeme c = false)
    (hafter' : ∀ c ∈ after'.head?, continuesLexeme c = false)
    (hquotes : ∀ q ∈ quotes, q ∈ passed inside → (q ∈ after ↔ q ∈ after')) :
    scan (pos + Text.size inside) pos (inside ++ after) = scan (pos + Text.size inside) pos (inside ++ after') := by
  fun_induction passed inside generalizing pos with
  | case1 => rw [scan_eq_nil (by simp), scan_eq_nil (by simp)]
  | case2 c cs text rest h ih =>
    have hsize : Text.size (c :: cs) = Text.size text + Text.size rest := by
      rw [eq_append_of_lexeme? h, Text.size_append]
    rw [scan_of_lexeme (lexeme?_append_of_some hafter h), scan_of_lexeme (lexeme?_append_of_some hafter' h), hsize,
      ← Nat.add_assoc, ih (pos + Text.size text) hquotes]
  | case3 c cs h ih =>
    have hc : c ∈ quotes → (c ∈ after ↔ c ∈ after') := fun hq => hquotes c hq (by simp)
    by_cases hopen : c ∈ quotes ∧ c ∈ after
    · -- The quote reaches past the stretch on both sides, and both scans end here.
      rw [scan_open_quote h hopen.1 hopen.2, scan_open_quote h hopen.1 ((hc hopen.1).mp hopen.2)]
    · have hnone := lexeme?_append_of_none hafter h fun hq hmem => hopen ⟨hq, hmem⟩
      have hnone' := lexeme?_append_of_none hafter' h fun hq hmem => hopen ⟨hq, (hc hq).mpr hmem⟩
      rw [List.cons_append] at hnone hnone'
      rw [List.cons_append, List.cons_append, scan_of_no_lexeme hnone, scan_of_no_lexeme hnone', Text.size_cons,
        ← Nat.add_assoc]
      exact ih _ fun q hq hmem => hquotes q hq (List.mem_cons_of_mem _ hmem)

theorem continuesLexeme_break : continuesLexeme '\n' = false := by decide

namespace Buffer

/-- The tokens of the lines that are read, from the text of these lines and what follows them. -/
theorem tokenize_window {b : Buffer} (hb : b.Fresh) {pos extendLines : Nat} {d : Direction} {w : Span}
    (h : b.window pos d extendLines = w) :
    w.stop = w.start + Text.size (b.slice w) ∧
      tokenize b.text w = scan w.stop w.start (b.slice w ++ b.slice ⟨w.stop, b.size⟩) ∧
      ∀ c ∈ (b.slice ⟨w.stop, b.size⟩).head?, continuesLexeme c = false := by
  obtain ⟨before, inside, after, htext, hw, hafter⟩ := hb.window_eq pos d extendLines
  rw [h] at hw
  subst hw
  have hinside : b.slice ⟨Text.size before, Text.size before + Text.size inside⟩ = inside := by
    rw [← Text.size_append]
    exact slice_eq before inside after (by simp [htext])
  have hrest : b.slice ⟨Text.size before + Text.size inside, b.size⟩ = after := by
    have hsize : b.size = Text.size (before ++ inside ++ after) := by simp [size, htext]
    rw [hsize, ← Text.size_append]
    exact slice_eq (before ++ inside) after [] (by simp [htext])
  rw [hinside, hrest]
  refine ⟨rfl, by rw [htext, tokenize_eq_scan], fun c hc => ?_⟩
  rw [hafter c hc]
  exact continuesLexeme_break

/-- Two texts with the same lines to read lead to the same swap, or to the same reason for none, whatever stands before
    and after these lines and wherever the cursors are. Only quotes that stay open in the lines must be closed further
    on in both texts or in neither. -/
theorem resolve_eq_of_same_lines (text text' : List Char) (cursor cursor' pos : Nat) (d : Direction)
    (extendLines : Nat) (w : Span) :
    let a := ofText text cursor
    let b := ofText text' cursor'
    a.window pos d extendLines = w → b.window pos d extendLines = w → a.slice w = b.slice w →
    (∀ q ∈ quotes, q ∈ passed (a.slice w) → (q ∈ a.slice ⟨w.stop, a.size⟩ ↔ q ∈ b.slice ⟨w.stop, b.size⟩)) →
    a.resolve pos d extendLines = b.resolve pos d extendLines := by
  intro a b ha hb hlines hquotes
  obtain ⟨hstop, htokens, hafter⟩ := tokenize_window (fresh_ofText text cursor) ha
  obtain ⟨-, htokens', hafter'⟩ := tokenize_window (fresh_ofText text' cursor') hb
  have hsame : tokenize a.text w = tokenize b.text w := by
    rw [htokens, htokens', ← hlines, hstop]
    exact scan_append_congr w.start (hstop ▸ hafter) (hstop ▸ hafter') (hstop ▸ hquotes)
  rw [resolve, resolve, tree, tree, ha, hb, hsame]

/-- Two texts that share the line `f(a, b) 'x`. The quote in it is closed in both, and the same swap is found. -/
theorem resolve_eq_of_same_lines_of_open_quote :
    let a := ofText "(\nf(a, b) 'x\n'y".toList 4
    let b := ofText "q\nf(a, b) 'x\n[z] + 'z'".toList 0
    (a.window 4 .forward 0 = ⟨2, 12⟩ ∧ b.window 4 .forward 0 = ⟨2, 12⟩ ∧ a.slice ⟨2, 12⟩ = b.slice ⟨2, 12⟩ ∧
      '\'' ∈ passed (a.slice ⟨2, 12⟩)) ∧
      a.resolve 4 .forward 0 = b.resolve 4 .forward 0 := by
  intro a b
  have ha : a.window 4 .forward 0 = ⟨2, 12⟩ := by decide +kernel
  have hb : b.window 4 .forward 0 = ⟨2, 12⟩ := by decide +kernel
  have hlines : a.slice ⟨2, 12⟩ = b.slice ⟨2, 12⟩ := by decide
  have hquotes : ∀ q ∈ quotes, q ∈ passed (a.slice ⟨2, 12⟩) →
      (q ∈ a.slice ⟨12, a.size⟩ ↔ q ∈ b.slice ⟨12, b.size⟩) := by
    intro q hq hopen
    rcases mem_quotes_iff.mp hq with rfl | rfl
    · exact absurd hopen (by decide +kernel)
    · exact iff_of_true (by decide) (by decide)
  exact ⟨⟨ha, hb, hlines, by decide +kernel⟩, resolve_eq_of_same_lines _ _ 4 0 4 .forward 0 _ ha hb hlines hquotes⟩

/-- After the line `a, "b` a closing quote further on makes `"b` unreadable, and `a` loses its neighbour. -/
theorem exists_resolve_ne_of_same_lines :
    ¬∀ (text text' : List Char) (cursor cursor' pos : Nat) (d : Direction) (extendLines : Nat) (w : Span),
      let a := ofText text cursor
      let b := ofText text' cursor'
      a.window pos d extendLines = w → b.window pos d extendLines = w → a.slice w = b.slice w →
      a.resolve pos d extendLines = b.resolve pos d extendLines := by
  intro h
  have hsame := h "a, \"b\nx".toList "a, \"b\nx\"".toList 0 0 0 .forward 0 ⟨0, 5⟩ (by decide +kernel)
    (by decide +kernel) (by decide)
  exact absurd hsame (by decide +kernel)

end Buffer
end SiblingSwap
