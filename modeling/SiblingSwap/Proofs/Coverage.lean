import SiblingSwap.Proofs.Reach
import SiblingSwap.Proofs.Spelling

/-! What a scan finds. Where a scan reaches the end of the text it passes over nothing that is a lexeme by some rule:
    each place from its start on lies in one token or has no lexeme. A scan that stops earlier finds the first tokens of
    one that goes on, and a scan can be taken up again at the end of every token. -/

namespace SiblingSwap

/-! ### Nothing is passed over -/

/-- The offset lies in the span, whose end does not. -/
def Span.holds (s : Span) (pos : Nat) : Bool := s.start ≤ pos && pos < s.stop

theorem Span.holds_iff {s : Span} {pos : Nat} : s.holds pos = true ↔ s.start ≤ pos ∧ pos < s.stop := by simp [holds]

theorem exists_holds_of_lexeme? {stop pos : Nat} {cs before after : List Char} (hstop : pos + Text.size cs ≤ stop)
    (hcs : cs = before ++ after) (h : lexeme? after ≠ none) :
    ∃ t ∈ scan stop pos cs, t.span.holds (pos + Text.size before) = true := by
  fun_induction scan stop pos cs generalizing before with
  | case1 pos cs hnext => exact absurd (lexeme?_of_nextToken?_eq_none hnext before after hcs) h
  | case2 pos cs t rest hnext hle ih =>
    obtain ⟨skipped, hskipped, hspan, -, hnone⟩ := lexeme?_of_nextToken?_eq_some hnext
    have hfirst : Text.size skipped ≤ Text.size before := by
      by_contra hlt
      exact h (hnone before after hcs (by omega))
    by_cases hin : Text.size before < Text.size skipped + Text.size t.text
    · refine ⟨t, List.mem_cons_self, Span.holds_iff.mpr ?_⟩
      rw [hspan]
      exact ⟨Nat.add_le_add_left hfirst pos, by simp only; omega⟩
    · -- The place lies behind the token, in what is scanned next.
      have happ : before ++ after = (skipped ++ t.text) ++ rest := by rw [← hcs, hskipped, List.append_assoc]
      obtain ⟨more, rfl, hrest⟩ := Text.exists_append_of_size_le happ (by rw [Text.size_append]; omega)
      have hend : t.span.stop = pos + Text.size (skipped ++ t.text) := by rw [hspan, Text.size_append, Nat.add_assoc]
      have hsize : Text.size cs = Text.size (skipped ++ t.text) + Text.size rest := by
        rw [hskipped, ← List.append_assoc, Text.size_append]
      obtain ⟨u, hu, hholds⟩ := ih (by omega) hrest
      refine ⟨u, List.mem_cons_of_mem _ hu, ?_⟩
      rwa [Text.size_append, ← Nat.add_assoc, ← hend]
  | case3 pos cs t rest hnext hlt => exact absurd (Nat.le_trans (nextToken?_eq_some hnext).1.stop_le hstop) hlt

theorem exists_holds_of_lexemeAt {text w : List Char} {range : Span} {pos : Nat} (hstop : Text.size text ≤ range.stop)
    (hw : LexemeAt text pos w) (hle : range.start ≤ pos) : ∃ t ∈ tokenize text range, t.span.holds pos = true := by
  unfold tokenize
  cases hseek : Text.seek range.start 0 text with
  | mk first rest =>
    obtain ⟨gap, after, hrest, hgap, hlexeme⟩ := hw.exists_gap hle hseek
    obtain ⟨front, rfl, hfirst⟩ := Text.seek_eq hseek
    rw [← hgap]
    exact exists_holds_of_lexeme? (by rw [Text.size_append] at hstop; omega) hrest hlexeme

theorem countP_holds {ts : List Token} {t : Token} {pos : Nat} (hts : ts.Pairwise Token.Before) (ht : t ∈ ts)
    (hpos : t.span.holds pos = true) : ts.countP (·.span.holds pos) = 1 := by
  obtain ⟨before, after, rfl⟩ := List.append_of_mem ht
  obtain ⟨-, hafter, hbefore⟩ := List.pairwise_append.mp hts
  rw [Span.holds_iff] at hpos
  have hnone : before.countP (·.span.holds pos) = 0 := by
    refine List.countP_eq_zero.mpr fun s hs => ?_
    have hst : s.span.stop ≤ t.span.start := hbefore s hs t List.mem_cons_self
    rw [Span.holds_iff]
    omega
  have hnone' : after.countP (·.span.holds pos) = 0 := by
    refine List.countP_eq_zero.mpr fun u hu => ?_
    have htu : t.span.stop ≤ u.span.start := (List.pairwise_cons.mp hafter).1 u hu
    rw [Span.holds_iff]
    omega
  rw [List.countP_append, List.countP_cons, hnone, hnone', if_pos (Span.holds_iff.mpr hpos)]

/-- The signs that are lexemes wherever they stand outside of others. -/
def plainSigns : List Char := brackets ++ ['\n', ';', ',']

theorem isLexeme_single {c : Char} (h : c ∈ plainSigns ∨ isWordChar c = true) : IsLexeme [c] := by
  rcases h with h | h
  · have htable : (plainSigns.all (Shape.literal [·] ∈ shapes)) = true := by decide
    exact ⟨.literal [c], of_decide_eq_true (List.all_eq_true.mp htable c h), rfl⟩
  · exact ⟨.word, by decide, by simp, by simpa using h⟩

theorem Token.Found.cut? {text : List Char} {t : Token} (h : t.Found 0 text) :
    ∃ before after, Text.cut? t.span text = some (before, t.text, after) := by
  obtain ⟨before, after, rfl, hspan⟩ := h.place
  rw [Nat.zero_add] at hspan
  exact ⟨before, after, by rw [hspan, Text.cut?_size_append]⟩

/-- The tokens of a part of a text stand in order and apart, each a classified stretch of the text in that part. If the
    part reaches to the end of the text, no lexeme begins at a place outside of them, and every bracket, end of a
    statement, comma and character of a word is in exactly one. -/
theorem tokenize_in_order_and_complete (text : List Char) (range : Span) :
    let ts := tokenize text range
    ts.Pairwise (fun s t => s.span.stop ≤ t.span.start) ∧
    (∀ t ∈ ts, t.span.start < t.span.stop ∧ range.start ≤ t.span.start ∧
      t.span.stop ≤ min range.stop (Text.size text) ∧
      Text.isBoundary t.span.start text ∧ Text.isBoundary t.span.stop text ∧
      (∃ before after, Text.cut? t.span text = some (before, t.text, after)) ∧
      (t.role, t.priority) = classify t.text) ∧
    (Text.size text ≤ range.stop →
      (∀ pos, range.start ≤ pos → (∀ t ∈ ts, t.span.holds pos = false) → ∀ w, ¬LexemeAt text pos w) ∧
      ∀ before c after, text = before ++ c :: after → range.start ≤ Text.size before →
        (c ∈ plainSigns ∨ isWordChar c = true) → ts.countP (·.span.holds (Text.size before)) = 1) := by
  intro ts
  obtain ⟨hpairs, hfound⟩ := tokenize_spec text range
  refine ⟨hpairs, fun t ht => ?_, fun hstop => ⟨fun pos hle hout w hw => ?_, fun before c after htext hle hc => ?_⟩⟩
  · have hplace := hfound t ht
    obtain ⟨hstart, hend⟩ := Span.covers_iff.mp (covers_of_mem_tokenize ht)
    have hsize := hplace.stop_le
    rw [Nat.zero_add] at hsize
    exact ⟨hplace.nonempty, hstart, Nat.le_min.mpr ⟨hend, hsize⟩, hplace.isBoundary.1, hplace.isBoundary.2, hplace.cut?,
      Prod.ext hplace.classified.1 hplace.classified.2⟩
  · obtain ⟨t, ht, hholds⟩ := exists_holds_of_lexemeAt hstop hw hle
    rw [hout t ht] at hholds
    cases hholds
  · have hw : LexemeAt text (Text.size before) [c] := ⟨before, after, htext, rfl, isLexeme_single hc⟩
    obtain ⟨t, ht, hholds⟩ := exists_holds_of_lexemeAt hstop hw hle
    exact countP_holds hpairs ht hholds

/-- A part that starts inside a character and goes on past the end. At the open quote there is no lexeme, and the word
    behind it is a token. -/
theorem tokenize_in_order_and_complete_of_open_quote :
    let text := "é$a, \"b".toList
    let ts := tokenize text ⟨1, 20⟩
    (Text.size text ≤ 20 ∧ ts.map (·.span) = [⟨3, 4⟩, ⟨4, 5⟩, ⟨7, 8⟩]) ∧ (∀ w, ¬LexemeAt text 6 w) ∧
      ts.countP (·.span.holds 7) = 1 := by
  intro text ts
  have hstop : Text.size text ≤ 20 := by decide
  obtain ⟨-, -, hcomplete⟩ := tokenize_in_order_and_complete text ⟨1, 20⟩
  obtain ⟨hgaps, hsigns⟩ := hcomplete hstop
  refine ⟨⟨hstop, by decide +kernel⟩, hgaps 6 (by decide) (by decide +kernel), ?_⟩
  exact hsigns "é$a, \"".toList 'b' [] rfl (by decide) (Or.inr rfl)

/-! ### Stopping earlier and going on -/

section
variable {stop stop' pos : Nat} {cs rest : List Char} {t : Token}

theorem scan_of_nextToken? (h : nextToken? pos cs = some (t, rest)) :
    scan stop pos cs = if t.span.stop ≤ stop then t :: scan stop t.span.stop rest else [] := by
  rw [scan]
  split <;> simp_all

theorem scan_of_no_token (h : nextToken? pos cs = none) : scan stop pos cs = [] := by
  rw [scan]
  split <;> simp_all

/-- A scan that stops earlier finds the first of the tokens, as far as they end by then. -/
theorem scan_eq_filter (h : stop ≤ stop') (pos : Nat) (cs : List Char) :
    scan stop pos cs <+: scan stop' pos cs ∧ scan stop pos cs = (scan stop' pos cs).filter (·.span.stop ≤ stop) := by
  fun_induction scan stop' pos cs with
  | case1 pos cs hnext => simp [scan_of_no_token hnext]
  | case2 pos cs t rest hnext hle ih =>
    rw [scan_of_nextToken? hnext]
    by_cases hends : t.span.stop ≤ stop
    · rw [if_pos hends, List.filter_cons_of_pos (by simpa using hends)]
      exact ⟨List.cons_prefix_cons.mpr ⟨rfl, ih.1⟩, congrArg (t :: ·) ih.2⟩
    · -- All that follows ends even later.
      have hnone : (t :: scan stop' t.span.stop rest).filter (·.span.stop ≤ stop) = [] := by
        refine List.filter_eq_nil_iff.mpr (List.forall_mem_cons.mpr ⟨by simpa using hends, fun u hu => ?_⟩)
        have hfound := (scan_spec stop' t.span.stop rest).2 u hu
        have hstart := hfound.le_start
        have hends' := hfound.nonempty
        rw [decide_eq_true_iff]
        omega
      rw [if_neg hends, hnone]
      exact ⟨List.nil_prefix, rfl⟩
  | case3 pos cs t rest hnext hlt =>
    rw [scan_of_nextToken? hnext, if_neg (by omega)]
    exact ⟨List.nil_prefix, rfl⟩

/-- At the end of a token a scan can be taken up again. -/
theorem scan_resume (ht : t ∈ scan stop pos cs) :
    ∃ before after, cs = before ++ after ∧ t.span.stop = pos + Text.size before ∧
      scan stop pos cs = scan t.span.stop pos cs ++ scan stop t.span.stop after := by
  fun_induction scan stop pos cs with
  | case1 => cases ht
  | case2 pos cs u rest hnext hle ih =>
    obtain ⟨hfound, before, rfl, hend⟩ := nextToken?_eq_some hnext
    rcases List.mem_cons.mp ht with rfl | ht
    · refine ⟨before, rest, rfl, hend, ?_⟩
      rw [scan_of_nextToken? hnext, if_pos (Nat.le_refl _), scan_eq_nil (Nat.le_refl _)]
      rfl
    · obtain ⟨before', after, rfl, hend', hscan⟩ := ih ht
      refine ⟨before ++ before', after, by simp, by rw [Text.size_append]; omega, ?_⟩
      rw [scan_of_nextToken? hnext, if_pos (by omega), List.cons_append, ← hscan]
  | case3 => cases ht

end

/-- The tokens of a part of a text are the first tokens of every longer part with the same start, namely those that end
    in it. And the tokens of a part are, for each of them, those up to its end and those from there on. -/
theorem tokenize_shorter_and_resumed (text : List Char) (start : Nat) {stop stop' : Nat} (h : stop ≤ stop') :
    tokenize text ⟨start, stop⟩ <+: tokenize text ⟨start, stop'⟩ ∧
    tokenize text ⟨start, stop⟩ = (tokenize text ⟨start, stop'⟩).filter (·.span.stop ≤ stop) ∧
    ∀ t ∈ tokenize text ⟨start, stop'⟩,
      tokenize text ⟨start, stop'⟩ = tokenize text ⟨start, t.span.stop⟩ ++ tokenize text ⟨t.span.stop, stop'⟩ := by
  obtain ⟨first, rest, hseek⟩ : ∃ first rest, Text.seek start 0 text = (first, rest) := ⟨_, _, rfl⟩
  have hscan : ∀ stop, tokenize text ⟨start, stop⟩ = scan stop first rest := fun stop => by simp only [tokenize, hseek]
  rw [hscan, hscan]
  obtain ⟨hinitial, hfilter⟩ := scan_eq_filter h first rest
  refine ⟨hinitial, hfilter, fun t ht => ?_⟩
  obtain ⟨before, after, hrest, hend, happ⟩ := scan_resume ht
  obtain ⟨front, rfl, hfirst⟩ := Text.seek_eq hseek
  have hsize : t.span.stop = Text.size (front ++ before) := by rw [hend, hfirst, Text.size_append, Nat.zero_add]
  have htail := tokenize_eq_scan (front ++ before) after stop'
  rw [List.append_assoc, ← hrest, ← hsize] at htail
  rw [hscan, htail]
  exact happ

/-- A word that reaches out of the part is left out, and the scan goes on behind the word before it. -/
theorem tokenize_shorter_and_resumed_of_words :
    let text := "alpha = beta".toList
    8 ≤ 12 ∧ (tokenize text ⟨0, 8⟩).map (·.span) = [⟨0, 5⟩, ⟨6, 7⟩] ∧ tokenize text ⟨0, 8⟩ <+: tokenize text ⟨0, 12⟩ ∧
      tokenize text ⟨0, 12⟩ = tokenize text ⟨0, 5⟩ ++ tokenize text ⟨5, 12⟩ := by
  intro text
  obtain ⟨hinitial, -, hresume⟩ := tokenize_shorter_and_resumed text 0 (show 8 ≤ 12 by decide)
  exact ⟨by decide, by decide +kernel, hinitial,
    hresume (.ofLexeme "alpha".toList ⟨0, 5⟩) (by decide +kernel)⟩

end SiblingSwap
