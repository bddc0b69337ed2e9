import SiblingSwap.Proofs.Order
import SiblingSwap.Token.Scan

/-! Where tokens stand in a text. A scan finds classified lexemes, none of them empty, from left to right; the span of
    each is its place in the text, so both ends of it are boundaries of the text. -/

namespace SiblingSwap

/-! ### Offsets -/

namespace Text

theorem size_pos {cs : List Char} (h : cs ≠ []) : 0 < size cs := by
  cases cs with
  | nil => exact absurd rfl h
  | cons c cs =>
    have := c.utf8Size_pos
    rw [size_cons]
    omega

theorem isBoundary_iff {n : Nat} {cs : List Char} :
    isBoundary n cs ↔ ∃ before after, cs = before ++ after ∧ size before = n := by
  constructor
  · intro h
    obtain ⟨⟨before, after⟩, hsplit⟩ := Option.isSome_iff_exists.mp h
    obtain ⟨hcs, hsize⟩ := splitAt?_eq_some hsplit
    exact ⟨before, after, hcs, hsize⟩
  · rintro ⟨before, after, rfl, rfl⟩
    simp [isBoundary]

theorem isBoundary_le {n : Nat} {cs : List Char} (h : isBoundary n cs) : n ≤ size cs := by
  obtain ⟨before, after, rfl, rfl⟩ := isBoundary_iff.mp h
  simp

/-- A boundary at or after the end of a first part of the text is a boundary of what follows it. -/
theorem exists_append_of_isBoundary {n : Nat} {before rest : List Char} (h : isBoundary n (before ++ rest))
    (hle : size before ≤ n) : ∃ inside after, rest = inside ++ after ∧ size before + size inside = n := by
  obtain ⟨cs, ds, happ, hsize⟩ := isBoundary_iff.mp h
  rcases List.append_eq_append_iff.mp happ with ⟨inside, hcs, hrest⟩ | ⟨inside, hbefore, hds⟩
  · exact ⟨inside, ds, hrest, by rw [← hsize, hcs, size_append]⟩
  · -- The boundary lies in the first part, hence at its end.
    rw [hbefore, size_append] at hle
    have hnil : inside = [] := by
      by_contra hne
      have := size_pos hne
      omega
    subst hnil
    exact ⟨[], rest, rfl, by rw [hbefore]; simpa using hsize⟩

/-- The shorter of two first parts of a text is a first part of the longer one. -/
theorem exists_append_of_size_le {first second text rest : List Char} (h : first ++ second = text ++ rest)
    (hle : size text ≤ size first) : ∃ more, first = text ++ more ∧ rest = more ++ second := by
  rcases List.append_eq_append_iff.mp h with ⟨extra, htext, hsecond⟩ | ⟨more, hfirst, hrest⟩
  · have hextra : extra = [] := by
      by_contra hne
      have := size_pos hne
      rw [htext, size_append] at hle
      omega
    subst hextra
    exact ⟨[], by simp [htext], by simpa using hsecond.symm⟩
  · exact ⟨more, hfirst, hrest⟩

theorem append_inj_of_size {first second text rest : List Char} (h : first ++ second = text ++ rest)
    (hsize : size first = size text) : first = text ∧ second = rest := by
  have hcut := splitAt?_size_append first second
  rw [h, hsize, splitAt?_size_append] at hcut
  exact Prod.mk.inj (Option.some.inj hcut.symm)

theorem seek_eq {n pos pos' : Nat} {cs rest : List Char} (h : seek n pos cs = (pos', rest)) :
    ∃ skipped, cs = skipped ++ rest ∧ pos' = pos + size skipped := by
  fun_induction seek n pos cs with
  | case1 pos => simp_all
  | case2 pos c cs hle =>
    obtain ⟨rfl, rfl⟩ := Prod.mk.inj h
    exact ⟨[], rfl, rfl⟩
  | case3 pos c cs hlt ih =>
    obtain ⟨skipped, rfl, hpos⟩ := ih h
    exact ⟨c :: skipped, rfl, by rw [hpos, size_cons, Nat.add_assoc]⟩

theorem le_seek {n pos pos' : Nat} {cs rest : List Char} (h : seek n pos cs = (pos', rest)) :
    rest = [] ∨ n ≤ pos' := by
  fun_induction seek n pos cs with
  | case1 pos => exact Or.inl (Prod.mk.inj h).2.symm
  | case2 pos c cs hle => exact Or.inr ((Prod.mk.inj h).1 ▸ hle)
  | case3 pos c cs hlt ih => exact ih h

/-- No boundary from the offset on is passed over. -/
theorem exists_seek {n pos : Nat} {before : List Char} (h : n ≤ pos + size before) (after : List Char) :
    ∃ skipped gap, before = skipped ++ gap ∧ seek n pos (before ++ after) = (pos + size skipped, gap ++ after) := by
  induction before generalizing pos with
  | nil =>
    refine ⟨[], [], rfl, ?_⟩
    have hle : n ≤ pos := by simpa using h
    cases after <;> simp [seek, hle]
  | cons c before ih =>
    by_cases hle : n ≤ pos
    · exact ⟨[], c :: before, rfl, by simp [seek, hle]⟩
    · rw [size_cons, ← Nat.add_assoc] at h
      obtain ⟨skipped, gap, rfl, hseek⟩ := ih h
      refine ⟨c :: skipped, gap, rfl, ?_⟩
      rw [List.cons_append, seek, if_neg hle, hseek, size_cons, Nat.add_assoc]

end Text

/-! ### Tokens of a text -/

/-- The token is a lexeme of a text that starts at offset `pos`, and its span is its place. -/
structure Token.Found (pos : Nat) (cs : List Char) (t : Token) : Prop where
  classified : t.Classified
  filled : t.text ≠ []
  place : ∃ before after, cs = before ++ (t.text ++ after) ∧
    t.span = ⟨pos + Text.size before, pos + Text.size before + Text.size t.text⟩

namespace Token.Found
variable {pos : Nat} {cs : List Char} {t : Token}

theorem nonempty (h : Found pos cs t) : t.span.start < t.span.stop := by
  obtain ⟨before, after, -, hspan⟩ := h.place
  have := Text.size_pos h.filled
  rw [hspan]
  show pos + Text.size before < pos + Text.size before + Text.size t.text
  omega

theorem le_start (h : Found pos cs t) : pos ≤ t.span.start := by
  obtain ⟨before, after, -, hspan⟩ := h.place
  rw [hspan]
  exact Nat.le_add_right _ _

theorem skip (skipped : List Char) (h : Found (pos + Text.size skipped) cs t) : Found pos (skipped ++ cs) t := by
  obtain ⟨before, after, hcs, hspan⟩ := h.place
  refine ⟨h.classified, h.filled, skipped ++ before, after, by rw [hcs, List.append_assoc], ?_⟩
  rw [hspan, Text.size_append, Nat.add_assoc]

theorem isBoundary (h : Found 0 cs t) : Text.isBoundary t.span.start cs ∧ Text.isBoundary t.span.stop cs := by
  obtain ⟨before, after, rfl, hspan⟩ := h.place
  rw [hspan]
  constructor
  · exact Text.isBoundary_iff.mpr ⟨before, _, rfl, by simp⟩
  · exact Text.isBoundary_iff.mpr ⟨before ++ t.text, after, by simp, by simp⟩

end Token.Found

theorem nextToken?_eq_some {pos : Nat} {cs rest : List Char} {t : Token} (h : nextToken? pos cs = some (t, rest)) :
    t.Found pos cs ∧ ∃ skipped, cs = skipped ++ rest ∧ t.span.stop = pos + Text.size skipped := by
  fun_induction nextToken? pos cs with
  | case1 => simp at h
  | case2 pos c cs text rest' hl =>
    simp only [Option.some.injEq, Prod.mk.injEq] at h
    obtain ⟨rfl, rfl⟩ := h
    have happ := eq_append_of_lexeme? hl
    exact ⟨⟨Token.classified_ofLexeme _ _, ne_nil_of_lexeme? hl, [], rest', happ, rfl⟩, text, happ, rfl⟩
  | case3 pos c cs hl ih =>
    obtain ⟨hfound, skipped, rfl, hstop⟩ := ih h
    have hsize : Text.size [c] = c.utf8Size := by simp
    refine ⟨Token.Found.skip [c] (hsize ▸ hfound), c :: skipped, rfl, ?_⟩
    rw [hstop, Text.size_cons, Nat.add_assoc]

theorem scan_spec (stop pos : Nat) (cs : List Char) :
    (scan stop pos cs).Pairwise Token.Before ∧ ∀ t ∈ scan stop pos cs, t.Found pos cs := by
  fun_induction scan stop pos cs with
  | case1 pos cs hnone => simp
  | case2 pos cs t rest hnext hle ih =>
    obtain ⟨hfound, skipped, rfl, hstop⟩ := nextToken?_eq_some hnext
    obtain ⟨hpairs, hrest⟩ := ih
    rw [hstop] at hrest
    refine ⟨List.pairwise_cons.mpr ⟨fun u hu => ?_, hpairs⟩, List.forall_mem_cons.mpr ⟨hfound, fun u hu => ?_⟩⟩
    · exact Nat.le_trans (Nat.le_of_eq hstop) (hrest u (hstop ▸ hu)).le_start
    · exact (hrest u (hstop ▸ hu)).skip skipped
  | case3 => simp

/-- The tokens of a part of a text stand in order, each at its place in the whole text. -/
theorem tokenize_spec (text : List Char) (range : Span) :
    (tokenize text range).Pairwise Token.Before ∧ ∀ t ∈ tokenize text range, t.Found 0 text := by
  unfold tokenize
  cases hseek : Text.seek range.start 0 text with
  | mk pos rest =>
    obtain ⟨skipped, rfl, hpos⟩ := Text.seek_eq hseek
    obtain ⟨hpairs, hfound⟩ := scan_spec range.stop pos rest
    exact ⟨hpairs, fun t ht => (hpos ▸ hfound t ht).skip skipped⟩

end SiblingSwap
