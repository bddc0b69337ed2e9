import SiblingSwap.Token.Rule

/-! Scanning: a text is read from left to right. At each place the first shape that matches gives the lexeme, and a
    character at which no shape matches is passed over. A lexeme is never empty, so a scan ends. -/

namespace SiblingSwap

/-! ### Lexemes and what follows them -/

namespace Shape

/-- A lexeme and what follows it are the text. -/
theorem eq_append_of_match? {s : Shape} {cs text rest : List Char} (h : s.match? cs = some (text, rest)) :
    cs = text ++ rest := by
  unfold match? at h
  split at h
  · split at h
    · next hp =>
      simp only [Option.some.injEq, Prod.mk.injEq] at h
      obtain ⟨rfl, rfl⟩ := h
      obtain ⟨t, rfl⟩ := List.isPrefixOf_iff_prefix.1 hp
      simp
    · simp at h
  · next q c cs =>
    split at h
    · split at h
      · next hc x r hdrop =>
        simp only [Option.some.injEq, Prod.mk.injEq] at h
        obtain ⟨rfl, rfl⟩ := h
        have hx : x = q := by
          have := List.head?_dropWhile_not (· != q) cs
          simpa [hdrop] using this
        have happ := List.takeWhile_append_dropWhile (p := (· != q)) (l := cs)
        rw [hdrop, hx] at happ
        simp [happ]
      · simp at h
    · simp at h
  · next cs =>
    split at h
    · next r hdrop =>
      simp only [Option.some.injEq, Prod.mk.injEq] at h
      obtain ⟨rfl, rfl⟩ := h
      have happ := List.takeWhile_append_dropWhile (p := isWordChar) (l := cs)
      rw [hdrop] at happ
      simp [happ]
    · simp at h
  · split at h
    · simp at h
    · next w =>
      simp only [Option.some.injEq, Prod.mk.injEq] at h
      obtain ⟨rfl, rfl⟩ := h
      exact List.takeWhile_append_dropWhile.symm
  · simp at h

/-- Only the empty literal matches an empty lexeme. -/
theorem ne_nil_of_match? {s : Shape} (hs : s ≠ .literal []) {cs text rest : List Char}
    (h : s.match? cs = some (text, rest)) : text ≠ [] := by
  unfold match? at h
  split at h
  · split at h
    · simp only [Option.some.injEq, Prod.mk.injEq] at h
      obtain ⟨rfl, -⟩ := h
      rintro rfl
      exact hs rfl
    · simp at h
  · split at h
    · split at h
      · simp only [Option.some.injEq, Prod.mk.injEq] at h
        obtain ⟨rfl, -⟩ := h
        simp
      · simp at h
    · simp at h
  · split at h
    · simp only [Option.some.injEq, Prod.mk.injEq] at h
      obtain ⟨rfl, -⟩ := h
      simp
    · simp at h
  · split at h
    · simp at h
    · next hw =>
      simp only [Option.some.injEq, Prod.mk.injEq] at h
      obtain ⟨rfl, -⟩ := h
      exact hw
  · simp at h

end Shape

/-- No symbol is the empty text. -/
theorem literal_nil_notMem_shapes : Shape.literal [] ∉ shapes := by decide

/-- The lexeme at the head of a text, with what follows it. -/
def lexeme? (cs : List Char) : Option (List Char × List Char) := shapes.findSome? (·.match? cs)

theorem eq_append_of_lexeme? {cs text rest : List Char} (h : lexeme? cs = some (text, rest)) :
    cs = text ++ rest := by
  obtain ⟨s, -, hm⟩ := List.exists_of_findSome?_eq_some h
  exact Shape.eq_append_of_match? hm

theorem ne_nil_of_lexeme? {cs text rest : List Char} (h : lexeme? cs = some (text, rest)) : text ≠ [] := by
  obtain ⟨s, hs, hm⟩ := List.exists_of_findSome?_eq_some h
  exact Shape.ne_nil_of_match? (fun he => literal_nil_notMem_shapes (he ▸ hs)) hm

/-! ### The next token -/

/-- The first token of a text that starts at offset `pos`, with what follows it. -/
def nextToken? (pos : Nat) : List Char → Option (Token × List Char)
  | [] => none
  | c :: cs =>
    match lexeme? (c :: cs) with
    | some (text, rest) => some (.ofLexeme text ⟨pos, pos + Text.size text⟩, rest)
    | none => nextToken? (pos + c.utf8Size) cs

theorem length_lt_of_nextToken? {pos : Nat} {cs : List Char} {t : Token} {rest : List Char}
    (h : nextToken? pos cs = some (t, rest)) : rest.length < cs.length := by
  fun_induction nextToken? pos cs with
  | case1 => simp at h
  | case2 pos c cs text rest' hl =>
    simp only [Option.some.injEq, Prod.mk.injEq] at h
    have hpos := List.length_pos_iff.2 (ne_nil_of_lexeme? hl)
    rw [eq_append_of_lexeme? hl, List.length_append, ← h.2]
    omega
  | case3 pos c cs hl ih => exact Nat.lt_succ_of_lt (ih h)

/-! ### All tokens -/

/-- The tokens of a text that starts at offset `pos`, up to the first that ends past `stop`. -/
def scan (stop pos : Nat) (cs : List Char) : List Token :=
  match _h : nextToken? pos cs with
  | none => []
  | some (t, rest) => if t.span.stop ≤ stop then t :: scan stop t.span.stop rest else []
termination_by cs.length
decreasing_by exact length_lt_of_nextToken? _h

/-- The tokens of the part of a text that lies in a span. A lexeme is recognised in the whole text, so one that
    reaches past the span is left out, and with it all that follows. -/
def tokenize (text : List Char) (range : Span) : List Token :=
  let (pos, rest) := Text.seek range.start 0 text
  scan range.stop pos rest

/-- The place of the first lexeme at or after offset `start`. -/
def findLexeme? (text : List Char) (start : Nat) : Option Span :=
  let (pos, rest) := Text.seek start 0 text
  (nextToken? pos rest).map (·.1.span)

end SiblingSwap
