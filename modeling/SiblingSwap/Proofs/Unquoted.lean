import SiblingSwap.Proofs.Spelling

/-! Brackets read with a stack, and where a text has them. Lexemes hide brackets only inside of quotes, so the brackets
    among the tokens of a text are those among its characters outside of quoted literals. What is quoted depends on
    what follows for a quote that stays open, and on nothing else. -/

namespace SiblingSwap

/-! ### Reading brackets -/

def isClosing (text : List Char) : Bool := text = [')'] || text = [']'] || text = ['\x7d']

/-- Reads a text with the brackets that are awaited, innermost first. An opening bracket adds the one that closes it, a
    closing one must be the next awaited, and nothing else matters. -/
def readBracket (awaited : List (List Char)) (text : List Char) : Option (List (List Char)) :=
  match closerOf? text with
  | some closer => some (closer :: awaited)
  | none =>
    if isClosing text then
      if awaited.head? = some text then some awaited.tail else none
    else some awaited

def readBrackets (awaited : List (List Char)) (texts : List (List Char)) : Option (List (List Char)) :=
  texts.foldlM readBracket awaited

/-- Every bracket is closed, in the order opposite to that of opening, and nothing else is. -/
def Balanced (ts : List Token) : Prop := readBrackets [] (ts.map (·.text)) = some []

instance (ts : List Token) : Decidable (Balanced ts) := inferInstanceAs (Decidable (_ = _))

theorem isClosing_iff {text : List Char} : isClosing text = true ↔ ∃ o, closerOf? o = some text := by
  constructor
  · intro h
    simp only [isClosing, Bool.or_eq_true, decide_eq_true_eq] at h
    rcases h with (rfl | rfl) | rfl
    · exact ⟨['('], rfl⟩
    · exact ⟨['['], rfl⟩
    · exact ⟨['\x7b'], rfl⟩
  · rintro ⟨o, ho⟩
    rcases closerOf?_eq_some ho with ⟨-, rfl⟩ | ⟨-, rfl⟩ | ⟨-, rfl⟩ <;> rfl

section
variable {awaited : List (List Char)} {text : List Char}

@[simp]
theorem readBrackets_nil : readBrackets awaited [] = some awaited := rfl

theorem readBrackets_cons (texts : List (List Char)) :
    readBrackets awaited (text :: texts) = (readBracket awaited text).bind (readBrackets · texts) := rfl

theorem readBrackets_append (texts texts' : List (List Char)) :
    readBrackets awaited (texts ++ texts') = (readBrackets awaited texts).bind (readBrackets · texts') :=
  List.foldlM_append

theorem readBracket_of_plain (hopen : closerOf? text = none) (hclose : isClosing text = false) :
    readBracket awaited text = some awaited := by
  simp [readBracket, hopen, hclose]

theorem readBracket_of_length (h : text.length ≠ 1) : readBracket awaited text = some awaited := by
  refine readBracket_of_plain ?_ ?_
  · cases hc : closerOf? text with
    | none => rfl
    | some closer =>
      rcases closerOf?_eq_some hc with ⟨rfl, -⟩ | ⟨rfl, -⟩ | ⟨rfl, -⟩ <;> exact absurd rfl h
  · cases hc : isClosing text with
    | false => rfl
    | true =>
      simp only [isClosing, Bool.or_eq_true, decide_eq_true_eq] at hc
      rcases hc with (rfl | rfl) | rfl <;> exact absurd rfl h

end

/-! ### Outside of quotes -/

/-- The characters of a text outside of quoted literals. A quote that is never closed is one of them. -/
def unquoted : List Char → List Char
  | [] => []
  | c :: cs => if c ∈ quotes ∧ c ∈ cs then unquoted (cs.dropWhile (· != c)).tail else c :: unquoted cs
termination_by cs => cs.length
decreasing_by
  · have := (List.dropWhile_sublist (· != c) (l := cs)).length_le
    simp only [List.length_tail, List.length_cons]
    omega
  · simp

/-- Each character as a text of its own. -/
def singles (cs : List Char) : List (List Char) := cs.map fun c => [c]

theorem singles_append (cs ds : List Char) : singles (cs ++ ds) = singles cs ++ singles ds := List.map_append

variable {c q : Char} {cs ds : List Char}

theorem unquoted_literal (hq : q ∈ quotes) (hbody : q ∉ cs) (ds : List Char) :
    unquoted (q :: cs ++ [q] ++ ds) = unquoted ds := by
  have hmem : q ∈ cs ++ [q] ++ ds := by simp
  have hdrop : (cs ++ [q] ++ ds).dropWhile (· != q) = q :: ds := by
    rw [List.append_assoc, List.dropWhile_append_of_pos (Shape.bne_of_notMem hbody)]
    simp
  rw [List.cons_append, List.cons_append, unquoted, if_pos ⟨hq, hmem⟩, hdrop, List.tail_cons]

theorem unquoted_of_open (h : c ∈ quotes → c ∉ cs) : unquoted (c :: cs) = c :: unquoted cs := by
  rw [unquoted, if_neg fun hopen => h hopen.1 hopen.2]

theorem unquoted_plain (h : ∀ c ∈ cs, c ∉ quotes) (ds : List Char) : unquoted (cs ++ ds) = cs ++ unquoted ds := by
  induction cs with
  | nil => rfl
  | cons c cs ih =>
    rw [List.cons_append, unquoted_of_open fun hq => absurd hq (h c (by simp)), ih fun d hd => h d (by simp [hd])]
    rfl

theorem mem_of_mem_unquoted (h : c ∈ unquoted cs) : c ∈ cs := by
  fun_induction unquoted cs with
  | case1 => exact h
  | case2 d cs _ ih => exact List.mem_cons_of_mem _ ((List.dropWhile_sublist _).subset (List.mem_of_mem_tail (ih h)))
  | case3 d cs _ ih => exact List.mem_cons.mpr ((List.mem_cons.mp h).imp_right ih)

/-- Two texts in a row have the literals of both, unless one that is open in the first is closed in the second. -/
theorem unquoted_append (h : ∀ q ∈ quotes, q ∈ unquoted cs → q ∉ ds) :
    unquoted (cs ++ ds) = unquoted cs ++ unquoted ds := by
  fun_induction unquoted cs with
  | case1 => rfl
  | case2 c cs hclosed ih =>
    obtain ⟨before, rest, rfl, hbefore⟩ := List.eq_append_cons_of_mem hclosed.2
    have hdrop : (before ++ c :: rest).dropWhile (· != c) = c :: rest := by
      rw [List.dropWhile_append_of_pos (Shape.bne_of_notMem hbefore)]
      simp
    rw [hdrop, List.tail_cons] at ih h ⊢
    rw [← ih h, ← unquoted_literal hclosed.1 hbefore (rest ++ ds)]
    simp
  | case3 c cs hopen ih =>
    have hmem : c ∈ quotes → c ∉ cs ++ ds := by
      intro hq hmem
      rcases List.mem_append.mp hmem with hmem | hmem
      · exact hopen ⟨hq, hmem⟩
      · exact h c hq (by simp) hmem
    rw [List.cons_append, unquoted_of_open hmem, ih fun q hq hqs => h q hq (List.mem_cons_of_mem _ hqs)]
    rfl

/-! ### Lexemes and brackets -/

def brackets : List Char := ['(', ')', '[', ']', '\x7b', '\x7d']

theorem readBracket_single {awaited : List (List Char)} (h : c ∉ brackets) :
    readBracket awaited [c] = some awaited := by
  refine readBracket_of_plain ?_ ?_
  · cases hc : closerOf? [c] with
    | none => rfl
    | some closer =>
      rcases closerOf?_eq_some hc with ⟨hc, -⟩ | ⟨hc, -⟩ | ⟨hc, -⟩ <;> simp_all [brackets]
  · cases hc : isClosing [c] with
    | false => rfl
    | true => simp_all [isClosing, brackets]

theorem readBrackets_singles {awaited : List (List Char)} (h : ∀ c ∈ cs, c ∉ brackets) :
    readBrackets awaited (singles cs) = some awaited := by
  induction cs with
  | nil => rfl
  | cons c cs ih =>
    rw [singles, List.map_cons, readBrackets_cons, readBracket_single (h c (by simp)), Option.bind_some]
    exact ih fun d hd => h d (by simp [hd])

theorem notMem_of_isWordChar (h : isWordChar c = true) : c ∉ quotes ∧ c ∉ brackets := by
  constructor
  · intro hq
    have htable : (quotes.all fun q => !isWordChar q) = true := by decide
    simpa [h] using List.all_eq_true.mp htable c hq
  · intro hb
    have htable : (brackets.all fun b => !isWordChar b) = true := by decide
    simpa [h] using List.all_eq_true.mp htable c hb

/-- A lexeme is quoted, or it has no quote in it and is a single sign or has no bracket in it. -/
theorem lexeme?_cases {text rest : List Char} (h : lexeme? cs = some (text, rest)) :
    (∃ q body, q ∈ quotes ∧ q ∉ body ∧ text = q :: body ++ [q]) ∨
      (∀ c ∈ text, c ∉ quotes) ∧ (text.length = 1 ∨ ∀ c ∈ text, c ∉ brackets) := by
  obtain ⟨s, hs, htext⟩ := isLexeme_of_lexeme? h
  cases s with
  | literal sign =>
    have htable : ∀ s ∈ shapes, (match s with
        | .literal sign => sign.all (· ∉ quotes) && (sign.length == 1 || sign.all (· ∉ brackets))
        | _ => true) = true := by decide
    obtain rfl : text = sign := htext
    exact Or.inr (by simpa using htable _ hs)
  | quoted q =>
    obtain ⟨body, hbody, rfl⟩ := htext
    exact Or.inl ⟨q, body, mem_quotes_of_quoted hs, hbody, rfl⟩
  | angled =>
    obtain ⟨name, hname, rfl⟩ := htext
    have hall : ∀ d ∈ '<' :: name ++ ['>'], d ∉ quotes ∧ d ∉ brackets := by
      intro d hd
      rcases List.mem_append.mp hd with hd | hd
      · rcases List.mem_cons.mp hd with rfl | hd
        · decide
        · exact notMem_of_isWordChar (hname d hd)
      · rw [List.mem_singleton.mp hd]
        decide
    exact Or.inr ⟨fun d hd => (hall d hd).1, Or.inr fun d hd => (hall d hd).2⟩
  | word =>
    have hall : ∀ c ∈ text, c ∉ quotes ∧ c ∉ brackets := fun c hc => notMem_of_isWordChar (htext.2 c hc)
    exact Or.inr ⟨fun c hc => (hall c hc).1, Or.inr fun c hc => (hall c hc).2⟩

/-- The brackets of a lexeme are those among its characters outside of quotes. -/
theorem readBracket_lexeme {awaited : List (List Char)} {text rest : List Char} (h : lexeme? cs = some (text, rest))
    (ds : List Char) : readBrackets awaited (singles (unquoted (text ++ ds))) =
      (readBracket awaited text).bind (readBrackets · (singles (unquoted ds))) := by
  rcases lexeme?_cases h with ⟨q, body, hq, hbody, rfl⟩ | ⟨hplain, hbrackets⟩
  · rw [unquoted_literal hq hbody, readBracket_of_length (by simp), Option.bind_some]
  · rw [unquoted_plain hplain, singles_append, readBrackets_append]
    rcases hbrackets with hone | hnone
    · obtain ⟨c, rfl⟩ := List.length_eq_one_iff.mp hone
      rw [singles, List.map_singleton, readBrackets_cons]
      cases readBracket awaited [c] <;> rfl
    · have htext : readBracket awaited text = some awaited := by
        by_cases hone : text.length = 1
        · obtain ⟨c, rfl⟩ := List.length_eq_one_iff.mp hone
          exact readBracket_single (hnone c (by simp))
        · exact readBracket_of_length hone
      rw [readBrackets_singles hnone, htext]

theorem mem_unquoted_lexeme {text rest : List Char} (h : lexeme? cs = some (text, rest)) (hq : q ∈ quotes)
    (hmem : q ∈ unquoted (text ++ ds)) : q ∈ unquoted ds := by
  rcases lexeme?_cases h with ⟨r, body, hr, hbody, rfl⟩ | ⟨hplain, -⟩
  · rwa [unquoted_literal hr hbody] at hmem
  · rw [unquoted_plain hplain] at hmem
    exact (List.mem_append.mp hmem).resolve_left fun htext => hplain q htext hq

theorem notMem_brackets_of_no_lexeme (h : lexeme? (c :: cs) = none) : c ∉ brackets := by
  have htable : (brackets.all (Shape.literal [·] ∈ shapes)) = true := by decide
  intro hb
  have hmem := of_decide_eq_true (List.all_eq_true.mp htable c hb)
  have hnone := List.findSome?_eq_none_iff.mp h _ hmem
  simp [Shape.match?] at hnone

/-! ### Scans and brackets -/

/-- A text is scanned in two parts, with no token across the end of the first. The brackets of that part are those
    outside of its quotes, and a quote that is open in it does not occur in the second part. -/
def ScansApart (stop pos : Nat) (first second : List Char) : Prop :=
  ∃ ts, scan stop pos (first ++ second) = ts ++ scan stop (pos + Text.size first) second ∧
    (∀ t ∈ ts, t.span.stop ≤ pos + Text.size first) ∧
    (∀ awaited, readBrackets awaited (ts.map (·.text)) = readBrackets awaited (singles (unquoted first))) ∧
    ∀ q ∈ quotes, q ∈ unquoted first → q ∉ second

namespace ScansApart
variable {stop pos : Nat} {text more second : List Char}

theorem nil : ScansApart stop pos [] second := by
  refine ⟨[], by simp, by simp, fun _ => by rw [unquoted]; rfl, fun _ _ hmem => ?_⟩
  rw [unquoted] at hmem
  cases hmem

theorem lexeme (hl : lexeme? (text ++ more ++ second) = some (text, more ++ second))
    (hstop : pos + Text.size text ≤ stop) (h : ScansApart stop (pos + Text.size text) more second) :
    ScansApart stop pos (text ++ more) second := by
  obtain ⟨ts, hscan, hbefore, hbrackets, hquotes⟩ := h
  have hplace : pos + Text.size (text ++ more) = pos + Text.size text + Text.size more := by
    rw [Text.size_append, Nat.add_assoc]
  rw [ScansApart, hplace]
  refine ⟨.ofLexeme text ⟨pos, pos + Text.size text⟩ :: ts, ?_, ?_, fun awaited => ?_, fun q hq hmem => ?_⟩
  · rw [scan_of_lexeme hl, if_pos hstop, hscan, List.cons_append]
  · exact List.forall_mem_cons.mpr ⟨Nat.le_add_right _ _, hbefore⟩
  · rw [readBracket_lexeme hl, List.map_cons, readBrackets_cons]
    exact congrArg _ (funext hbrackets)
  · exact hquotes q hq (mem_unquoted_lexeme hl hq hmem)

theorem skip (hl : lexeme? (c :: (cs ++ second)) = none) (h : ScansApart stop (pos + c.utf8Size) cs second) :
    ScansApart stop pos (c :: cs) second := by
  have hopen : c ∈ quotes → c ∉ cs ++ second := fun hq hmem => by
    have hsome := (isSome_lexeme?_quote hq).mpr hmem
    rw [hl] at hsome
    cases hsome
  obtain ⟨ts, hscan, hbefore, hbrackets, hquotes⟩ := h
  have hplace : pos + Text.size (c :: cs) = pos + c.utf8Size + Text.size cs := by rw [Text.size_cons, Nat.add_assoc]
  rw [ScansApart, hplace, unquoted_of_open fun hq hmem => hopen hq (List.mem_append_left _ hmem), List.cons_append,
    scan_of_no_lexeme hl]
  refine ⟨ts, hscan, hbefore, fun awaited => ?_, fun q hq hmem => ?_⟩
  · have hsingle : singles (c :: unquoted cs) = [c] :: singles (unquoted cs) := rfl
    rw [hbrackets, hsingle, readBrackets_cons, readBracket_single (notMem_brackets_of_no_lexeme hl)]
    rfl
  · rcases List.mem_cons.mp hmem with rfl | hmem
    · exact fun hmem => hopen hq (List.mem_append_right _ hmem)
    · exact hquotes q hq hmem

end ScansApart

/-- A part of a text that no token reaches out of is scanned apart from the rest. -/
theorem scansApart {stop pos : Nat} {first second : List Char} (hstop : pos + Text.size (first ++ second) ≤ stop)
    (hapart : ∀ t ∈ scan stop pos (first ++ second),
      t.span.stop ≤ pos + Text.size first ∨ pos + Text.size first ≤ t.span.start) :
    ScansApart stop pos first second := by
  match first with
  | [] => exact .nil
  | c :: cs =>
    cases hl : lexeme? (c :: cs ++ second) with
    | some m =>
      obtain ⟨text, rest⟩ := m
      have happ := eq_append_of_lexeme? hl
      have hsize : Text.size (c :: cs ++ second) = Text.size text + Text.size rest := by rw [happ, Text.size_append]
      have hfits : pos + Text.size text ≤ stop := by omega
      rw [scan_of_lexeme hl, if_pos hfits] at hapart
      have hinside : Text.size text ≤ Text.size (c :: cs) := by
        have hpos := Text.size_pos (List.cons_ne_nil c cs)
        rcases hapart _ List.mem_cons_self with hle | hle
        · exact Nat.le_of_add_le_add_left hle
        · have hle : pos + Text.size (c :: cs) ≤ pos := hle
          omega
      obtain ⟨more, hfirst, rfl⟩ := Text.exists_append_of_size_le happ hinside
      have hshorter : more.length < (c :: cs).length := by
        have := List.length_pos_iff.mpr (ne_nil_of_lexeme? hl)
        rw [hfirst, List.length_append]
        omega
      rw [hfirst, Text.size_append, ← Nat.add_assoc] at hapart
      rw [hfirst] at hl ⊢
      exact .lexeme hl hfits (scansApart (by omega) fun t ht => hapart t (List.mem_cons_of_mem _ ht))
    | none =>
      rw [List.cons_append] at hl hapart hstop
      rw [scan_of_no_lexeme hl, Text.size_cons, ← Nat.add_assoc] at hapart
      rw [Text.size_cons, ← Nat.add_assoc] at hstop
      exact .skip hl (scansApart hstop hapart)
termination_by first.length
decreasing_by
  · exact Nat.lt_succ_self _
  · exact hshorter

end SiblingSwap
