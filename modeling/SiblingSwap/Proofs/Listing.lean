import SiblingSwap.Proofs.Lexeme
import SiblingSwap.Proofs.Precedence
import SiblingSwap.Proofs.Row
import SiblingSwap.Proofs.Window

/-! Words in brackets, perhaps with a name in front of them, and with separators of one tier between them. Such a text
    is read as it is written: every word and every operator is a token, and its tree is one element that holds a row. -/

namespace SiblingSwap

/-! ### The table -/

/-- The words that have a role of their own. -/
def keywords : List (List Char) := ["if", "return", "or", "and", "not"].map String.toList

theorem lexeme?_of_mem_texts : ∀ r ∈ rules, ∀ text ∈ r.texts, lexeme? text = some (text, []) := by decide

theorem mem_keywords_or_sign : ∀ r ∈ rules, ∀ text ∈ r.texts, text ∈ keywords ∨ text.all isWordChar = false := by
  decide

theorem operator_of_mem_texts : ∀ r ∈ rules, ∀ text ∈ r.texts, (classify text).1 = .operator →
    (classify text).2 ≠ atomPriority ∧ '\n' ∉ text := by
  decide

theorem begins_blank : ∀ s ∈ shapes, s.begins ' ' = false := by decide

theorem head?_cons_not_continues {c : Char} (hc : continuesLexeme c = false) (rest : List Char) :
    ∀ d ∈ (c :: rest).head?, continuesLexeme d = false := by
  intro d hd
  rwa [← Option.some.inj hd]

/-! ### Words and separators -/

namespace Listing

/-- A word without a role of its own. -/
structure Word where
  text : List Char
  filled : text ≠ []
  spelled : ∀ c ∈ text, isWordChar c = true
  plain : text ∉ keywords

/-- What stands between two words: a comma and a blank, or an operator between blanks. -/
inductive Separator where
  | comma
  | spaced (op : List Char) (operator : (classify op).1 = .operator)

namespace Separator

def operator : Separator → List Char
  | comma => [',']
  | spaced op _ => op

/-- What comes before the operator. -/
def gap : Separator → List Char
  | comma => []
  | spaced _ _ => [' ']

def text (s : Separator) : List Char := s.gap ++ s.operator ++ [' ']

def priority (s : Separator) : Int := (classify s.operator).2

variable (s : Separator)

theorem size_text : Text.size s.text = Text.size s.gap + Text.size s.operator + 1 := by
  rw [text, Text.size_append, Text.size_append]
  rfl

theorem role_operator : (classify s.operator).1 = .operator := by
  cases s with
  | comma => decide
  | spaced op h => exact h

theorem exists_rule : ∃ r ∈ rules, s.operator ∈ r.texts :=
  exists_rule_of_classify_ne fun h => by simpa [h] using s.role_operator

theorem lexeme?_operator : lexeme? s.operator = some (s.operator, []) := by
  obtain ⟨r, hr, hmem⟩ := s.exists_rule
  exact lexeme?_of_mem_texts r hr _ hmem

theorem priority_ne : s.priority ≠ atomPriority := by
  obtain ⟨r, hr, hmem⟩ := s.exists_rule
  exact (operator_of_mem_texts r hr _ hmem s.role_operator).1

theorem break_notMem_text : '\n' ∉ s.text := by
  obtain ⟨r, hr, hmem⟩ := s.exists_rule
  have hop := (operator_of_mem_texts r hr _ hmem s.role_operator).2
  cases s <;> simpa [text, gap] using hop

theorem head?_text {rest : List Char} : ∀ c ∈ (s.text ++ rest).head?, continuesLexeme c = false := by
  cases s with
  | comma => exact head?_cons_not_continues (by decide) _
  | spaced op h => exact head?_cons_not_continues (by decide) _

/-- The operator, in a separator that starts at an offset. -/
def token (pos : Nat) : Token :=
  .ofLexeme s.operator ⟨pos + Text.size s.gap, pos + Text.size s.gap + Text.size s.operator⟩

end Separator

namespace Word
variable (w : Word)

theorem classify_text : classify w.text = (.atom, atomPriority) := by
  by_contra h
  obtain ⟨r, hr, hmem⟩ := exists_rule_of_classify_ne h
  rcases mem_keywords_or_sign r hr w.text hmem with hkey | hsign
  · exact w.plain hkey
  · rw [List.all_eq_true.mpr w.spelled] at hsign
    cases hsign

theorem break_notMem_text : '\n' ∉ w.text := fun h => absurd (w.spelled _ h) (by decide)

def token (pos : Nat) : Token := .ofLexeme w.text ⟨pos, pos + Text.size w.text⟩

theorem role_token (pos : Nat) : (w.token pos).role = .atom := congrArg Prod.fst w.classify_text

theorem priority_token (pos : Nat) : (w.token pos).priority = atomPriority := congrArg Prod.snd w.classify_text

end Word

/-! ### Scanning -/

section
variable {stop pos : Nat} {rest : List Char}

theorem scan_blank : scan stop pos (' ' :: rest) = scan stop (pos + 1) rest := by
  refine scan_of_no_lexeme (List.findSome?_eq_none_iff.mpr fun s hs => ?_)
  exact Shape.match?_eq_none (begins_blank s hs)

theorem scan_lexeme {text : List Char} (h : lexeme? text = some (text, []))
    (hrest : ∀ c ∈ rest.head?, continuesLexeme c = false) (hstop : pos + Text.size text ≤ stop) :
    scan stop pos (text ++ rest) =
      .ofLexeme text ⟨pos, pos + Text.size text⟩ :: scan stop (pos + Text.size text) rest := by
  rw [scan_of_lexeme (lexeme?_append_of_some hrest h), if_pos hstop, List.nil_append]

theorem scan_word (w : Word) (hrest : ∀ c ∈ rest.head?, continuesLexeme c = false)
    (hstop : pos + Text.size w.text ≤ stop) :
    scan stop pos (w.text ++ rest) = w.token pos :: scan stop (pos + Text.size w.text) rest :=
  scan_lexeme (lexeme?_word w.filled w.spelled) hrest hstop

theorem scan_separator (s : Separator) (hstop : pos + Text.size s.text ≤ stop) :
    scan stop pos (s.text ++ rest) = s.token pos :: scan stop (pos + Text.size s.text) rest := by
  have hgap : scan stop pos (s.text ++ rest) = scan stop (pos + Text.size s.gap) (s.operator ++ ' ' :: rest) := by
    cases s with
    | comma => rfl
    | spaced op h =>
      simp only [Separator.text, Separator.gap, Separator.operator, List.cons_append, List.nil_append,
        List.append_assoc]
      exact scan_blank
  have hsize := s.size_text
  rw [hgap, scan_lexeme s.lexeme?_operator (head?_cons_not_continues (by decide) rest) (by omega), scan_blank, hsize,
    Separator.token]
  simp only [Nat.add_assoc]

end

/-- Words, each with the separator after it. -/
def lead (l : List (Word × Separator)) : List Char := l.flatMap fun x => x.1.text ++ x.2.text

/-- The tokens of words and separators that start at an offset. -/
def items (pos : Nat) : List (Word × Separator) → List (Token × Token)
  | [] => []
  | (w, s) :: l =>
    (w.token pos, s.token (pos + Text.size w.text)) :: items (pos + Text.size w.text + Text.size s.text) l

section
variable {pos : Nat} {l : List (Word × Separator)}

@[simp]
theorem lead_nil : lead [] = [] := rfl

@[simp]
theorem lead_cons (w : Word) (s : Separator) : lead ((w, s) :: l) = w.text ++ s.text ++ lead l := rfl

@[simp]
theorem lead_append (l k : List (Word × Separator)) : lead (l ++ k) = lead l ++ lead k := List.flatMap_append

theorem items_concat (w : Word) (s : Separator) : items pos (l ++ [(w, s)]) = items pos l ++
    [(w.token (pos + Text.size (lead l)), s.token (pos + Text.size (lead l) + Text.size w.text))] := by
  induction l generalizing pos with
  | nil => rfl
  | cons x l ih =>
    obtain ⟨v, r⟩ := x
    simp only [List.cons_append, items, ih, lead_cons, Text.size_append, Nat.add_assoc]

theorem scan_lead {stop : Nat} {rest : List Char} (hstop : pos + Text.size (lead l) ≤ stop) :
    scan stop pos (lead l ++ rest) =
      (items pos l).flatMap (fun x => [x.1, x.2]) ++ scan stop (pos + Text.size (lead l)) rest := by
  induction l generalizing pos with
  | nil => rfl
  | cons x l ih =>
    obtain ⟨w, s⟩ := x
    simp only [lead_cons, Text.size_append] at hstop
    rw [lead_cons, List.append_assoc, List.append_assoc, scan_word w s.head?_text (by omega),
      scan_separator s (by omega), ih (by omega)]
    simp [items, Nat.add_assoc]

theorem items_stop_lt : ∀ x ∈ items pos l,
    x.1.span.stop < pos + Text.size (lead l) ∧ x.2.span.stop < pos + Text.size (lead l) := by
  induction l generalizing pos with
  | nil => simp [items]
  | cons x l ih =>
    obtain ⟨w, s⟩ := x
    have hsize := s.size_text
    intro y hy
    simp only [lead_cons, Text.size_append]
    rcases List.mem_cons.mp hy with rfl | hy
    · simp only [Word.token, Separator.token, Token.ofLexeme]
      omega
    · have := ih y hy
      omega

theorem items_role (pos : Nat) {priority : Int} (hl : ∀ x ∈ l, x.2.priority = priority) : ∀ x ∈ items pos l,
    (x.1.Classified ∧ x.1.role = .atom) ∧ x.2.Classified ∧ x.2.role = .operator ∧ x.2.priority = priority := by
  induction l generalizing pos with
  | nil => simp [items]
  | cons x l ih =>
    obtain ⟨w, s⟩ := x
    obtain ⟨hs, hl⟩ := List.forall_mem_cons.mp hl
    refine List.forall_mem_cons.mpr ⟨⟨⟨Token.classified_ofLexeme _ _, w.role_token _⟩, Token.classified_ofLexeme _ _,
      s.role_operator, hs⟩, ih _ hl⟩

end
end Listing

/-! ### Trees -/

namespace Grammar

theorem Term.tree_tokens (t : Term) : Node.ofTokens t.tokens = ⟨[], [t.node]⟩ := by
  have hfeed := Term.feed t .empty (by decide)
  rw [Node.ofTokens_eq t.classified_of_mem]
  show (Spine.feed .empty t.tokens).tree = _
  rw [hfeed]
  rfl

/-- Words with operators of one priority between them are an expression, and its tree is their row. -/
theorem exists_expr_of_row {items : List (Token × Token)} {t : Token} {priority : Int}
    (hitems : ∀ x ∈ items,
      (x.1.Classified ∧ x.1.role = .atom) ∧ x.2.Classified ∧ x.2.role = .operator ∧ x.2.priority = priority)
    (ht : t.Classified ∧ t.role = .atom) :
    ∃ e : Expr, e.tokens = items.flatMap (fun x => [x.1, x.2]) ++ [t] ∧
      chainNode e.operands.1 e.operands.2 = .row items t ∧ ∀ x ∈ e.operands.2, x.1.priority = priority := by
  induction items using List.reverseRecOn generalizing t with
  | nil => exact ⟨.term (.words ⟨t, ht.1, ht.2⟩ []), rfl, chainNode_nil _, by simp [Expr.operands]⟩
  | append_singleton items x ih =>
    obtain ⟨u, op⟩ := x
    obtain ⟨hu, hop, hrole, hpriority⟩ := hitems (u, op) (by simp)
    obtain ⟨e, htokens, hnode, hops⟩ := ih (fun y hy => hitems y (by simp [hy])) hu
    refine ⟨.chain e ⟨op, hop, hrole⟩ [] (.words ⟨t, ht.1, ht.2⟩ []), ?_, ?_, ?_⟩
    · simp [Expr.tokens, Term.tokens, htokens]
    · rw [Expr.operands, chainNode_append (fun y hy => Int.le_of_eq (by rw [hops y hy]; exact hpriority)) (by simp),
        hnode, chainNode_nil, Node.row_concat]
      rfl
    · intro y hy
      rcases List.mem_append.mp hy with hy | hy
      · exact hops y hy
      · rw [List.mem_singleton.mp hy]
        exact hpriority

end Grammar

namespace Listing

/-- The brackets around some words, perhaps with a name in front of them. -/
structure Frame where
  name : Option Word
  opening : List Char
  closing : List Char
  matching : closerOf? opening = some closing

/-- Words, each with the separator before it. -/
def tail (r : List (Separator × Word)) : List Char := r.flatMap fun x => x.1.text ++ x.2.text

namespace Frame
variable (f : Frame)

/-- What comes before the first word. -/
def head : List Char := f.name.toList.flatMap (·.text) ++ f.opening

/-- The text around a word: the words before it, each with the separator after it, and the words after it, each with the
    separator before it. -/
def around (l : List (Word × Separator)) (w : Word) (r : List (Separator × Word)) : List Char :=
  f.head ++ lead l ++ w.text ++ tail r ++ f.closing

theorem around_cons (l : List (Word × Separator)) (w x : Word) (s : Separator) (r : List (Separator × Word)) :
    f.around l w ((s, x) :: r) = f.around (l ++ [(w, s)]) x r := by
  simp [around, tail, lead]

/-- Where a word starts, after the words before it. -/
def start (l : List (Word × Separator)) : Nat := Text.size f.head + Text.size (lead l)

/-- The brackets as tokens, the closing one at an offset. -/
def brackets (stop : Nat) : Grammar.Brackets where
  opening := .ofLexeme f.opening ⟨Text.size (f.name.toList.flatMap (·.text)), Text.size f.head⟩
  closing := .ofLexeme f.closing ⟨stop, stop + Text.size f.closing⟩
  opening_classified := Token.classified_ofLexeme _ _
  closing_classified := Token.classified_ofLexeme _ _
  matching := f.matching

theorem lexeme?_opening (rest : List Char) : lexeme? (f.opening ++ rest) = some (f.opening, rest) := by
  rcases closerOf?_eq_some f.matching with ⟨h, -⟩ | ⟨h, -⟩ | ⟨h, -⟩ <;> rw [h] <;> rfl

theorem lexeme?_closing : lexeme? f.closing = some (f.closing, []) := by
  rcases closerOf?_eq_some f.matching with ⟨-, h⟩ | ⟨-, h⟩ | ⟨-, h⟩ <;> rw [h] <;> rfl

theorem head?_opening (rest : List Char) : ∀ c ∈ (f.opening ++ rest).head?, continuesLexeme c = false := by
  rcases closerOf?_eq_some f.matching with ⟨h, -⟩ | ⟨h, -⟩ | ⟨h, -⟩ <;> rw [h] <;> simp <;> decide

theorem head?_closing : ∀ c ∈ f.closing.head?, continuesLexeme c = false := by
  rcases closerOf?_eq_some f.matching with ⟨-, h⟩ | ⟨-, h⟩ | ⟨-, h⟩ <;> rw [h] <;> simp <;> decide

theorem scan_head {stop : Nat} {rest : List Char} (hstop : Text.size f.head ≤ stop) :
    scan stop 0 (f.head ++ rest) =
      f.name.toList.map (·.token 0) ++ (f.brackets 0).opening :: scan stop (Text.size f.head) rest := by
  have hopening : ∀ pos, pos + Text.size f.opening ≤ stop → scan stop pos (f.opening ++ rest) =
      .ofLexeme f.opening ⟨pos, pos + Text.size f.opening⟩ :: scan stop (pos + Text.size f.opening) rest := by
    intro pos hpos
    rw [scan_of_lexeme (f.lexeme?_opening rest), if_pos hpos]
  cases hname : f.name with
  | none =>
    simp only [head, hname, Option.toList_none, List.flatMap_nil, List.nil_append] at hstop ⊢
    rw [hopening 0 (by omega)]
    simp [brackets, head, hname]
  | some w =>
    simp only [head, hname, Option.toList_some, List.flatMap_cons, List.flatMap_nil, List.append_nil,
      Text.size_append] at hstop ⊢
    rw [List.append_assoc, scan_word w (f.head?_opening rest) (by omega), Nat.zero_add, hopening _ hstop]
    simp [brackets, head, hname]

theorem tokenize_around (l : List (Word × Separator)) (w : Word) :
    tokenize (f.around l w []) ⟨0, Text.size (f.around l w [])⟩ =
      f.name.toList.map (·.token 0) ++ (f.brackets (f.start l + Text.size w.text)).opening ::
        ((items (Text.size f.head) l).flatMap (fun x => [x.1, x.2]) ++ [w.token (f.start l)] ++
          [(f.brackets (f.start l + Text.size w.text)).closing]) := by
  have hsize : Text.size (f.around l w []) =
      Text.size f.head + Text.size (lead l) + Text.size w.text + Text.size f.closing := by
    simp [around, tail, Nat.add_assoc]
  have htext : f.around l w [] = f.head ++ (lead l ++ (w.text ++ f.closing)) := by simp [around, tail]
  have hscan := tokenize_eq_scan [] (f.around l w []) (Text.size (f.around l w []))
  rw [List.nil_append, Text.size_nil] at hscan
  rw [hscan, hsize, htext, scan_head f (by omega), scan_lead (by omega), scan_word w f.head?_closing (by omega),
    scan_of_lexeme f.lexeme?_closing, if_pos (by omega), scan_eq_nil (by omega)]
  simp [brackets, start, Nat.add_assoc]

/-- The tree of the text around a word is one element with a row below it. The words up to this one make the row that is
    reached by going down as often as there are words after it. -/
theorem tree_around {l : List (Word × Separator)} {w : Word} {r : List (Separator × Word)} {priority : Int}
    (hl : ∀ x ∈ l, x.2.priority = priority) (hr : ∀ x ∈ r, x.1.priority = priority) :
    ∃ ts n, Node.ofTokens (tokenize (f.around l w r) ⟨0, Text.size (f.around l w r)⟩) = ⟨[], [⟨ts, [n]⟩]⟩ ∧
      n.at? (List.replicate r.length 0) = some (.row (items (Text.size f.head) l) (w.token (f.start l))) := by
  induction r generalizing l w with
  | nil =>
    obtain ⟨e, htokens, hnode, -⟩ := Grammar.exists_expr_of_row (t := w.token (f.start l))
      (items_role (Text.size f.head) hl) ⟨Token.classified_ofLexeme _ _, w.role_token (f.start l)⟩
    let words : List Grammar.Word :=
      f.name.toList.map fun v => ⟨v.token 0, Token.classified_ofLexeme _ _, v.role_token 0⟩
    let term : Grammar.Term := .group words (f.brackets (f.start l + Text.size w.text)) [] (.last e)
    have hterm : term.tokens = tokenize (f.around l w []) ⟨0, Text.size (f.around l w [])⟩ := by
      rw [tokenize_around]
      simp [term, words, Grammar.Term.tokens, Grammar.Block.tokens, htokens, Function.comp_def]
    rw [← hterm, term.tree_tokens]
    refine ⟨_, _, rfl, ?_⟩
    rw [hnode]
    rfl
  | cons x r ih =>
    obtain ⟨s, x⟩ := x
    obtain ⟨hs, hr⟩ := List.forall_mem_cons.mp hr
    have hl' : ∀ y ∈ l ++ [(w, s)], y.2.priority = priority := by
      refine List.forall_mem_append.mpr ⟨hl, ?_⟩
      simpa using hs
    obtain ⟨ts, n, htree, hrow⟩ := ih (w := x) hl' hr
    rw [around_cons]
    refine ⟨ts, n, htree, ?_⟩
    rw [items_concat, Node.row_concat] at hrow
    exact Node.at?_left hrow

theorem break_notMem_around (l : List (Word × Separator)) (w : Word) (r : List (Separator × Word)) :
    '\n' ∉ f.around l w r := by
  have hbrackets : '\n' ∉ f.opening ∧ '\n' ∉ f.closing := by
    rcases closerOf?_eq_some f.matching with ⟨ho, hc⟩ | ⟨ho, hc⟩ | ⟨ho, hc⟩ <;> rw [ho, hc] <;> decide
  simp [around, head, lead, tail, hbrackets, Word.break_notMem_text, Separator.break_notMem_text]

end Frame
end Listing
end SiblingSwap
