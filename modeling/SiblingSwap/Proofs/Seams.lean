import SiblingSwap.Proofs.Spelling
import SiblingSwap.Proofs.Window

/-! Symbols next to words, without blanks. No lexeme but a word begins or ends with a letter, a digit or an underscore,
    so a lexeme that starts in such a word is a word, and a symbol ends where such a word begins. The one seam that
    moves is that before `^=`: its first sign is also a character of words, and the word before it takes the sign
    along. -/

namespace SiblingSwap

/-! ### The table -/

/-- A letter, a digit or the underscore: what words have for themselves. -/
def isIdentifierChar (c : Char) : Bool := c.isAlphanum || c == '_'

/-- A word of letters, digits and underscores. -/
def IsIdentifier (w : List Char) : Prop := w ≠ [] ∧ w.all isIdentifierChar = true

instance (w : List Char) : Decidable (IsIdentifier w) := inferInstanceAs (Decidable (_ ∧ _))

/-- The table lists the text as a symbol with this role and tier. -/
def IsSymbol (role : Role) (tier : Tier) (text : List Char) : Prop :=
  ∃ texts, .symbols texts role tier ∈ rules ∧ text ∈ texts.map String.toList

theorem no_identifierChar_in_signs : ∀ s ∈ shapes, (match s with
    | .literal text => text.all (!isIdentifierChar ·)
    | .quoted q => !isIdentifierChar q
    | _ => true) = true := by
  decide

theorem head_of_symbol : ∀ s ∈ shapes, (match s with
    | .literal text => text == ['^', '='] || text.head?.any (!isWordChar ·)
    | _ => true) = true := by
  decide

theorem classify?_of_mem_texts : ∀ r ∈ rules, ∀ text ∈ r.texts, r.classify? text = some (classify text) := by decide

section
variable {role : Role} {tier : Tier} {text : List Char}

theorem IsSymbol.literal_mem (h : IsSymbol role tier text) : .literal text ∈ shapes := by
  obtain ⟨texts, hr, hmem⟩ := h
  obtain ⟨t, ht, rfl⟩ := List.mem_map.mp hmem
  exact List.mem_flatMap.mpr ⟨_, hr, List.mem_map.mpr ⟨t, ht, rfl⟩⟩

theorem IsSymbol.classify_eq (h : IsSymbol role tier text) : classify text = (role, tier.priority) := by
  obtain ⟨texts, hr, hmem⟩ := h
  have hclassify := classify?_of_mem_texts _ hr text hmem
  have hlisted : (texts.any fun t => t.toList == text) = true := by
    obtain ⟨t, ht, rfl⟩ := List.mem_map.mp hmem
    exact List.any_eq_true.mpr ⟨t, ht, by simp⟩
  rw [Rule.classify?, if_pos hlisted] at hclassify
  exact (Option.some.inj hclassify).symm

end

/-! ### Where lexemes end -/

section
variable {s : Shape} {c : Char} {u op v w rest : List Char}

theorem isWordChar_of_isIdentifierChar (h : isIdentifierChar c = true) : isWordChar c = true := by
  unfold isIdentifierChar at h
  unfold isWordChar
  rw [h]
  rfl

theorem IsIdentifier.isWordChar (h : IsIdentifier w) : ∀ c ∈ w, isWordChar c = true :=
  fun c hc => isWordChar_of_isIdentifierChar (List.all_eq_true.mp h.2 c hc)

theorem Shape.begins_eq_false (hs : s ∈ shapes) (hword : s ≠ .word) (hc : isIdentifierChar c = true) :
    s.begins c = false := by
  have hsign := no_identifierChar_in_signs s hs
  cases s with
  | literal text =>
    cases text with
    | nil => exact absurd hs literal_nil_notMem_shapes
    | cons d text =>
      have hd : isIdentifierChar d = false := by simpa using (List.all_eq_true.mp hsign) d List.mem_cons_self
      have hne : d ≠ c := fun h => by simp [h, hc] at hd
      simpa [begins] using hne
  | quoted q =>
    have hne : c ≠ q := fun h => by simp [← h, hc] at hsign
    simpa [begins] using hne
  | angled =>
    have hne : c ≠ '<' := fun h => by simp [h, show isIdentifierChar '<' = false by decide] at hc
    simpa [begins] using hne
  | word => exact absurd rfl hword

theorem Shape.eq_word_of_spells (hs : s ∈ shapes) (h : s.Spells (w ++ [c])) (hc : isIdentifierChar c = true) :
    s = .word := by
  have hsign := no_identifierChar_in_signs s hs
  have hlast : ∀ {d : Char} {front : List Char}, w ++ [c] = front ++ [d] → c = d := fun h =>
    (List.cons.inj (List.append_inj_right' h rfl)).1
  cases s with
  | literal text =>
    obtain rfl : w ++ [c] = text := h
    have hnone := List.all_eq_true.mp hsign c (by simp)
    simp [hc] at hnone
  | quoted q =>
    obtain ⟨body, -, hw⟩ := h
    simp [← hlast hw, hc] at hsign
  | angled =>
    obtain ⟨name, -, hw⟩ := h
    rw [hlast hw] at hc
    exact absurd hc (by decide)
  | word => rfl

/-- A lexeme that starts with an identifier goes on as long as there are characters of words. -/
theorem lexeme?_identifier_append (hu : IsIdentifier u) (rest : List Char) :
    lexeme? (u ++ rest) = some (u ++ rest.takeWhile isWordChar, rest.dropWhile isWordChar) := by
  have hother : ∀ r ∈ shapes, r ≠ .word → r.match? (u ++ rest) = none := by
    intro r hr hword
    obtain ⟨c, u, rfl⟩ := List.exists_cons_of_ne_nil hu.1
    exact Shape.match?_eq_none (Shape.begins_eq_false hr hword (List.all_eq_true.mp hu.2 c List.mem_cons_self))
  rw [lexeme?_eq_match? (s := .word) (by decide) hother]
  simp only [Shape.match?, List.takeWhile_append_of_pos hu.isWordChar, List.dropWhile_append_of_pos hu.isWordChar]
  split
  · next hnil => exact absurd (List.append_eq_nil_iff.mp hnil).1 hu.1
  · rfl

/-- A symbol ends where an identifier begins. -/
theorem lexeme?_symbol_append (hop : .literal op ∈ shapes) (hv : v.all isIdentifierChar = true) :
    lexeme? (op ++ v) = some (op, v) := by
  have hlexeme : IsLexeme op := ⟨_, hop, rfl⟩
  cases hl : lexeme? (op ++ v) with
  | none => exact absurd (List.prefix_append op v) (lexeme?_eq_none_iff.mp hl op hlexeme)
  | some m =>
    obtain ⟨text, rest⟩ := m
    obtain ⟨more, rfl⟩ := lexeme?_longest hl hlexeme (List.prefix_append op v)
    have hrest : v = more ++ rest := by simpa using eq_append_of_lexeme? hl
    obtain rfl | ⟨front, c, rfl⟩ := List.eq_nil_or_concat' more
    · simp [hrest]
    · -- A longer lexeme would end in the identifier and hence be a word, but the symbol has a sign that no word has.
      obtain ⟨s, hs, hspells⟩ := isLexeme_of_lexeme? hl
      have hc : isIdentifierChar c = true := List.all_eq_true.mp hv c (by simp [hrest])
      obtain rfl := Shape.eq_word_of_spells (w := op ++ front) hs (by rwa [List.append_assoc]) hc
      have hmatch : Shape.match? (.literal op) op = some (op, []) := by simp [Shape.match?]
      obtain ⟨d, hd, hsign⟩ := exists_mem_not_isWordChar hop (by simp) hmatch
      rw [hspells.2 d (by simp [hd])] at hsign
      cases hsign

end

/-! ### Lexemes side by side -/

/-- The tokens of lexemes that follow each other without a gap, the first of them at offset `pos`. -/
def sideBySide (pos : Nat) : List (List Char) → List Token
  | [] => []
  | w :: ws => .ofLexeme w ⟨pos, pos + Text.size w⟩ :: sideBySide (pos + Text.size w) ws

/-- Each text is the lexeme at its place when all are put together. -/
def ReadApart : List (List Char) → Prop
  | [] => True
  | w :: ws => lexeme? (w ++ ws.flatten) = some (w, ws.flatten) ∧ ReadApart ws

theorem ReadApart.scan_flatten {ws : List (List Char)} (h : ReadApart ws) (pos : Nat) :
    scan (pos + Text.size ws.flatten) pos ws.flatten = sideBySide pos ws := by
  induction ws generalizing pos with
  | nil => exact scan_eq_nil (Nat.le_refl pos)
  | cons w ws ih =>
    obtain ⟨hlexeme, hws⟩ := h
    rw [List.flatten_cons, Text.size_append, ← Nat.add_assoc, scan_of_lexeme hlexeme, if_pos (Nat.le_add_right _ _),
      ih hws, sideBySide]

theorem ReadApart.tokenize_flatten {ws : List (List Char)} (h : ReadApart ws) :
    tokenize ws.flatten ⟨0, Text.size ws.flatten⟩ = sideBySide 0 ws := by
  have hscan := h.scan_flatten 0
  rw [Nat.zero_add] at hscan
  exact (tokenize_eq_scan [] ws.flatten _).trans hscan

theorem readApart_of_symbol {u w op v : List Char} (hu : IsIdentifier u) (hw : w.all isWordChar = true)
    (hop : .literal op ∈ shapes) (hhead : op.head?.any (!isWordChar ·) = true) (hv : IsIdentifier v) :
    ReadApart [u ++ w, op, v] := by
  obtain ⟨c, op, rfl⟩ : ∃ c op', op = c :: op' := by
    cases op with
    | nil => cases hhead
    | cons c op => exact ⟨c, op, rfl⟩
  have hc : isWordChar c = false := by simpa using hhead
  have hword := List.all_eq_true.mp hw
  refine ⟨?_, ?_, ?_, trivial⟩
  · rw [List.append_assoc, lexeme?_identifier_append hu, List.takeWhile_append_of_pos hword,
      List.dropWhile_append_of_pos hword]
    simp [hc]
  · simpa using lexeme?_symbol_append hop hv.2
  · simpa using lexeme?_word hv.1 hv.isWordChar

/-- An operator between two identifiers is read as the table says, also without blanks, if and only if it is not `^=`.
    Of that one the word before it takes the first sign, and an assignment is left. -/
theorem tokenize_unspaced_iff {u op v : List Char} {tier : Tier} (hu : IsIdentifier u)
    (hop : IsSymbol .operator tier op) (hv : IsIdentifier v) :
    let text := u ++ op ++ v
    let ts := tokenize text ⟨0, Text.size text⟩
    classify op = (.operator, tier.priority) ∧ (ts = sideBySide 0 [u, op, v] ↔ op ≠ ['^', '=']) ∧
      (op = ['^', '='] → ts = sideBySide 0 [u ++ ['^'], ['='], v]) := by
  intro text ts
  -- The word takes the characters of words that the operator begins with.
  have hread : ∀ w sign, op = w ++ sign → w.all isWordChar = true → .literal sign ∈ shapes →
      sign.head?.any (!isWordChar ·) = true → ts = sideBySide 0 [u ++ w, sign, v] := by
    intro w sign happ hw hsign hhead
    have htext : text = [u ++ w, sign, v].flatten := by simp [text, happ]
    rw [← (readApart_of_symbol hu hw hsign hhead hv).tokenize_flatten, ← htext]
  refine ⟨hop.classify_eq, ?_⟩
  by_cases hcaret : op = ['^', '=']
  · have hts := hread ['^'] ['='] hcaret rfl (by decide) rfl
    refine ⟨⟨fun h => ?_, fun h => absurd hcaret h⟩, fun _ => hts⟩
    have hfirst := congrArg Token.text (List.cons.inj (hts.symm.trans h)).1
    exact absurd hfirst (by simp [Token.ofLexeme])
  · have hhead := head_of_symbol _ hop.literal_mem
    have hts := hread [] op rfl rfl hop.literal_mem (by simpa [hcaret] using hhead)
    rw [List.append_nil] at hts
    exact ⟨iff_of_true hts hcaret, fun h => absurd h hcaret⟩

/-- The comparison in `Vec<T` begins like a word in angle brackets. -/
theorem tokenize_unspaced_iff_of_open_angle :
    (IsIdentifier "Vec".toList ∧ IsSymbol .operator .compare ['<'] ∧ IsIdentifier ['T']) ∧
      tokenize "Vec<T".toList ⟨0, 5⟩ =
        [⟨"Vec".toList, 32, .atom, ⟨0, 3⟩⟩, ⟨['<'], 11, .operator, ⟨3, 4⟩⟩, ⟨['T'], 32, .atom, ⟨4, 5⟩⟩] := by
  have hop : IsSymbol .operator .compare ['<'] := ⟨["<", ">"], by simp [rules], by decide⟩
  obtain ⟨-, hread, -⟩ := tokenize_unspaced_iff (u := "Vec".toList) (v := ['T']) (by decide) hop (by decide)
  exact ⟨⟨by decide, hop, by decide⟩, hread.mpr (by decide)⟩

/-- In `a^=b` the operator is no token: the word is `a^`, and what follows it is `=`. -/
theorem exists_operator_not_read :
    IsIdentifier ['a'] ∧ IsSymbol .operator .assign ['^', '='] ∧ IsIdentifier ['b'] ∧
      tokenize "a^=b".toList ⟨0, 4⟩ =
        [⟨['a', '^'], 32, .atom, ⟨0, 2⟩⟩, ⟨['='], 6, .operator, ⟨2, 3⟩⟩, ⟨['b'], 32, .atom, ⟨3, 4⟩⟩] ∧
      tokenize "a^=b".toList ⟨0, 4⟩ ≠ sideBySide 0 [['a'], ['^', '='], ['b']] := by
  have hop : IsSymbol .operator .assign ['^', '='] :=
    ⟨["+=", "-=", "*=", "%=", "&=", "|=", "^="], by simp [rules], by decide⟩
  exact ⟨by decide, hop, by decide, by decide +kernel, by decide +kernel⟩

end SiblingSwap
