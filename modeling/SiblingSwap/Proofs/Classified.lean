import SiblingSwap.Token.Rule

/-! Classified tokens: those whose role and priority are the ones that the rules give to their text. The tiers keep
    four kinds of tokens apart, and that is all the growth of a tree needs to know about the rules: an opening bracket
    binds more loosely than anything else, a closer binds at most as tightly as the end of a statement, an operator
    binds more tightly than that, and no other opener has the priority of a bracket. -/

namespace SiblingSwap

/-! ### Ranks -/

/-- The priorities that the role leaves to a token that is no opening bracket. -/
def Role.allows : Role → Int → Bool
  | .atom, p => p = atomPriority
  | .opener, p => 0 < p
  | .closer, p => 0 < p && p ≤ 3
  | .operator, p => 3 < p

/-- The role and priority `c` of a text put it where its kind belongs among the tiers. -/
def Ranked (text : List Char) (c : Role × Int) : Prop :=
  if (closerOf? text).isSome then c = (.opener, 0) else c.1.allows c.2

instance (text : List Char) (c : Role × Int) : Decidable (Ranked text c) :=
  inferInstanceAs (Decidable (if (closerOf? text).isSome then _ else _))

/-- The texts that a rule classifies. -/
def Rule.texts : Rule → List (List Char)
  | symbols texts _ _ | keywords texts _ _ => texts.map String.toList
  | atoms _ => []

theorem Rule.mem_texts_of_classify? {r : Rule} {text : List Char} {c : Role × Int} (h : r.classify? text = some c) :
    text ∈ r.texts := by
  cases r with
  | symbols texts role tier | keywords texts role tier =>
    simp only [classify?, Option.ite_none_right_eq_some, List.any_eq_true, beq_iff_eq] at h
    exact List.mem_map.mpr h.1
  | atoms shape => simp [classify?] at h

theorem ranked_of_mem_rules : ∀ r ∈ rules, ∀ text ∈ r.texts, ∀ c ∈ r.classify? text, Ranked text c := by decide

theorem closerOf?_eq_some {text closer : List Char} (h : closerOf? text = some closer) :
    (text = ['('] ∧ closer = [')']) ∨ (text = ['['] ∧ closer = [']']) ∨ (text = ['\x7b'] ∧ closer = ['\x7d']) := by
  unfold closerOf? at h
  split at h <;> simp_all

theorem classify_of_closerOf? {text closer : List Char} (h : closerOf? text = some closer) :
    classify text = (.opener, 0) := by
  rcases closerOf?_eq_some h with ⟨rfl, -⟩ | ⟨rfl, -⟩ | ⟨rfl, -⟩ <;> decide

theorem ranked_classify (text : List Char) : Ranked text (classify text) := by
  cases hc : closerOf? text with
  | some closer =>
    rw [classify_of_closerOf? hc]
    simp [Ranked, hc]
  | none =>
    unfold classify
    cases h : rules.findSome? (Rule.classify? text) with
    | none => simp [Ranked, hc, Role.allows]
    | some c =>
      obtain ⟨r, hr, hrc⟩ := List.exists_of_findSome?_eq_some h
      exact ranked_of_mem_rules r hr text (Rule.mem_texts_of_classify? hrc) c hrc

theorem exists_rule_of_classify_ne {text : List Char} (h : classify text ≠ (.atom, atomPriority)) :
    ∃ r ∈ rules, text ∈ r.texts := by
  unfold classify at h
  cases hfind : rules.findSome? (Rule.classify? text) with
  | none => simp [hfind] at h
  | some c =>
    obtain ⟨r, hr, hc⟩ := List.exists_of_findSome?_eq_some hfind
    exact ⟨r, hr, Rule.mem_texts_of_classify? hc⟩

/-! ### Priorities of operators -/

/-- The priorities that operators have, and nothing else. -/
def operatorPriorities : List Int := [4, 5, 6, 7, 8, 10, 11, 12, 13]

theorem operator_iff_of_mem_texts : ∀ r ∈ rules, ∀ text ∈ r.texts,
    ((classify text).1 = .operator ↔ (classify text).2 ∈ operatorPriorities) := by decide

theorem operator_iff (text : List Char) : (classify text).1 = .operator ↔ (classify text).2 ∈ operatorPriorities := by
  by_cases h : classify text = (.atom, atomPriority)
  · rw [h]
    decide
  · obtain ⟨r, hr, hmem⟩ := exists_rule_of_classify_ne h
    exact operator_iff_of_mem_texts r hr text hmem

/-! ### Tokens -/

namespace Token

/-- The role and priority of a token are those of its text. -/
def Classified (t : Token) : Prop := t.role = (classify t.text).1 ∧ t.priority = (classify t.text).2

instance (t : Token) : Decidable t.Classified := inferInstanceAs (Decidable (_ ∧ _))

theorem classified_ofLexeme (text : List Char) (span : Span) : (ofLexeme text span).Classified := ⟨rfl, rfl⟩

variable {t : Token}

theorem Classified.ranked (h : t.Classified) : Ranked t.text (t.role, t.priority) := by
  rw [h.1, h.2]
  exact ranked_classify t.text

theorem Classified.of_bracket (h : t.Classified) {closer : List Char} (hc : closerOf? t.text = some closer) :
    t.role = .opener ∧ t.priority = 0 := by
  simpa [Ranked, hc] using h.ranked

theorem Classified.closerOf?_eq_none (h : t.Classified) (hr : t.role ≠ .opener) : closerOf? t.text = none := by
  cases hc : closerOf? t.text with
  | none => rfl
  | some closer => exact absurd (h.of_bracket hc).1 hr

theorem Classified.priority_pos (h : t.Classified) (hc : closerOf? t.text = none) : 0 < t.priority := by
  have hr := h.ranked
  simp only [Ranked, hc, Option.isSome_none, Bool.false_eq_true, ↓reduceIte] at hr
  cases ht : t.role <;> simp only [ht, Role.allows, Bool.and_eq_true, decide_eq_true_eq] at hr
  · rw [hr]
    decide
  · exact hr
  · exact hr.1
  · omega

theorem Classified.priority_of_atom (h : t.Classified) (hr : t.role = .atom) : t.priority = atomPriority := by
  simpa [Ranked, Role.allows, h.closerOf?_eq_none (by simp [hr]), hr] using h.ranked

theorem Classified.lt_priority_of_operator (h : t.Classified) (hr : t.role = .operator) : 3 < t.priority := by
  simpa [Ranked, Role.allows, h.closerOf?_eq_none (by simp [hr]), hr] using h.ranked

theorem Classified.operator_iff (h : t.Classified) : t.role = .operator ↔ t.priority ∈ operatorPriorities := by
  rw [h.1, h.2]
  exact SiblingSwap.operator_iff t.text

theorem Classified.of_stop (h : t.Classified) (ht : t.text = [';'] ∨ t.text = ['\n']) :
    t.role = .closer ∧ t.priority = 3 := by
  rw [h.1, h.2]
  rcases ht with ht | ht <;> rw [ht] <;> decide

theorem Classified.of_closing (h : t.Classified) {text : List Char} (hc : closerOf? text = some t.text) :
    t.role = .closer ∧ t.text ≠ ['\n'] := by
  rw [h.1]
  rcases closerOf?_eq_some hc with ⟨-, ht⟩ | ⟨-, ht⟩ | ⟨-, ht⟩ <;> rw [ht] <;> decide

end Token
end SiblingSwap
