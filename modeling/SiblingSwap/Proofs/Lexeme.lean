import Mathlib.Data.List.TakeWhile
import SiblingSwap.Proofs.Scan

/-! What follows a text matters little to its lexemes. Only a character that can stand inside a lexeme makes the last
    one longer, and only a quote that nothing closed before reaches over it. -/

namespace SiblingSwap
namespace Shape

/-! ### Shapes at the head of a text -/

/-- A lexeme of this shape may begin with the character. -/
def begins (c : Char) : Shape → Bool
  | literal text => text.isEmpty || text.head? == some c
  | quoted q => c == q
  | angled => c == '<'
  | word => isWordChar c

/-- A lexeme of this shape may have the character in a later place. Quoted text, which may hold anything, is left
    out. -/
def continues (c : Char) : Shape → Bool
  | literal text => text.tail.contains c
  | quoted _ => false
  | angled => isWordChar c || c == '>'
  | word => isWordChar c

variable {s : Shape} {c q : Char} {cs after : List Char}

theorem match?_eq_none (h : s.begins c = false) : s.match? (c :: cs) = none := by
  cases s with
  | literal text =>
    cases text with
    | nil => simp [begins] at h
    | cons d text =>
      have hd : d ≠ c := by simpa [begins] using h
      simp [match?, hd]
  | quoted q =>
    have hc : c ≠ q := by simpa [begins] using h
    simp [match?, hc]
  | angled =>
    have hc : c ≠ '<' := by simpa [begins] using h
    unfold match?
    split <;> simp_all
  | word =>
    have hc : isWordChar c = false := h
    simp [match?, hc]

theorem exists_begins_of_match? (hs : s ≠ literal []) {text rest : List Char} (h : s.match? cs = some (text, rest)) :
    ∃ c more, text = c :: more ∧ s.begins c = true := by
  obtain ⟨c, more, rfl⟩ := List.exists_cons_of_ne_nil (ne_nil_of_match? hs h)
  refine ⟨c, more, rfl, ?_⟩
  by_contra hbegins
  rw [eq_append_of_match? h, List.cons_append, match?_eq_none (by simpa using hbegins)] at h
  cases h

theorem bne_of_notMem (hq : q ∉ cs) : ∀ c ∈ cs, (c != q) = true := by
  intro c hc
  simpa using fun he : c = q => hq (he ▸ hc)

theorem quoted_match?_of_mem {before rest : List Char} (hq : q ∉ before) :
    (quoted q).match? (q :: (before ++ q :: rest)) = some (q :: before ++ [q], rest) := by
  have hall := bne_of_notMem hq
  simp [match?, List.dropWhile_append_of_pos hall, List.takeWhile_append_of_pos hall]

theorem quoted_match?_of_notMem (hq : q ∉ cs) : (quoted q).match? (q :: cs) = none := by
  simp [match?, List.dropWhile_eq_nil_iff.mpr (bne_of_notMem hq)]

theorem angled_match? : angled.match? ('<' :: cs) =
    if (cs.dropWhile isWordChar).head? = some '>' then
      some ('<' :: cs.takeWhile isWordChar ++ ['>'], (cs.dropWhile isWordChar).tail)
    else none := by
  simp only [match?]
  split
  · next rest hdrop => simp [hdrop]
  · next hdrop =>
    rw [if_neg fun hhead => ?_]
    obtain ⟨rest, hrest⟩ := List.head?_eq_some_iff.mp hhead
    exact hdrop rest hrest

theorem takeWhile_append_of_head (p : Char → Bool) (cs : List Char) (h : ∀ c ∈ after.head?, p c = false) :
    (cs ++ after).takeWhile p = cs.takeWhile p ∧ (cs ++ after).dropWhile p = cs.dropWhile p ++ after := by
  induction cs with
  | nil => cases after <;> simp_all
  | cons c cs ih =>
    cases hc : p c with
    | false => simp [hc]
    | true => simpa [hc] using ih

/-- A text that goes on with a character of no use to the shape still has the same lexeme at its head, unless a quote
    opens it that is closed only in what follows. -/
theorem match?_append (hne : cs ≠ []) (hafter : ∀ c ∈ after.head?, s.continues c = false)
    (hquote : ∀ q, s = quoted q → cs.head? = some q → q ∈ cs.tail ∨ q ∉ after) :
    s.match? (cs ++ after) = (s.match? cs).map fun m => (m.1, m.2 ++ after) := by
  cases s with
  | literal text =>
    by_cases hp : text <+: cs
    · simp [match?, hp, hp.trans (List.prefix_append _ after), List.drop_append_of_le_length hp.length_le]
    · -- A symbol that needs the text after it has a character of that text in a later place.
      have hnot : ¬ text <+: cs ++ after := by
        intro happ
        rcases List.prefix_or_prefix_of_prefix happ (List.prefix_append cs after) with h | ⟨more, rfl⟩
        · exact hp h
        · cases more with
          | nil => simp at hp
          | cons d more =>
            obtain ⟨rest, rfl⟩ := (List.prefix_append_right_inj _).mp happ
            simpa [continues, List.tail_append_of_ne_nil hne] using hafter d (by simp)
      simp [match?, hp, hnot]
  | quoted q =>
    obtain ⟨c, cs, rfl⟩ := List.exists_cons_of_ne_nil hne
    by_cases hc : c = q
    · subst hc
      by_cases hmem : c ∈ cs
      · obtain ⟨before, rest, rfl, hbefore⟩ := List.eq_append_cons_of_mem hmem
        have happ : c :: (before ++ c :: rest) ++ after = c :: (before ++ c :: (rest ++ after)) := by simp
        rw [happ, quoted_match?_of_mem hbefore, quoted_match?_of_mem hbefore]
        rfl
      · have hnot : c ∉ after := (hquote c rfl rfl).resolve_left hmem
        rw [List.cons_append, quoted_match?_of_notMem hmem, quoted_match?_of_notMem (by simp [hmem, hnot])]
        rfl
    · have hbegins : (quoted q).begins c = false := by simpa [begins] using hc
      rw [List.cons_append, match?_eq_none hbegins, match?_eq_none hbegins]
      rfl
  | angled =>
    obtain ⟨c, cs, rfl⟩ := List.exists_cons_of_ne_nil hne
    by_cases hc : c = '<'
    · subst hc
      have hword : ∀ d ∈ after.head?, isWordChar d = false ∧ d ≠ '>' := fun d hd => by
        simpa [continues] using hafter d hd
      obtain ⟨htake, hdrop⟩ := takeWhile_append_of_head isWordChar cs fun d hd => (hword d hd).1
      rw [List.cons_append, angled_match?, angled_match?, htake, hdrop]
      cases cs.dropWhile isWordChar with
      | nil =>
        have hhead : after.head? ≠ some '>' := fun h => (hword _ h).2 rfl
        simp [hhead]
      | cons d rest => by_cases hd : d = '>' <;> simp [hd]
    · have hbegins : angled.begins c = false := by simpa [begins] using hc
      rw [List.cons_append, match?_eq_none hbegins, match?_eq_none hbegins]
      rfl
  | word =>
    obtain ⟨htake, hdrop⟩ := takeWhile_append_of_head isWordChar cs hafter
    simp only [match?, htake, hdrop]
    split <;> simp_all

end Shape

/-! ### Lexemes -/

/-- The quotes of the table. -/
def quotes : List Char := ['"', '\'']

/-- The character may stand in a lexeme, outside quotes, after its first one. -/
def continuesLexeme (c : Char) : Bool := shapes.any (·.continues c)

theorem mem_quotes_iff {q : Char} : q ∈ quotes ↔ q = '"' ∨ q = '\'' := by simp [quotes]

theorem quoted_mem_shapes {q : Char} (hq : q ∈ quotes) : Shape.quoted q ∈ shapes := by
  rcases mem_quotes_iff.mp hq with rfl | rfl <;> decide

theorem mem_quotes_of_quoted {q : Char} (hq : Shape.quoted q ∈ shapes) : q ∈ quotes := by
  have htable : ∀ s ∈ shapes, (match s with | .quoted q => quotes.contains q | _ => true) = true := by decide
  simpa using htable _ hq

theorem eq_quoted_of_begins {q : Char} (hq : q ∈ quotes) : ∀ s ∈ shapes, s.begins q = true → s = .quoted q := by
  rcases mem_quotes_iff.mp hq with rfl | rfl <;> decide

variable {cs after : List Char}

theorem findSome?_congr {α β : Type} {f g : α → Option β} {l : List α} (h : ∀ a ∈ l, f a = g a) :
    l.findSome? f = l.findSome? g := by
  induction l with
  | nil => rfl
  | cons a l ih => rw [List.findSome?_cons, List.findSome?_cons, h a (by simp), ih fun b hb => h b (by simp [hb])]

theorem lexeme?_append (hne : cs ≠ []) (hafter : ∀ c ∈ after.head?, continuesLexeme c = false)
    (hquote : ∀ q ∈ quotes, cs.head? = some q → q ∈ cs.tail ∨ q ∉ after) :
    lexeme? (cs ++ after) = (lexeme? cs).map fun m => (m.1, m.2 ++ after) := by
  rw [lexeme?, lexeme?, List.map_findSome?]
  refine findSome?_congr fun s hs => Shape.match?_append hne (fun c hc => ?_) fun q hq => ?_
  · have hall := hafter c hc
    simp only [continuesLexeme, List.any_eq_false, Bool.not_eq_true] at hall
    exact hall s hs
  · subst hq
    exact hquote q (mem_quotes_of_quoted hs)

theorem lexeme?_eq_match? {s : Shape} (hs : s ∈ shapes) (hother : ∀ r ∈ shapes, r ≠ s → r.match? cs = none) :
    lexeme? cs = s.match? cs := by
  cases h : lexeme? cs with
  | none => exact (List.findSome?_eq_none_iff.mp h s hs).symm
  | some m =>
    obtain ⟨r, hr, hm⟩ := List.exists_of_findSome?_eq_some h
    by_cases hrs : r = s
    · rw [← hrs, hm]
    · rw [hother r hr hrs] at hm
      cases hm

theorem lexeme?_quote {q : Char} (hq : q ∈ quotes) : lexeme? (q :: cs) = (Shape.quoted q).match? (q :: cs) := by
  refine lexeme?_eq_match? (quoted_mem_shapes hq) fun r hr hne => Shape.match?_eq_none ?_
  by_contra hbegins
  exact hne (eq_quoted_of_begins hq r hr (by simpa using hbegins))

theorem isSome_lexeme?_quote {q : Char} (hq : q ∈ quotes) : (lexeme? (q :: cs)).isSome ↔ q ∈ cs := by
  rw [lexeme?_quote hq]
  constructor
  · intro h
    by_contra hmem
    rw [Shape.quoted_match?_of_notMem hmem] at h
    cases h
  · intro hmem
    obtain ⟨before, rest, rfl, hbefore⟩ := List.eq_append_cons_of_mem hmem
    rw [Shape.quoted_match?_of_mem hbefore]
    rfl

section
variable (hafter : ∀ c ∈ after.head?, continuesLexeme c = false)
include hafter

theorem lexeme?_append_of_some {text rest : List Char} (h : lexeme? cs = some (text, rest)) :
    lexeme? (cs ++ after) = some (text, rest ++ after) := by
  have hne : cs ≠ [] := by
    rintro rfl
    exact ne_nil_of_lexeme? h (List.append_eq_nil_iff.mp (eq_append_of_lexeme? h).symm).1
  rw [lexeme?_append hne hafter ?_, h]
  · rfl
  · intro q hq hhead
    obtain ⟨cs, rfl⟩ := List.head?_eq_some_iff.mp hhead
    exact Or.inl ((isSome_lexeme?_quote hq).mp (by simp [h]))

theorem lexeme?_append_of_none {c : Char} (h : lexeme? (c :: cs) = none) (hc : c ∈ quotes → c ∉ after) :
    lexeme? (c :: cs ++ after) = none := by
  rw [lexeme?_append (by simp) hafter ?_, h]
  · rfl
  · intro q hq hhead
    obtain rfl : c = q := Option.some.inj hhead
    exact Or.inr (hc hq)

end

/-- A quote that is closed only later takes all of the text before that into its lexeme. -/
theorem lexeme?_open_quote {q : Char} (hq : q ∈ quotes) (hopen : q ∉ cs) (hclose : q ∈ after) :
    ∃ text rest, lexeme? (q :: cs ++ after) = some (text, rest) ∧ Text.size (q :: cs) < Text.size text := by
  obtain ⟨before, rest, rfl, hbefore⟩ := List.eq_append_cons_of_mem hclose
  have happ : q :: cs ++ (before ++ q :: rest) = q :: (cs ++ before ++ q :: rest) := by simp
  refine ⟨q :: (cs ++ before) ++ [q], rest, ?_, ?_⟩
  · rw [happ, lexeme?_quote hq, Shape.quoted_match?_of_mem (by simp [hopen, hbefore])]
  · have := q.utf8Size_pos
    simp only [Text.size_cons, Text.size_append, Text.size_nil]
    omega

/-- All but words have a sign in them that no word has. -/
theorem exists_mem_not_isWordChar {s : Shape} (hs : s ∈ shapes) (hne : s ≠ .word) {text rest : List Char}
    (h : s.match? cs = some (text, rest)) : ∃ c ∈ text, isWordChar c = false := by
  have htable : ∀ s ∈ shapes, s ≠ .word →
      (match s with | .literal text => text.any (!isWordChar ·) | .quoted q => !isWordChar q | _ => true) = true := by
    decide
  have hsign := htable s hs hne
  obtain ⟨c, more, htext, hbegins⟩ := Shape.exists_begins_of_match? (fun he => literal_nil_notMem_shapes (he ▸ hs)) h
  cases s with
  | literal sign =>
    simp only [Shape.match?, Option.ite_none_right_eq_some, Option.some.injEq, Prod.mk.injEq] at h
    obtain ⟨-, rfl, -⟩ := h
    simpa using hsign
  | quoted q =>
    have hc : c = q := by simpa [Shape.begins] using hbegins
    exact ⟨c, by simp [htext], by simpa [hc] using hsign⟩
  | angled =>
    have hc : c = '<' := by simpa [Shape.begins] using hbegins
    exact ⟨c, by simp [htext], by rw [hc]; decide⟩
  | word => exact absurd rfl hne

theorem lexeme?_word {w : List Char} (hne : w ≠ []) (hw : ∀ c ∈ w, isWordChar c = true) :
    lexeme? w = some (w, []) := by
  have hother : ∀ r ∈ shapes, r ≠ .word → r.match? w = none := by
    intro r hr hword
    cases hm : r.match? w with
    | none => rfl
    | some m =>
      obtain ⟨c, hc, hsign⟩ := exists_mem_not_isWordChar hr hword hm
      have hmem : c ∈ w := by
        rw [Shape.eq_append_of_match? hm]
        exact List.mem_append_left _ hc
      rw [hw c hmem] at hsign
      cases hsign
  rw [lexeme?_eq_match? (s := .word) (by decide) hother]
  simp only [Shape.match?, List.takeWhile_eq_self_iff.mpr hw, List.dropWhile_eq_nil_iff.mpr hw]

/-! ### Scans -/

section
variable {stop pos : Nat} {c : Char} {text rest : List Char}

theorem scan_eq_nil (h : stop ≤ pos) : scan stop pos cs = [] := by
  rw [scan]
  split
  · rfl
  · next t rest hnext =>
    have hfound := (nextToken?_eq_some hnext).1
    have hstart := hfound.le_start
    have hstop := hfound.nonempty
    exact if_neg (by omega)

theorem scan_of_lexeme (h : lexeme? cs = some (text, rest)) :
    scan stop pos cs =
      if pos + Text.size text ≤ stop then
        .ofLexeme text ⟨pos, pos + Text.size text⟩ :: scan stop (pos + Text.size text) rest
      else [] := by
  have hnext : nextToken? pos cs = some (.ofLexeme text ⟨pos, pos + Text.size text⟩, rest) := by
    cases cs with
    | nil => exact absurd (eq_append_of_lexeme? h) (by simp [ne_nil_of_lexeme? h])
    | cons c cs => rw [nextToken?, h]
  rw [scan]
  split
  · simp_all
  · simp_all [Token.ofLexeme]

theorem scan_of_no_lexeme (h : lexeme? (c :: cs) = none) :
    scan stop pos (c :: cs) = scan stop (pos + c.utf8Size) cs := by
  rw [scan, scan, nextToken?, h]

theorem scan_open_quote (h : lexeme? (c :: cs) = none) (hc : c ∈ quotes) (hclose : c ∈ after) :
    scan (pos + Text.size (c :: cs)) pos (c :: cs ++ after) = [] := by
  have hopen : c ∉ cs := fun hmem => by simpa [h] using (isSome_lexeme?_quote hc).mpr hmem
  obtain ⟨text, rest, hl, hlt⟩ := lexeme?_open_quote hc hopen hclose
  rw [scan_of_lexeme hl, if_neg (by omega)]

end
end SiblingSwap
