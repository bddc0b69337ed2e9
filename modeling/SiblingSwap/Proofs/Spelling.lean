import SiblingSwap.Proofs.Lexeme

/-! The rules as a language. A shape stands for a set of texts, which is said here without a scan. What a shape finds at
    the head of a text is the longest start of the text in its set. No text of an earlier shape is a proper start of
    one of a later shape, so the first shape that finds anything finds the longest lexeme of all. -/

namespace SiblingSwap
namespace Shape

/-! ### The texts of a shape -/

/-- The text is one of this shape. -/
def Spells : Shape → List Char → Prop
  | literal text, w => w = text
  | quoted q, w => ∃ body, q ∉ body ∧ w = q :: body ++ [q]
  | angled, w => ∃ name, (∀ c ∈ name, isWordChar c = true) ∧ w = '<' :: name ++ ['>']
  | word, w => w ≠ [] ∧ ∀ c ∈ w, isWordChar c = true

variable {s r : Shape} {c q : Char} {cs a b text rest w : List Char}

theorem spells_of_match? (h : s.match? cs = some (text, rest)) : s.Spells text := by
  unfold match? at h
  split at h
  · simp only [Option.ite_none_right_eq_some, Option.some.injEq, Prod.mk.injEq] at h
    exact h.2.1.symm
  · next q c cs =>
    split at h
    · next hc =>
      split at h
      · simp only [Option.some.injEq, Prod.mk.injEq] at h
        refine ⟨cs.takeWhile (· != q), fun hmem => ?_, by rw [← h.1, hc]⟩
        simpa using List.mem_takeWhile_imp hmem
      · cases h
    · cases h
  · next cs =>
    split at h
    · simp only [Option.some.injEq, Prod.mk.injEq] at h
      exact ⟨cs.takeWhile isWordChar, fun c hc => List.mem_takeWhile_imp hc, h.1.symm⟩
    · cases h
  · split at h
    · cases h
    · next hne =>
      simp only [Option.some.injEq, Prod.mk.injEq] at h
      rw [← h.1]
      exact ⟨hne, fun c hc => List.mem_takeWhile_imp hc⟩
  · cases h

/-- Whatever text of the shape a text starts with, the shape finds one that is at least as long. -/
theorem exists_match?_of_spells (hw : s.Spells w) (hstart : w <+: cs) :
    ∃ text rest, s.match? cs = some (text, rest) ∧ w <+: text := by
  cases s with
  | literal text =>
    obtain rfl : w = text := hw
    exact ⟨w, cs.drop w.length, by simp [match?, hstart], List.prefix_refl w⟩
  | quoted q =>
    obtain ⟨body, hbody, rfl⟩ := hw
    obtain ⟨rest, rfl⟩ := hstart
    have happ : q :: body ++ [q] ++ rest = q :: (body ++ q :: rest) := by simp
    exact ⟨_, rest, by rw [happ, quoted_match?_of_mem hbody], List.prefix_refl _⟩
  | angled =>
    obtain ⟨name, hname, rfl⟩ := hw
    obtain ⟨rest, rfl⟩ := hstart
    have happ : '<' :: name ++ ['>'] ++ rest = '<' :: (name ++ '>' :: rest) := by simp
    obtain ⟨htake, hdrop⟩ : (name ++ '>' :: rest).takeWhile isWordChar = name ∧
        (name ++ '>' :: rest).dropWhile isWordChar = '>' :: rest := by
      rw [List.takeWhile_append_of_pos hname, List.dropWhile_append_of_pos hname]
      simp [show isWordChar '>' = false by decide]
    exact ⟨_, rest, by rw [happ, angled_match?, htake, hdrop]; rfl, List.prefix_refl _⟩
  | word =>
    obtain ⟨hne, hall⟩ := hw
    obtain ⟨rest, rfl⟩ := hstart
    have htake : (w ++ rest).takeWhile isWordChar = w ++ rest.takeWhile isWordChar :=
      List.takeWhile_append_of_pos hall
    refine ⟨w ++ rest.takeWhile isWordChar, (w ++ rest).dropWhile isWordChar, ?_, List.prefix_append _ _⟩
    simp only [match?, htake]
    split
    · next hnil => exact absurd (List.append_eq_nil_iff.mp hnil).1 hne
    · rfl

theorem begins_of_spells (h : s.Spells (c :: cs)) : s.begins c = true := by
  obtain ⟨text, rest, hmatch, -⟩ := exists_match?_of_spells h (List.prefix_refl _)
  by_contra hbegins
  rw [match?_eq_none (by simpa using hbegins)] at hmatch
  cases hmatch

/-- A text of the shape that a text with this first character starts with begins with the character or is empty. -/
theorem begins_of_prefix (h : s.Spells w) (hstart : w <+: c :: cs) : s.begins c = true := by
  cases w with
  | cons d w =>
    obtain rfl : d = c := (List.cons_prefix_cons.mp hstart).1
    exact begins_of_spells h
  | nil =>
    cases s with
    | literal text =>
      obtain rfl : [] = text := h
      rfl
    | quoted q | angled =>
      obtain ⟨body, -, hnil⟩ := h
      cases hnil
    | word => exact absurd rfl h.1

/-! ### The order of shapes -/

/-- To try the first shape before the second cuts no text of the second short: the texts of one begin or go on in a way
    that those of the other do not. -/
def spares : Shape → Shape → Bool
  | quoted q, r => !r.begins q
  | literal a, literal b => !a.isPrefixOf b || a == b
  | literal a, quoted q => !(literal a).begins q
  | literal a, angled => a.any fun c => !isWordChar c && c != '<' && c != '>'
  | literal a, word => a.any (!isWordChar ·)
  | angled, literal b => !b.tail.contains '>'
  | angled, quoted q => !angled.begins q
  | angled, angled => false
  | angled, word => true
  | word, _ => false

theorem eq_of_spares (h : s.spares r = true) (ha : s.Spells a) (hb : r.Spells b) (hab : a <+: b) : a = b := by
  have hright : ∀ q, r = quoted q → s.begins q = true := by
    rintro q rfl
    obtain ⟨body, -, rfl⟩ := hb
    exact begins_of_prefix ha hab
  cases s with
  | quoted q =>
    obtain ⟨body, -, rfl⟩ := ha
    obtain ⟨more, rfl⟩ := hab
    have hbegins := begins_of_spells (s := r) (c := q) (by simpa using hb)
    simp [spares, hbegins] at h
  | literal text =>
    obtain rfl : a = text := ha
    cases r with
    | literal text =>
      obtain rfl : b = text := hb
      simpa [spares, List.isPrefixOf_iff_prefix.mpr hab] using h
    | quoted q => simp [spares, hright q rfl] at h
    | angled =>
      obtain ⟨name, hname, rfl⟩ := hb
      obtain ⟨c, hc, hsign⟩ := List.any_eq_true.mp h
      have hmem := hab.subset hc
      simp only [List.mem_append, List.mem_cons, List.not_mem_nil, or_false] at hmem
      rcases hmem with (rfl | hmem) | rfl
      · simp at hsign
      · simp [hname c hmem] at hsign
      · simp at hsign
    | word =>
      obtain ⟨c, hc, hsign⟩ := List.any_eq_true.mp h
      simp [hb.2 c (hab.subset hc)] at hsign
  | angled =>
    obtain ⟨name, -, rfl⟩ := ha
    cases r with
    | literal text =>
      obtain rfl : b = text := hb
      obtain ⟨more, rfl⟩ := hab
      simp [spares] at h
    | quoted q => simp [spares, hright q rfl] at h
    | angled => simp [spares] at h
    | word => exact absurd (hb.2 '<' (hab.subset (by simp))) (by decide)
  | word => simp [spares] at h

theorem prefix_of_findSome? {l : List Shape} (hl : l.Pairwise fun s r => s.spares r = true)
    (h : l.findSome? (·.match? cs) = some (text, rest)) (hs : s ∈ l) (hw : s.Spells w) (hstart : w <+: cs) :
    w <+: text := by
  induction l with
  | nil => cases hs
  | cons r l ih =>
    obtain ⟨hfirst, hl⟩ := List.pairwise_cons.mp hl
    cases hm : r.match? cs with
    | none =>
      rw [List.findSome?_cons, hm] at h
      rcases List.mem_cons.mp hs with rfl | hs
      · obtain ⟨text', rest', hm', -⟩ := exists_match?_of_spells hw hstart
        rw [hm] at hm'
        cases hm'
      · exact ih hl h hs
    | some m =>
      rw [List.findSome?_cons, hm] at h
      obtain rfl : m = (text, rest) := Option.some.inj h
      rcases List.mem_cons.mp hs with rfl | hs
      · obtain ⟨text', rest', hm', hle⟩ := exists_match?_of_spells hw hstart
        rw [hm] at hm'
        cases hm'
        exact hle
      · -- Of two starts of one text one is a start of the other.
        have htext : text <+: cs := ⟨rest, (eq_append_of_match? hm).symm⟩
        rcases List.prefix_or_prefix_of_prefix hstart htext with hle | hle
        · exact hle
        · rw [eq_of_spares (hfirst s hs) (spells_of_match? hm) hw hle]

end Shape

/-! ### Lexemes -/

theorem pairwise_spares_shapes : shapes.Pairwise fun s r => s.spares r = true := by decide

/-- The text is a lexeme by some rule. -/
def IsLexeme (w : List Char) : Prop := ∃ s ∈ shapes, s.Spells w

section
variable {cs text rest w : List Char}

theorem lexeme?_longest (h : lexeme? cs = some (text, rest)) (hw : IsLexeme w) (hstart : w <+: cs) : w <+: text := by
  obtain ⟨s, hs, hw⟩ := hw
  exact Shape.prefix_of_findSome? pairwise_spares_shapes h hs hw hstart

theorem isLexeme_of_lexeme? (h : lexeme? cs = some (text, rest)) : IsLexeme text := by
  obtain ⟨s, hs, hm⟩ := List.exists_of_findSome?_eq_some h
  exact ⟨s, hs, Shape.spells_of_match? hm⟩

theorem lexeme?_eq_none_iff : lexeme? cs = none ↔ ∀ w, IsLexeme w → ¬w <+: cs := by
  constructor
  · rintro h w ⟨s, hs, hw⟩ hstart
    obtain ⟨text, rest, hm, -⟩ := Shape.exists_match?_of_spells hw hstart
    rw [List.findSome?_eq_none_iff.mp h s hs] at hm
    cases hm
  · intro h
    cases hl : lexeme? cs with
    | none => rfl
    | some m => exact absurd ⟨m.2, (eq_append_of_lexeme? hl).symm⟩ (h m.1 (isLexeme_of_lexeme? hl))

end

/-! ### The first lexeme -/

section
variable {pos : Nat} {cs rest : List Char} {t : Token}

theorem lexeme?_of_nextToken?_eq_none (h : nextToken? pos cs = none) (before after : List Char)
    (hcs : cs = before ++ after) : lexeme? after = none := by
  fun_induction nextToken? pos cs generalizing before with
  | case1 =>
    obtain rfl : after = [] := (List.append_eq_nil_iff.mp hcs.symm).2
    rfl
  | case2 => cases h
  | case3 pos c cs hl ih =>
    cases before with
    | nil => rw [← hl, hcs, List.nil_append]
    | cons d before => exact ih h before (List.cons_eq_cons.mp hcs).2

/-- The next token is the lexeme at its place, and there is none at any place before. -/
theorem lexeme?_of_nextToken?_eq_some (h : nextToken? pos cs = some (t, rest)) :
    ∃ skipped, cs = skipped ++ (t.text ++ rest) ∧
      t.span = ⟨pos + Text.size skipped, pos + Text.size skipped + Text.size t.text⟩ ∧
      lexeme? (t.text ++ rest) = some (t.text, rest) ∧
      ∀ before after, cs = before ++ after → Text.size before < Text.size skipped → lexeme? after = none := by
  fun_induction nextToken? pos cs with
  | case1 => cases h
  | case2 pos c cs text rest' hl =>
    simp only [Option.some.injEq, Prod.mk.injEq] at h
    obtain ⟨rfl, rfl⟩ := h
    have happ := eq_append_of_lexeme? hl
    exact ⟨[], happ, rfl, happ ▸ hl, fun _ _ _ hlt => absurd hlt (by simp)⟩
  | case3 pos c cs hl ih =>
    obtain ⟨skipped, rfl, hspan, hlexeme, hnone⟩ := ih h
    refine ⟨c :: skipped, rfl, by rw [hspan, Text.size_cons, Nat.add_assoc], hlexeme, fun before after happ hlt => ?_⟩
    cases before with
    | nil => rw [← hl, happ, List.nil_append]
    | cons d before =>
      obtain ⟨rfl, hrest⟩ := List.cons_eq_cons.mp happ
      exact hnone before after hrest (by simpa using hlt)

end

/-- At byte offset `pos` the text goes on with the lexeme `w`, whatever follows it. -/
def LexemeAt (text : List Char) (pos : Nat) (w : List Char) : Prop :=
  ∃ before after, text = before ++ (w ++ after) ∧ Text.size before = pos ∧ IsLexeme w

theorem LexemeAt.exists_gap {text w rest : List Char} {start first pos : Nat} (h : LexemeAt text pos w)
    (hle : start ≤ pos) (hseek : Text.seek start 0 text = (first, rest)) :
    ∃ gap after, rest = gap ++ (w ++ after) ∧ first + Text.size gap = pos ∧ lexeme? (w ++ after) ≠ none := by
  obtain ⟨before, after, rfl, rfl, hw⟩ := h
  rw [← Nat.zero_add (Text.size before)] at hle
  obtain ⟨skipped, gap, rfl, hseek'⟩ := Text.exists_seek hle (w ++ after)
  rw [hseek] at hseek'
  obtain ⟨rfl, rfl⟩ := Prod.mk.inj hseek'
  refine ⟨gap, after, rfl, by simp, fun hnone => ?_⟩
  exact lexeme?_eq_none_iff.mp hnone w hw (List.prefix_append _ _)

/-- The span is that of the first lexeme from an offset on, and of the longest one at that place. -/
structure FirstLongest (text : List Char) (start : Nat) (span : Span) : Prop where
  le_start : start ≤ span.start
  first : ∀ pos w, LexemeAt text pos w → start ≤ pos → span.start ≤ pos
  longest : ∃ lexeme, LexemeAt text span.start lexeme ∧ span.stop = span.start + Text.size lexeme ∧
    ∀ w, LexemeAt text span.start w → w.length ≤ lexeme.length

section
variable {text : List Char} {start : Nat} {span span' : Span}

theorem FirstLongest.unique (h : FirstLongest text start span) (h' : FirstLongest text start span') : span = span' := by
  obtain ⟨w, hw, hstop, hlongest⟩ := h.longest
  obtain ⟨w', hw', hstop', hlongest'⟩ := h'.longest
  have hstart : span.start = span'.start :=
    Nat.le_antisymm (h.first _ _ hw' h'.le_start) (h'.first _ _ hw h.le_start)
  have hlength : w.length = w'.length :=
    Nat.le_antisymm (hlongest' w (hstart ▸ hw)) (hlongest w' (hstart ▸ hw'))
  have hsame : w = w' := by
    obtain ⟨before, after, htext, hbefore, -⟩ := hw
    obtain ⟨before', after', htext', hbefore', -⟩ := hw'
    obtain ⟨-, hrest⟩ := Text.append_inj_of_size (htext.symm.trans htext') (by omega)
    exact (List.append_inj hrest hlength).1
  calc span = ⟨span.start, span.start + Text.size w⟩ := by rw [← hstop]
    _ = ⟨span'.start, span'.start + Text.size w'⟩ := by rw [hstart, hsame]
    _ = span' := by rw [← hstop']

theorem lt_of_findLexeme?_eq_none (h : findLexeme? text start = none) {pos : Nat} {w : List Char}
    (hw : LexemeAt text pos w) : pos < start := by
  unfold findLexeme? at h
  cases hseek : Text.seek start 0 text with
  | mk first rest =>
    simp only [hseek, Option.map_eq_none_iff] at h
    by_contra hle
    obtain ⟨gap, after, hrest, -, hsome⟩ := hw.exists_gap (Nat.not_lt.mp hle) hseek
    exact hsome (lexeme?_of_nextToken?_eq_none h gap _ hrest)

theorem firstLongest_of_findLexeme? (h : findLexeme? text start = some span) : FirstLongest text start span := by
  unfold findLexeme? at h
  cases hseek : Text.seek start 0 text with
  | mk first rest =>
    simp only [hseek, Option.map_eq_some_iff] at h
    obtain ⟨⟨t, after⟩, hnext, hfound⟩ := h
    obtain rfl : t.span = span := hfound
    obtain ⟨skipped, hrest, hspan, hlexeme, hnone⟩ := lexeme?_of_nextToken?_eq_some hnext
    have hstart : start ≤ first := (Text.le_seek hseek).resolve_left (by simp [hrest, ne_nil_of_lexeme? hlexeme])
    obtain ⟨front, htext, hfirst⟩ := Text.seek_eq hseek
    have hplace : t.span.start = first + Text.size skipped := by rw [hspan]
    have hend : t.span.stop = t.span.start + Text.size t.text := by rw [hspan]
    refine ⟨by omega, fun pos w hw hle => ?_, t.text, ⟨front ++ skipped, after, ?_, ?_, ?_⟩, hend, fun w hw => ?_⟩
    · by_contra hlt
      obtain ⟨gap, after', hrest', hgap, hsome⟩ := hw.exists_gap hle hseek
      exact hsome (hnone gap _ hrest' (by omega))
    · rw [htext, hrest, List.append_assoc]
    · rw [hplace, hfirst, Text.size_append, Nat.zero_add]
    · exact isLexeme_of_lexeme? hlexeme
    · obtain ⟨gap, after', hrest', hgap, -⟩ := hw.exists_gap (by omega) hseek
      obtain ⟨-, -, -, -, hword⟩ := hw
      obtain ⟨-, hsame⟩ := Text.append_inj_of_size (hrest'.symm.trans hrest) (by omega)
      have hinitial : w <+: t.text ++ after := hsame ▸ List.prefix_append w after'
      exact (lexeme?_longest hlexeme hword hinitial).length_le

end

/-- To take the first rule that matches is to take the longest match: what is found from an offset on is the first
    lexeme there is and, at its place, the longest that any rule knows. -/
theorem findLexeme?_first_and_longest (text : List Char) (start : Nat) :
    (∀ span, findLexeme? text start = some span ↔ FirstLongest text start span) ∧
      (findLexeme? text start = none ↔ ∀ pos w, LexemeAt text pos w → pos < start) := by
  cases hfind : findLexeme? text start with
  | none =>
    have hnone : ∀ pos w, LexemeAt text pos w → pos < start := fun _ _ => lt_of_findLexeme?_eq_none hfind
    refine ⟨fun span => ⟨nofun, fun h => ?_⟩, fun _ => hnone, fun _ => rfl⟩
    obtain ⟨w, hw, -, -⟩ := h.longest
    exact absurd (hnone _ w hw) (Nat.not_lt.mpr h.le_start)
  | some found =>
    have hfound := firstLongest_of_findLexeme? hfind
    refine ⟨fun span => ⟨fun h => ?_, fun h => ?_⟩, nofun, fun h => ?_⟩
    · rwa [← Option.some.inj h]
    · rw [hfound.unique h]
    · obtain ⟨w, hw, -, -⟩ := hfound.longest
      exact absurd (h _ w hw) (Nat.not_lt.mpr hfound.le_start)

end SiblingSwap
