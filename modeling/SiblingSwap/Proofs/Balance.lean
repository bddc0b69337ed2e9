import SiblingSwap.Proofs.Enclosure
import SiblingSwap.Proofs.Follow
import SiblingSwap.Proofs.Window

/-! Swaps and brackets. The spans of a pair cut the tokens of a text where they cut the text, so an exchange of the
    spans is one of two stretches of tokens. When the lines that were read show where the brackets of both are matched,
    the text is as balanced after the swap as before. -/

namespace SiblingSwap

/-! ### Tokens and the spans of a pair -/

/-- A list of tokens, cut where the spans of the pair start and stop. -/
structure Pair.Cuts (p : Pair) (a x m y z : List Token) : Prop where
  before : ∀ t ∈ a, t.span.stop ≤ p.first.start
  first : ∀ t ∈ x, p.first.start ≤ t.span.start ∧ t.span.stop ≤ p.first.stop
  between : ∀ t ∈ m, p.first.stop ≤ t.span.start ∧ t.span.stop ≤ p.second.start
  second : ∀ t ∈ y, p.second.start ≤ t.span.start ∧ t.span.stop ≤ p.second.stop
  after : ∀ t ∈ z, p.second.stop ≤ t.span.start

theorem Token.apart_of_mem {ts : List Token} (ho : ts.Pairwise Before) {s t : Token} (hs : s ∈ ts) (ht : t ∈ ts) :
    s = t ∨ s.Before t ∨ t.Before s := by
  obtain ⟨i, hi, rfl⟩ := List.getElem_of_mem hs
  obtain ⟨k, hk, rfl⟩ := List.getElem_of_mem ht
  have hpairs := List.pairwise_iff_getElem.mp ho
  rcases Nat.lt_trichotomy i k with hlt | rfl | hlt
  · exact Or.inr (Or.inl (hpairs i k hi hk hlt))
  · exact Or.inl rfl
  · exact Or.inr (Or.inr (hpairs k i hk hi hlt))

/-- No token reaches over the start or the stop of another one. -/
theorem Token.edge_apart {ts : List Token} (ho : ts.Pairwise Before) (hpos : ∀ t ∈ ts, t.span.start < t.span.stop)
    {s t : Token} (hs : s ∈ ts) (ht : t ∈ ts) {e : Nat} (he : s.span.start = e ∨ s.span.stop = e) :
    t.span.stop ≤ e ∨ e ≤ t.span.start := by
  have hsroom := hpos s hs
  rcases apart_of_mem ho hs ht with rfl | hbefore | hbefore
  · omega
  · have hbefore : s.span.stop ≤ t.span.start := hbefore
    omega
  · have hbefore : t.span.stop ≤ s.span.start := hbefore
    omega

/-- The tokens in the span of a token are that one only. -/
theorem Token.eq_of_inside {ts : List Token} (ho : ts.Pairwise Before) (hpos : ∀ t ∈ ts, t.span.start < t.span.stop)
    {s t : Token} (hs : s ∈ ts) (ht : t ∈ ts) (hstart : s.span.start ≤ t.span.start)
    (hstop : t.span.stop ≤ s.span.stop) : t = s := by
  have htroom := hpos t ht
  rcases apart_of_mem ho hs ht with rfl | hbefore | hbefore
  · rfl
  · have hbefore : s.span.stop ≤ t.span.start := hbefore
    omega
  · have hbefore : t.span.stop ≤ s.span.start := hbefore
    omega

theorem Pair.Cuts.closed {p : Pair} {text : List Char} {a x m y z : List Token} (h : p.Cuts a x m y z)
    (hfits : p.Fits text) (hpos : ∀ t ∈ a ++ x ++ m ++ y ++ z, t.span.start < t.span.stop) :
    let ts := a ++ x ++ m ++ y ++ z
    ((Matching.ofTokens ts).Enclosed ts p.first → Closed (x.map (·.text))) ∧
      ((Matching.ofTokens ts).Enclosed ts ⟨p.first.stop, p.second.start⟩ → Closed (m.map (·.text))) ∧
      ((Matching.ofTokens ts).Enclosed ts p.second → Closed (y.map (·.text))) := by
  intro ts
  have hfirst := Nat.le_of_lt hfits.first
  have hapart := hfits.apart
  have hsecond := Nat.le_of_lt hfits.second
  have hcovers := fun {s : Span} {us : List Token} (hus : ∀ t ∈ us, s.start ≤ t.span.start ∧ t.span.stop ≤ s.stop) t
    (ht : t ∈ us) => Span.covers_iff.mpr (hus t ht)
  have hx := fun t ht => (h.first t ht).2
  have hm := fun t ht => (h.between t ht).2
  refine ⟨fun henclosed => ?_, fun henclosed => ?_, fun henclosed => ?_⟩
  · have hts : ts = a ++ x ++ (m ++ y ++ z) := by simp [ts]
    refine Matching.closed_of_enclosed (hts ▸ hpos) h.before ?_ (hcovers h.first) (hts ▸ henclosed)
    refine List.forall_mem_append.mpr ⟨List.forall_mem_append.mpr ⟨fun t ht => (h.between t ht).1, fun t ht => ?_⟩, ?_⟩
    · exact hapart.trans (h.second t ht).1
    · exact fun t ht => hapart.trans (hsecond.trans (h.after t ht))
  · have hts : ts = a ++ x ++ m ++ (y ++ z) := by simp [ts]
    refine Matching.closed_of_enclosed (hts ▸ hpos) ?_ ?_ (hcovers h.between) (hts ▸ henclosed)
    · exact List.forall_mem_append.mpr ⟨fun t ht => (h.before t ht).trans hfirst, hx⟩
    · exact List.forall_mem_append.mpr ⟨fun t ht => (h.second t ht).1, fun t ht => hsecond.trans (h.after t ht)⟩
  · refine Matching.closed_of_enclosed hpos ?_ h.after (hcovers h.second) henclosed
    refine List.forall_mem_append.mpr ⟨List.forall_mem_append.mpr ⟨fun t ht => ?_, fun t ht => ?_⟩, hm⟩
    · exact (h.before t ht).trans (hfirst.trans hapart)
    · exact (hx t ht).trans hapart

/-- A span that reaches over both spans of the pair. -/
theorem Pair.Cuts.filter {p : Pair} {text : List Char} {a x m y z : List Token} (h : p.Cuts a x m y z)
    (hfits : p.Fits text) {w : Span} (hstart : w.start ≤ p.first.start) (hstop : p.second.stop ≤ w.stop) :
    (a ++ x ++ m ++ y ++ z).filter (fun t => w.covers t.span) =
        a.filter (fun t => w.covers t.span) ++ x ++ m ++ y ++ z.filter (fun t => w.covers t.span) ∧
      p.Cuts (a.filter fun t => w.covers t.span) x m y (z.filter fun t => w.covers t.span) := by
  have hfirst := hfits.first
  have hapart := hfits.apart
  have hsecond := hfits.second
  have hkept : ∀ {us : List Token}, (∀ t ∈ us, p.first.start ≤ t.span.start ∧ t.span.stop ≤ p.second.stop) →
      us.filter (fun t => w.covers t.span) = us := fun hus => List.filter_eq_self.mpr fun t ht =>
    Span.covers_iff.mpr ⟨hstart.trans (hus t ht).1, (hus t ht).2.trans hstop⟩
  constructor
  · simp only [List.filter_append]
    rw [@hkept x fun t ht => ?_, @hkept m fun t ht => ?_, @hkept y fun t ht => ?_]
    · have := h.second t ht
      omega
    · have := h.between t ht
      omega
    · have := h.first t ht
      omega
  · exact ⟨fun t ht => h.before t (List.mem_of_mem_filter ht), h.first, h.between, h.second,
      fun t ht => h.after t (List.mem_of_mem_filter ht)⟩

section Element
variable {ts : List Token} (hts : ∀ t ∈ ts, t.Classified) (ho : ts.Pairwise Token.Before)
  (hpos : ∀ t ∈ ts, t.span.start < t.span.stop)
include hts ho hpos

theorem Node.pairAt_edges {pos : Nat} {d : Direction} {p : Pair}
    (h : (Spine.ofTokens ts).tree.pairAt pos d = .ok p) :
    (∃ s ∈ ts, ∃ t ∈ ts, p.first = ⟨s.span.start, t.span.stop⟩) ∧
      ∃ s ∈ ts, ∃ t ∈ ts, p.second = ⟨s.span.start, t.span.stop⟩ := by
  have hordered := Spine.ordered_ofTokens hts ho
  have hmem : ∀ {a : Address} {n : Node}, (Spine.ofTokens ts).tree.at? a = some n → ∀ t ∈ n.allTokens, t ∈ ts :=
    fun hn t ht => Spine.mem_of_mem_ofTokens hts t (mem_allTokens_of_at? hn ht)
  have hbound : ∀ {a : Address} {n : Node}, (Spine.ofTokens ts).tree.at? a = some n → a ≠ [] →
      ∃ s ∈ ts, ∃ t ∈ ts, n.bound = ⟨s.span.start, t.span.stop⟩ := by
    intro a n hn hne
    obtain ⟨hon, hfilled⟩ := hordered.at? hn
    have hroom : ∀ t ∈ n.allTokens, t.span.start < t.span.stop := fun t ht => hpos t (hmem hn t ht)
    obtain ⟨⟨s, hs, hstart⟩, -⟩ := hon.bound_start (hfilled hne) hroom
    obtain ⟨⟨t, ht, hstop⟩, -⟩ := hon.bound_stop (hfilled hne) hroom
    exact ⟨s, hmem hn s hs, t, hmem hn t ht, by rw [hstart, hstop]⟩
  obtain ⟨target, -, ⟨l, r, left, right, hneighbors, hl, hr, h⟩ | ⟨i, n, -, hn, h⟩⟩ := pairAt_cases h
  · obtain ⟨-, rfl⟩ := elementPair_eq_ok h
    obtain ⟨hlne, hrne⟩ := (neighbors_beside hneighbors).ne_nil
    exact ⟨hbound hl hlne, hbound hr hrne⟩
  · obtain ⟨k, s, t, hs, ht, rfl, -⟩ := tokenPair_cases h
    have hs := hmem hn s (mem_allTokens_of_mem_tokens (List.mem_of_getElem? hs))
    have ht := hmem hn t (mem_allTokens_of_mem_tokens (List.mem_of_getElem? ht))
    exact ⟨⟨s, hs, s, hs, rfl⟩, t, ht, t, ht, rfl⟩

/-- Of the stretches that a pair cuts out and the one between them, two leave no trace: for two elements it takes
    brackets that match, and next to a word there are none. -/
theorem Node.closed_of_pairAt {pos : Nat} {d : Direction} {p : Pair} {text : List Char} {a x m y z : List Token}
    (h : (Spine.ofTokens ts).tree.pairAt pos d = .ok p) (hlist : ts = a ++ x ++ m ++ y ++ z)
    (hcuts : p.Cuts a x m y z) (hfits : p.Fits text)
    (hbrackets : (Matching.ofTokens ts).Settled ts p.first ∧ (Matching.ofTokens ts).Settled ts p.second ∨
      ((Matching.ofTokens ts).Settled ts p.first ∨ (Matching.ofTokens ts).Settled ts p.second) ∧
        (Matching.ofTokens ts).Enclosed ts ⟨p.first.stop, p.second.start⟩)
    (hdistinct : ∀ s ∈ ts, ∀ t ∈ ts, p = ⟨s.span, t.span⟩ → closerOf? s.text ≠ some t.text) :
    Closed (x.map (·.text)) ∧ Closed (y.map (·.text)) ∨
      (Closed (x.map (·.text)) ∨ Closed (y.map (·.text))) ∧ Closed (m.map (·.text)) := by
  obtain ⟨target, -, ⟨l, r, left, right, hneighbors, hl, hr, h⟩ | ⟨i, n, -, hn, h⟩⟩ := pairAt_cases h
  · obtain ⟨-, rfl⟩ := elementPair_eq_ok h
    obtain ⟨hlne, hrne⟩ := (neighbors_beside hneighbors).ne_nil
    obtain ⟨hx, hm, hy⟩ := hcuts.closed hfits (hlist ▸ hpos)
    rw [← hlist] at hx hm hy
    have hx := fun hsettled => hx (enclosed_of_settled hts ho hpos hl hlne hsettled)
    have hy := fun hsettled => hy (enclosed_of_settled hts ho hpos hr hrne hsettled)
    exact hbrackets.imp (And.imp hx hy) (And.imp (Or.imp hx hy) hm)
  · obtain ⟨k, s, t, hs, ht, rfl, -⟩ := tokenPair_cases h
    have hmem : ∀ u ∈ n.tokens, u ∈ ts := fun u hu =>
      Spine.mem_of_mem_ofTokens hts u (mem_allTokens_of_at? hn (mem_allTokens_of_mem_tokens hu))
    have hsts := hmem s (List.mem_of_getElem? hs)
    have htts := hmem t (List.mem_of_getElem? ht)
    have hword : ∀ {u : Token} {part : List Token}, u ∈ ts → u.role = .atom → (∀ v ∈ part, v ∈ ts) →
        (∀ v ∈ part, u.span.start ≤ v.span.start ∧ v.span.stop ≤ u.span.stop) → Closed (part.map (·.text)) := by
      intro u part hu hatom hpart hinside
      refine closed_of_plain fun v hv => ?_
      obtain rfl := Token.eq_of_inside ho hpos hu (hpart v hv) (hinside v hv).1 (hinside v hv).2
      exact (hts v hu).isBracket_eq_false (by simp [hatom]) (by simp [hatom])
    have hxts : ∀ v ∈ x, v ∈ ts := fun v hv => by simp [hlist, hv]
    have hyts : ∀ v ∈ y, v ∈ ts := fun v hv => by simp [hlist, hv]
    have hmts : ∀ v ∈ m, v ∈ ts := fun v hv => by simp [hlist, hv]
    have hfollows : s.Follows t := by
      obtain ⟨hk, rfl⟩ := List.getElem?_eq_some_iff.mp hs
      obtain ⟨hk', rfl⟩ := List.getElem?_eq_some_iff.mp ht
      exact List.isChain_iff_getElem.mp ((Spine.headed_ofTokens hts ho).at? hn).run k hk'
    rcases hfollows with ⟨hatom, hrole⟩ | hcloses
    · have hx := hword hsts hatom hxts hcuts.first
      rcases hrole with htatom | hopener
      · exact Or.inl ⟨hx, hword htts htatom hyts hcuts.second⟩
      · refine Or.inr ⟨Or.inl hx, closed_of_plain fun u hu => ?_⟩
        exact isBracket_between hts ho hpos hn (by simp) hs ht (Or.inr hopener) (hmts u hu) (hcuts.between u hu).1
          (hcuts.between u hu).2
    · exact absurd hcloses (hdistinct s hsts t htts rfl)

end Element

/-! ### The parts of a text -/

theorem Token.Found.stop_le {pos : Nat} {cs : List Char} {t : Token} (h : t.Found pos cs) :
    t.span.stop ≤ pos + Text.size cs := by
  obtain ⟨before, after, rfl, hspan⟩ := h.place
  simp only [hspan, Text.size_append]
  omega

theorem scan_nil (stop pos : Nat) : scan stop pos [] = [] := by
  rw [scan]
  rfl

theorem readBrackets_scan {stop pos : Nat} {cs : List Char} (hstop : pos + Text.size cs ≤ stop)
    (awaited : List (List Char)) :
    readBrackets awaited ((scan stop pos cs).map (·.text)) = readBrackets awaited (singles (unquoted cs)) := by
  have hinside : ∀ t ∈ scan stop pos (cs ++ []), t.span.stop ≤ pos + Text.size cs := by
    rw [List.append_nil]
    exact fun t ht => ((scan_spec stop pos cs).2 t ht).stop_le
  obtain ⟨ts, hscan, -, hbrackets, -⟩ := scansApart (by simpa using hstop) fun t ht => Or.inl (hinside t ht)
  rw [List.append_nil, scan_nil, List.append_nil] at hscan
  rw [hscan, hbrackets]

/-- A quote that stays open in the first text does not come up in the second. -/
def StaysOpen (c d : List Char) : Prop := ∀ q ∈ quotes, q ∈ unquoted c → q ∉ d

/-- The tokens of a text that is put together from parts, part by part, and the brackets of each. -/
inductive InParts : Nat → List (List Char) → List (List Token) → Prop
  | nil {pos : Nat} : InParts pos [] []
  | cons {pos : Nat} {part : List Char} {parts : List (List Char)} {ts : List Token} {tss : List (List Token)}
      (place : ∀ t ∈ ts, pos ≤ t.span.start ∧ t.span.stop ≤ pos + Text.size part)
      (brackets : ∀ awaited, readBrackets awaited (ts.map (·.text)) = readBrackets awaited (singles (unquoted part)))
      (opens : ∀ d ∈ parts, StaysOpen part d)
      (rest : InParts (pos + Text.size part) parts tss) : InParts pos (part :: parts) (ts :: tss)

theorem exists_inParts {stop pos : Nat} {parts : List (List Char)} (hstop : pos + Text.size parts.flatten ≤ stop)
    (h : ∀ t ∈ scan stop pos parts.flatten, ∀ k, t.span.stop ≤ pos + Text.size (parts.take k).flatten ∨
      pos + Text.size (parts.take k).flatten ≤ t.span.start) :
    ∃ tss, InParts pos parts tss ∧ scan stop pos parts.flatten = tss.flatten := by
  induction parts generalizing pos with
  | nil => exact ⟨[], .nil, scan_nil stop pos⟩
  | cons part parts ih =>
    have hfirst := fun t ht => h t ht 1
    simp only [List.take_succ_cons, List.take_zero, List.flatten_cons, List.flatten_nil, List.append_nil] at hfirst
    obtain ⟨ts, hscan, hbefore, hbrackets, hquotes⟩ := scansApart hstop hfirst
    have hafter : pos + Text.size part + Text.size parts.flatten ≤ stop := by
      simpa [Nat.add_assoc] using hstop
    rw [List.flatten_cons] at h ⊢
    obtain ⟨tss, htss, hrest⟩ := ih hafter fun t ht k => by
      simpa [Nat.add_assoc] using h t (hscan ▸ List.mem_append_right _ ht) (k + 1)
    refine ⟨ts :: tss, .cons (fun t ht => ⟨?_, hbefore t ht⟩) hbrackets (fun d hd q hq hopen hmem => ?_) htss, ?_⟩
    · exact ((scan_spec stop pos _).2 t (hscan ▸ List.mem_append_left _ ht)).le_start
    · exact hquotes q hq hopen (List.mem_flatten.mpr ⟨d, hd, hmem⟩)
    · rw [hscan, hrest, List.flatten_cons]

/-- Parts none of which leaves a quote open that comes up later. -/
theorem unquoted_flatten {parts : List (List Char)} (h : parts.Pairwise StaysOpen) :
    unquoted parts.flatten = (parts.map unquoted).flatten := by
  induction parts with
  | nil => rw [List.flatten_nil, unquoted]; rfl
  | cons c parts ih =>
    obtain ⟨hc, hparts⟩ := List.pairwise_cons.mp h
    rw [List.flatten_cons, unquoted_append, ih hparts]
    · rfl
    · intro q hq hopen hmem
      obtain ⟨d, hd, hqd⟩ := List.mem_flatten.mp hmem
      exact hc d hd q hq hopen hqd

theorem InParts.pairwise {pos : Nat} {parts : List (List Char)} {tss : List (List Token)} (h : InParts pos parts tss) :
    parts.Pairwise StaysOpen := by
  induction h with
  | nil => exact .nil
  | cons _ _ opens _ ih => exact List.pairwise_cons.mpr ⟨opens, ih⟩

/-! ### Swaps -/

namespace Buffer

def tokens (b : Buffer) : List Token := tokenize b.text ⟨0, b.size⟩

/-- What a swap of the pair depends on is seen in the lines that were read. Their tokens are those that the text has
    there. Of the two spans and the text between them at least two hold no bracket that is matched elsewhere: for
    the spans it is enough that the lines match their brackets. A quote that stays open occurs in one of the three
    only. And the spans are not those of a bracket and its closer. -/
structure Shows (b : Buffer) (w : Span) (p : Pair) : Prop where
  lexemes : tokenize b.text w = b.tokens.filter fun t => w.covers t.span
  brackets : let ts := tokenize b.text w
    let m := Matching.ofTokens ts
    m.Settled ts p.first ∧ m.Settled ts p.second ∨
      (m.Settled ts p.first ∨ m.Settled ts p.second) ∧ m.Enclosed ts ⟨p.first.stop, p.second.start⟩
  quotes : ∀ q ∈ quotes, q ∈ unquoted (b.slice ⟨p.first.start, p.second.stop⟩) →
    [b.slice p.first, b.slice ⟨p.first.stop, p.second.start⟩, b.slice p.second].countP (·.contains q) ≤ 1
  distinct : closerOf? (b.slice p.first) ≠ some (b.slice p.second)

instance (b : Buffer) (w : Span) (p : Pair) : Decidable (b.Shows w p) :=
  -- Only the quotes are tried, not all characters.
  have : Decidable (∀ q ∈ SiblingSwap.quotes, q ∈ unquoted (b.slice ⟨p.first.start, p.second.stop⟩) →
      [b.slice p.first, b.slice ⟨p.first.stop, p.second.start⟩, b.slice p.second].countP (·.contains q) ≤ 1) :=
    List.decidableBAll _ _
  decidable_of_iff (_ ∧ _ ∧ _ ∧ _)
    ⟨fun ⟨lexemes, brackets, quotes, distinct⟩ => ⟨lexemes, brackets, quotes, distinct⟩,
      fun h => ⟨h.lexemes, h.brackets, h.quotes, h.distinct⟩⟩

variable {b : Buffer} {p : Pair}

theorem tokens_eq_scan (b : Buffer) : b.tokens = scan b.size 0 b.text := tokenize_eq_scan [] b.text b.size

theorem balanced_iff (b : Buffer) : Balanced b.tokens ↔ readBrackets [] (singles (unquoted b.text)) = some [] := by
  rw [Balanced, tokens_eq_scan, readBrackets_scan (by simp [size])]

theorem slice_of_found {t : Token} (h : t.Found 0 b.text) : b.slice t.span = t.text := by
  obtain ⟨before, after, htext, hspan⟩ := h.place
  rw [hspan, Nat.zero_add, ← Text.size_append]
  exact slice_eq before t.text after (by simp [htext])

/-- The parts of a text that two spans cut out are scanned apart, when the spans start and stop with tokens. -/
theorem exists_cuts {a x m y z : List Char} (htext : b.text = a ++ x ++ m ++ y ++ z)
    (hfirst : p.first = ⟨Text.size a, Text.size (a ++ x)⟩)
    (hsecond : p.second = ⟨Text.size (a ++ x ++ m), Text.size (a ++ x ++ m ++ y)⟩)
    (hedges : (∃ s ∈ b.tokens, ∃ t ∈ b.tokens, p.first = ⟨s.span.start, t.span.stop⟩) ∧
      ∃ s ∈ b.tokens, ∃ t ∈ b.tokens, p.second = ⟨s.span.start, t.span.stop⟩) :
    ∃ ta tx tm ty tz, b.tokens = ta ++ tx ++ tm ++ ty ++ tz ∧ p.Cuts ta tx tm ty tz ∧
      InParts 0 [a, x, m, y, z] [ta, tx, tm, ty, tz] := by
  obtain ⟨ho, hfound⟩ := tokenize_spec b.text ⟨0, b.size⟩
  have hpos : ∀ t ∈ b.tokens, t.span.start < t.span.stop := fun t ht => (hfound t ht).nonempty
  have hflatten : b.text = [a, x, m, y, z].flatten := by simp [htext]
  obtain ⟨⟨s₁, hs₁, t₁, ht₁, h₁⟩, s₂, hs₂, t₂, ht₂, h₂⟩ := hedges
  rw [hfirst, Span.mk.injEq] at h₁
  rw [hsecond, Span.mk.injEq] at h₂
  have hapart : ∀ t ∈ scan b.size 0 [a, x, m, y, z].flatten, ∀ k,
      t.span.stop ≤ 0 + Text.size ([a, x, m, y, z].take k).flatten ∨
        0 + Text.size ([a, x, m, y, z].take k).flatten ≤ t.span.start := by
    intro t ht k
    have hstop := ((scan_spec b.size 0 _).2 t ht).stop_le
    rw [← hflatten, ← tokens_eq_scan] at ht
    have hedge := fun {s : Token} (hs : s ∈ b.tokens) {e : Nat} => @Token.edge_apart _ ho hpos s t hs ht e
    match k with
    | 0 => exact Or.inr (by simp)
    | 1 => simpa using hedge hs₁ (Or.inl h₁.1.symm)
    | 2 => simpa using hedge ht₁ (Or.inr h₁.2.symm)
    | 3 => simpa using hedge hs₂ (Or.inl h₂.1.symm)
    | 4 => simpa using hedge ht₂ (Or.inr h₂.2.symm)
    | k + 5 => exact Or.inl (by simpa using hstop)
  obtain ⟨tss, hparts, hscan⟩ := exists_inParts (Nat.le_of_eq (by rw [← hflatten, size, Nat.zero_add])) hapart
  rw [← hflatten, ← tokens_eq_scan] at hscan
  obtain _ | ⟨ha, -, -, hrest⟩ := id hparts
  obtain _ | ⟨hx, -, -, hrest⟩ := hrest
  obtain _ | ⟨hm, -, -, hrest⟩ := hrest
  obtain _ | ⟨hy, -, -, hrest⟩ := hrest
  obtain _ | ⟨hz, -, -, hrest⟩ := hrest
  obtain _ | _ := hrest
  refine ⟨_, _, _, _, _, by simpa using hscan, ?_, hparts⟩
  simp only [← Text.size_append, Nat.zero_add] at ha hx hm hy hz
  constructor
  · rw [hfirst]
    exact fun t ht => (ha t ht).2
  · rw [hfirst]
    exact hx
  · rw [hfirst, hsecond]
    exact hm
  · rw [hsecond]
    exact hy
  · rw [hsecond]
    exact fun t ht => (hz t ht).1

section Resolved
variable {pos extendLines : Nat} {d : Direction} (hresolve : b.resolve pos d extendLines = .ok p)
  (hshows : b.Shows (b.window pos d extendLines) p)
  {a x m y z : List Char} (htext : b.text = a ++ x ++ m ++ y ++ z)
  (hfirst : p.first = ⟨Text.size a, Text.size (a ++ x)⟩)
  (hsecond : p.second = ⟨Text.size (a ++ x ++ m), Text.size (a ++ x ++ m ++ y)⟩)
include hresolve hshows htext hfirst hsecond

theorem closed_of_shows : [a, x, m, y, z].Pairwise StaysOpen ∧
    (Closed (singles (unquoted x)) ∧ Closed (singles (unquoted y)) ∨
      (Closed (singles (unquoted x)) ∨ Closed (singles (unquoted y))) ∧ Closed (singles (unquoted m))) := by
  have hfits := resolve_fits hresolve
  obtain ⟨ho, hfound⟩ := tokenize_spec b.text (b.window pos d extendLines)
  have hpos : ∀ t ∈ tokenize b.text (b.window pos d extendLines), t.span.start < t.span.stop := fun t ht =>
    (hfound t ht).nonempty
  have hclassified := fun t ht => (hfound t ht).classified
  have hpair := hresolve
  rw [resolve, tree, Node.ofTokens_eq hclassified] at hpair
  obtain ⟨⟨s₁, hs₁, t₁, ht₁, h₁⟩, s₂, hs₂, t₂, ht₂, h₂⟩ := Node.pairAt_edges hclassified ho hpos hpair
  have hread : ∀ {t : Token}, t ∈ tokenize b.text (b.window pos d extendLines) →
      t ∈ b.tokens ∧ (b.window pos d extendLines).covers t.span = true := by
    intro t ht
    rw [hshows.lexemes] at ht
    exact List.mem_filter.mp ht
  obtain ⟨ta, tx, tm, ty, tz, htokens, hcuts, hparts⟩ := exists_cuts htext hfirst hsecond
    ⟨⟨s₁, (hread hs₁).1, t₁, (hread ht₁).1, h₁⟩, s₂, (hread hs₂).1, t₂, (hread ht₂).1, h₂⟩
  -- The lines that were read reach from the start of the first span to the stop of the second one.
  have hstart := (Span.covers_iff.mp (hread hs₁).2).1
  have hstop := (Span.covers_iff.mp (hread ht₂).2).2
  have hlist := hshows.lexemes
  obtain ⟨hfilter, hcuts'⟩ := hcuts.filter hfits (w := b.window pos d extendLines) (by rw [h₁]; exact hstart)
    (by rw [h₂]; exact hstop)
  rw [htokens, hfilter] at hlist
  have hdistinct : ∀ s ∈ tokenize b.text (b.window pos d extendLines),
      ∀ t ∈ tokenize b.text (b.window pos d extendLines), p = ⟨s.span, t.span⟩ → closerOf? s.text ≠ some t.text := by
    rintro s hs t ht rfl
    have := hshows.distinct
    rwa [slice_of_found (hfound s hs), slice_of_found (hfound t ht)] at this
  have hclosed := Node.closed_of_pairAt hclassified ho hpos hpair hlist hcuts' hfits hshows.brackets hdistinct
  refine ⟨hparts.pairwise, ?_⟩
  obtain _ | ⟨-, -, -, hrest⟩ := hparts
  obtain _ | ⟨-, hx, -, hrest⟩ := hrest
  obtain _ | ⟨-, hm, -, hrest⟩ := hrest
  obtain _ | ⟨-, hy, -, hrest⟩ := hrest
  simpa only [Closed, hx, hm, hy] using hclosed

omit hresolve in
/-- The exchange brings no quote that stays open before another one of its kind. -/
theorem pairwise_of_shows (h : [a, x, m, y, z].Pairwise StaysOpen) : [a, y, m, x, z].Pairwise StaysOpen := by
  have hx : b.slice p.first = x := hfirst ▸ slice_eq a x (m ++ y ++ z) (by simp [htext])
  have hy : b.slice p.second = y := hsecond ▸ slice_eq (a ++ x ++ m) y z htext
  have hm : b.slice ⟨p.first.stop, p.second.start⟩ = m := by
    rw [hfirst, hsecond]
    exact slice_eq (a ++ x) m (y ++ z) (by simp [htext])
  have hxmy : b.slice ⟨p.first.start, p.second.stop⟩ = [x, m, y].flatten := by
    have hstop : p.second.stop = Text.size (a ++ [x, m, y].flatten) := by simp [hsecond]
    rw [hstop, hfirst]
    exact slice_eq a _ z (by simp [htext])
  have hquotes := hshows.quotes
  rw [hx, hy, hm, hxmy] at hquotes
  rw [unquoted_flatten (h.sublist (by simp))] at hquotes
  have hopens : ∀ {c d : List Char}, [d, c].Sublist [x, m, y] → StaysOpen c d := by
    intro c d hsub q hq hopen hmem
    have honce := hquotes q hq (List.mem_flatten_of_mem (List.mem_map_of_mem (hsub.subset (by simp))) hopen)
    have htwice : [d, c].countP (·.contains q) = 2 := by simp [hmem, mem_of_mem_unquoted hopen]
    exact absurd (htwice ▸ hsub.countP_le.trans honce) (by decide)
  have hym : StaysOpen y m := hopens (by simp)
  have hyx : StaysOpen y x := hopens (by simp)
  have hmx : StaysOpen m x := hopens (by simp)
  simp only [List.pairwise_cons, List.forall_mem_cons, List.not_mem_nil, false_imp_iff, implies_true,
    List.Pairwise.nil, and_true] at h ⊢
  obtain ⟨⟨hax, ham, hay, haz⟩, ⟨-, -, hxz⟩, ⟨-, hmz⟩, hyz⟩ := h
  exact ⟨⟨hay, ham, hax, haz⟩, ⟨hym, hyx, hyz⟩, ⟨hmx, hmz⟩, hxz⟩

end Resolved

theorem swap_text {s : Settings} {d : Direction} {a x m y z : List Char} (htext : b.text = a ++ x ++ m ++ y ++ z)
    (hfirst : p.first = ⟨Text.size a, Text.size (a ++ x)⟩)
    (hsecond : p.second = ⟨Text.size (a ++ x ++ m), Text.size (a ++ x ++ m ++ y)⟩)
    (hresolve : b.resolve b.cursor d s.extendLines = .ok p) :
    (b.swap s d).1.text = a ++ y ++ m ++ x ++ z ∧ ∃ moved, (b.swap s d).2 = .swapped p moved := by
  obtain ⟨b', hexchange, htext'⟩ := exchange_text htext hfirst hsecond
  simp only [swap, hresolve, hexchange]
  refine ⟨?_, _, rfl⟩
  rw [← htext']
  cases s.followSwap <;> rfl

/-- A swap keeps a balanced text balanced when the lines that it reads show what the exchange depends on. -/
theorem swap_keeps_balance (b : Buffer) (s : Settings) (d : Direction)
    (hshows : ∀ p moved, (b.swap s d).2 = .swapped p moved → b.Shows (b.window b.cursor d s.extendLines) p)
    (h : Balanced b.tokens) : Balanced (b.swap s d).1.tokens := by
  cases hresolve : b.resolve b.cursor d s.extendLines with
  | error why =>
    have hswap : b.swap s d = (b, .skipped why) := by rw [swap, hresolve]
    rwa [hswap]
  | ok p =>
    obtain ⟨a, x, m, y, z, htext, hfirst, hsecond⟩ := (resolve_fits hresolve).parts
    obtain ⟨htext', moved, hswapped⟩ := swap_text htext hfirst hsecond hresolve
    have hshows := hshows p moved hswapped
    obtain ⟨hopens, hclosed⟩ := closed_of_shows hresolve hshows htext hfirst hsecond
    have hold := unquoted_flatten hopens
    have hnew := unquoted_flatten (pairwise_of_shows hshows htext hfirst hsecond hopens)
    have hflatten : ∀ c₁ c₂ c₃ c₄ c₅ : List Char, [c₁, c₂, c₃, c₄, c₅].flatten = c₁ ++ c₂ ++ c₃ ++ c₄ ++ c₅ := by simp
    rw [balanced_iff, htext', ← hflatten, hnew]
    rw [balanced_iff, htext, ← hflatten, hold] at h
    simp only [List.map_cons, List.map_nil, hflatten, singles_append] at h ⊢
    rw [← readBrackets_exchange hclosed, h]

/-- The lines that are read hold both elements, though not the call that they are in. -/
theorem swap_keeps_balance_of_cut_call :
    let b := ofText "f([a], [\n1, ')'],\nb)".toList 3
    (b.swap {} .forward).1.text = "f([\n1, ')'], [a],\nb)".toList ∧ Balanced b.tokens ∧
      Balanced (b.swap {} .forward).1.tokens := by
  intro b
  have hswapped : (b.swap {} .forward).2 = .swapped ⟨⟨2, 5⟩, ⟨7, 16⟩⟩ 16 := by decide +kernel
  have hbalanced : Balanced b.tokens := by decide +kernel
  refine ⟨by decide +kernel, hbalanced, swap_keeps_balance b {} .forward (fun p moved h => ?_) hbalanced⟩
  obtain ⟨rfl, -⟩ := Outcome.swapped.inj (hswapped.symm.trans h)
  decide +kernel

/-- The brackets of `(a)` are two tokens of one element, which has no neighbour, and change places themselves. -/
theorem exists_swap_unbalanced :
    let b := withCursor "(a)".toList 0
    (b.swap {} .forward).1.text = ")a(".toList ∧ Balanced b.tokens ∧
      ¬Balanced (b.swap {} .forward).1.tokens := by
  decide +kernel

end Buffer
end SiblingSwap
