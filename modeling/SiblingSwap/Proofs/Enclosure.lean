import SiblingSwap.Proofs.Contiguity
import SiblingSwap.Proofs.Headed
import SiblingSwap.Proofs.Level
import SiblingSwap.Proofs.Unquoted

/-! Stretches of tokens whose brackets all match within them. Such a stretch can be moved, or another one moved over it,
    without a trace in how brackets match. An element is one as soon as its brackets match at all, since a pair of
    brackets is one element. -/

namespace SiblingSwap

def Span.covers (s t : Span) : Bool := s.start ≤ t.start && t.stop ≤ s.stop

theorem Span.covers_iff {s t : Span} : s.covers t = true ↔ s.start ≤ t.start ∧ t.stop ≤ s.stop := by
  simp [covers]

def Token.isBracket (t : Token) : Bool := (closerOf? t.text).isSome || isClosing t.text

theorem Token.Classified.isBracket_eq_false {t : Token} (h : t.Classified) (hopener : t.role ≠ .opener)
    (hcloser : t.role ≠ .closer) : t.isBracket = false := by
  have hclosing : isClosing t.text = false := by
    by_contra hclosing
    obtain ⟨o, ho⟩ := isClosing_iff.mp (by simpa using hclosing)
    exact hcloser (h.of_closing ho).1
  rw [isBracket, h.closerOf?_eq_none hopener, hclosing]
  rfl

/-! ### Texts that leave no trace -/

/-- All brackets of the texts match within them. -/
def Closed (texts : List (List Char)) : Prop := ∀ awaited, readBrackets awaited texts = some awaited

theorem closed_of_plain {ts : List Token} (h : ∀ t ∈ ts, t.isBracket = false) : Closed (ts.map (·.text)) := by
  intro awaited
  induction ts with
  | nil => rfl
  | cons t ts ih =>
    have ht := h t (by simp)
    simp only [Token.isBracket, Bool.or_eq_false_iff, Option.isSome_eq_false_iff, Option.isNone_iff_eq_none] at ht
    rw [List.map_cons, readBrackets_cons, readBracket_of_plain ht.1 ht.2]
    exact ih fun u hu => h u (by simp [hu])

/-- Two of three neighbouring stretches that leave no trace make the outer ones change places without one. -/
theorem readBrackets_exchange {a x m y z awaited : List (List Char)}
    (h : Closed x ∧ Closed y ∨ (Closed x ∨ Closed y) ∧ Closed m) :
    readBrackets awaited (a ++ x ++ m ++ y ++ z) = readBrackets awaited (a ++ y ++ m ++ x ++ z) := by
  rcases h with ⟨hx, hy⟩ | ⟨hx | hy, hm⟩
  · simp only [readBrackets_append, hx _, hy _, Option.bind_assoc, Option.bind_some]
  · simp only [readBrackets_append, hx _, hm _, Option.bind_assoc, Option.bind_some]
  · simp only [readBrackets_append, hy _, hm _, Option.bind_assoc, Option.bind_some]

/-! ### Matching -/

namespace Matching
variable {ts : List Token} {m : Matching}

/-- The indices of brackets that match or are open. -/
structure Indexed (n : Nat) (m : Matching) : Prop where
  pending : ∀ x ∈ m.pending, x.1 < n ∧ isClosing x.2 = true
  pairs : ∀ x ∈ m.pairs, x.1 < x.2 ∧ x.2 < n
  once : (m.pending.map (·.1)).Nodup
  apart : ∀ x ∈ m.pending, ∀ y ∈ m.pairs, y.1 ≠ x.1

theorem Indexed.read {n : Nat} (h : Indexed n m) (t : Token) : Indexed (n + 1) (m.read n t) := by
  have hpending : ∀ x ∈ m.pending, x.1 < n + 1 ∧ isClosing x.2 = true := fun x hx =>
    ⟨Nat.lt_succ_of_lt (h.pending x hx).1, (h.pending x hx).2⟩
  have hpairs : ∀ x ∈ m.pairs, x.1 < x.2 ∧ x.2 < n + 1 := fun x hx =>
    ⟨(h.pairs x hx).1, Nat.lt_succ_of_lt (h.pairs x hx).2⟩
  rcases read_cases m n t with ⟨closer, hc, hread⟩ | ⟨hc, i, rest, htop, hread⟩ | ⟨hc, hread⟩ <;> rw [hread]
  · refine ⟨List.forall_mem_cons.mpr ⟨⟨Nat.lt_succ_self n, isClosing_iff.mpr ⟨t.text, hc⟩⟩, hpending⟩, hpairs, ?_,
      List.forall_mem_cons.mpr ⟨fun y hy heq => ?_, h.apart⟩⟩
    · refine List.nodup_cons.mpr ⟨fun hmem => ?_, h.once⟩
      obtain ⟨x, hx, hxn⟩ := List.mem_map.mp hmem
      exact absurd (h.pending x hx).1 (hxn ▸ Nat.lt_irrefl _)
    · have heq : y.1 = n := heq
      have := h.pairs y hy
      omega
  · have honce := h.once
    have hapart := h.apart
    rw [htop] at hpending honce hapart
    obtain ⟨hfirst, hrest⟩ := List.nodup_cons.mp honce
    refine ⟨(List.forall_mem_cons.mp hpending).2, List.forall_mem_cons.mpr ⟨⟨?_, Nat.lt_succ_self n⟩, hpairs⟩, hrest,
      fun x hx => List.forall_mem_cons.mpr ⟨fun heq => hfirst ?_, (List.forall_mem_cons.mp hapart).2 x hx⟩⟩
    · exact (h.pending (i, t.text) (by simp [htop])).1
    · exact List.mem_map.mpr ⟨x, hx, heq.symm⟩
  · exact ⟨hpending, hpairs, h.once, h.apart⟩

theorem indexed_ofTokens (ts : List Token) : Indexed ts.length (ofTokens ts) := by
  induction ts using List.reverseRecOn with
  | nil => exact ⟨by simp [ofTokens], by simp [ofTokens], by simp [ofTokens], by simp [ofTokens]⟩
  | append_singleton ts t ih =>
    rw [ofTokens_concat, List.length_append]
    exact ih.read t

/-- A pair that is complete stays as it is, and no other comes before. -/
theorem mem_pairs_append_iff {us : List Token} {x : Nat × Nat} (hx : x.2 < ts.length) :
    x ∈ (ofTokens (ts ++ us)).pairs ↔ x ∈ (ofTokens ts).pairs := by
  induction us using List.reverseRecOn with
  | nil => rw [List.append_nil]
  | append_singleton us t ih =>
    rw [← List.append_assoc, ofTokens_concat, ← ih]
    rcases read_cases (ofTokens (ts ++ us)) (ts ++ us).length t with
      ⟨closer, -, hread⟩ | ⟨-, i, rest, -, hread⟩ | ⟨-, hread⟩ <;> rw [hread]
    rw [List.mem_cons, or_iff_right]
    rintro rfl
    simp only [List.length_append] at hx
    omega

/-- Tokens whose closing brackets all close one of them leave some brackets open and close no earlier one. -/
theorem readBrackets_part {before part : List Token}
    (h : ∀ k t, part[k]? = some t → isClosing t.text = true →
      ∃ i, before.length ≤ i ∧ (i, before.length + k) ∈ (ofTokens (before ++ part)).pairs) :
    ∃ opened : List (Nat × List Char), (ofTokens (before ++ part)).pending = opened ++ (ofTokens before).pending ∧
      (∀ x ∈ opened, before.length ≤ x.1) ∧
      ∀ awaited, readBrackets awaited (part.map (·.text)) = some (opened.map (·.2) ++ awaited) := by
  induction part using List.reverseRecOn with
  | nil => exact ⟨[], by simp, by simp, fun _ => rfl⟩
  | append_singleton part t ih =>
    have hold : ∀ k u, part[k]? = some u → isClosing u.text = true →
        ∃ i, before.length ≤ i ∧ (i, before.length + k) ∈ (ofTokens (before ++ part)).pairs := by
      intro k u hk hu
      have hlt := (List.getElem?_eq_some_iff.mp hk).1
      obtain ⟨i, hi, hpair⟩ := h k u (by rw [List.getElem?_append_left hlt, hk]) hu
      rw [← List.append_assoc, mem_pairs_append_iff (by simpa using hlt)] at hpair
      exact ⟨i, hi, hpair⟩
    obtain ⟨opened, hpending, hlate, hreads⟩ := ih hold
    have hnew := h part.length t (by simp)
    have hindexed := indexed_ofTokens (before ++ part)
    simp only [List.map_append, List.map_singleton, readBrackets_append, hreads, Option.bind_some]
    rw [← List.append_assoc, ofTokens_concat] at hnew ⊢
    rcases read_cases (ofTokens (before ++ part)) (before ++ part).length t with
      ⟨closer, hc, hread⟩ | ⟨hc, i, rest, htop, hread⟩ | ⟨hc, hread⟩ <;> rw [hread] at hnew ⊢
    · refine ⟨((before ++ part).length, closer) :: opened, by rw [hpending]; rfl,
        List.forall_mem_cons.mpr ⟨by simp, hlate⟩, fun awaited => ?_⟩
      simp [readBrackets_cons, readBracket, hc]
    · have hclosing : isClosing t.text = true := (hindexed.pending (i, t.text) (by simp [htop])).2
      cases opened with
      | nil =>
        -- The bracket that is closed was open before, but the pair lies in the part.
        obtain ⟨i', hi', hpair⟩ := hnew hclosing
        rcases List.mem_cons.mp hpair with heq | hpair
        · obtain ⟨rfl, -⟩ := Prod.mk.inj heq
          have hmem : (i', t.text) ∈ (ofTokens before).pending := by
            rw [List.nil_append] at hpending
            rw [← hpending, htop]
            exact List.mem_cons_self
          exact absurd ((indexed_ofTokens before).pending _ hmem).1 (by simpa using hi')
        · have := (hindexed.pairs _ hpair).2
          simp only [List.length_append] at this
          omega
      | cons x opened =>
        rw [htop, List.cons_append, List.cons.injEq] at hpending
        obtain ⟨rfl, hrest⟩ := hpending
        refine ⟨opened, hrest, (List.forall_mem_cons.mp hlate).2, fun awaited => ?_⟩
        simp [readBrackets_cons, readBracket, hc, hclosing]
    · have hplain : isClosing t.text = false := by
        by_contra hclosing
        obtain ⟨i, -, hpair⟩ := hnew (by simpa using hclosing)
        have := (hindexed.pairs _ hpair).2
        simp only [List.length_append] at this
        omega
      refine ⟨opened, hpending, hlate, fun awaited => ?_⟩
      rw [readBrackets_cons, readBracket_of_plain hc hplain]
      rfl

/-- Every bracket in the span is one of a pair. -/
def Settled (m : Matching) (ts : List Token) (s : Span) : Prop :=
  ∀ x ∈ ts.zipIdx, x.1.isBracket = true → s.covers x.1.span = true → ∃ y ∈ m.pairs, y.1 = x.2 ∨ y.2 = x.2

/-- Every bracket in the span is one of a pair that lies in the span. -/
def Enclosed (m : Matching) (ts : List Token) (s : Span) : Prop :=
  ∀ x ∈ ts.zipIdx, x.1.isBracket = true → s.covers x.1.span = true → ∃ y ∈ m.pairs, (y.1 = x.2 ∨ y.2 = x.2) ∧
    (∃ o ∈ ts[y.1]?, s.covers o.span = true) ∧ ∃ c ∈ ts[y.2]?, s.covers c.span = true

instance (m : Matching) (ts : List Token) (s : Span) : Decidable (m.Settled ts s) :=
  inferInstanceAs (Decidable (∀ _ ∈ _, _))

instance (m : Matching) (ts : List Token) (s : Span) : Decidable (m.Enclosed ts s) :=
  inferInstanceAs (Decidable (∀ _ ∈ _, _))

theorem isClosing_of_mem_pairs {x : Nat × Nat} (hx : x ∈ (ofTokens ts).pairs) :
    ∃ c, ts[x.2]? = some c ∧ isClosing c.text = true := by
  induction ts using List.reverseRecOn with
  | nil => cases hx
  | append_singleton ts t ih =>
    have hold : x ∈ (ofTokens ts).pairs → ∃ c, (ts ++ [t])[x.2]? = some c ∧ isClosing c.text = true := by
      intro hx
      obtain ⟨c, hc, hclosing⟩ := ih hx
      exact ⟨c, by rw [List.getElem?_append_left (List.getElem?_eq_some_iff.mp hc).1, hc], hclosing⟩
    rw [ofTokens_concat] at hx
    rcases read_cases (ofTokens ts) ts.length t with ⟨closer, -, hread⟩ | ⟨-, i, rest, htop, hread⟩ | ⟨-, hread⟩ <;>
      rw [hread] at hx
    · exact hold hx
    · rcases List.mem_cons.mp hx with rfl | hx
      · exact ⟨t, by simp, ((indexed_ofTokens ts).pending (i, t.text) (by simp [htop])).2⟩
      · exact hold hx
    · exact hold hx

theorem closerOf?_of_isClosing {text : List Char} (h : isClosing text = true) : closerOf? text = none := by
  simp only [isClosing, Bool.or_eq_true, decide_eq_true_eq] at h
  rcases h with (rfl | rfl) | rfl <;> rfl

/-- What a pair begins with opens a bracket, and what it ends with closes one. -/
theorem isClosing_iff_of_mem_pairs {i j k : Nat} {t : Token} (hij : (i, j) ∈ (ofTokens ts).pairs) (hk : ts[k]? = some t)
    (h : i = k ∨ j = k) : isClosing t.text = true ↔ j = k := by
  have hlt := ((indexed_ofTokens ts).pairs _ hij).1
  rcases h with rfl | rfl
  · obtain ⟨o, ho, hopening⟩ := (accounts_ofTokens ts).pairs _ hij
    obtain rfl : o = t := Option.some.inj (ho.symm.trans hk)
    refine iff_of_false (fun hclosing => ?_) (Nat.ne_of_gt hlt)
    simp [closerOf?_of_isClosing hclosing] at hopening
  · obtain ⟨c, hc, hclosing⟩ := isClosing_of_mem_pairs hij
    obtain rfl : c = t := Option.some.inj (hc.symm.trans hk)
    exact iff_of_true hclosing rfl

section Stretch
variable {before part after : List Token} {s : Span}
  (hpos : ∀ t ∈ before ++ part ++ after, t.span.start < t.span.stop)
  (hbefore : ∀ t ∈ before, t.span.stop ≤ s.start) (hafter : ∀ t ∈ after, s.stop ≤ t.span.start)
include hpos hbefore hafter

theorem index_of_covers {i : Nat} {t : Token} (hi : (before ++ part ++ after)[i]? = some t)
    (ht : s.covers t.span = true) : before.length ≤ i ∧ i < (before ++ part).length := by
  have hroom := hpos t (List.mem_of_getElem? hi)
  rw [Span.covers_iff] at ht
  constructor
  · by_contra hlt
    rw [List.append_assoc, List.getElem?_append_left (Nat.not_le.mp hlt)] at hi
    have := hbefore t (List.mem_of_getElem? hi)
    omega
  · by_contra hge
    rw [List.getElem?_append_right (Nat.not_lt.mp hge)] at hi
    have := hafter t (List.mem_of_getElem? hi)
    omega

variable (hin : ∀ t ∈ part, s.covers t.span = true)
  (h : (ofTokens (before ++ part ++ after)).Enclosed (before ++ part ++ after) s)
include hin h

/-- Both brackets of a pair come up while the stretch is read. -/
theorem exists_pair_of_enclosed {k : Nat} {t : Token} (hk : part[k]? = some t) (ht : t.isBracket = true) :
    ∃ y ∈ (ofTokens (before ++ part)).pairs, (y.1 = before.length + k ∨ y.2 = before.length + k) ∧
      before.length ≤ y.1 := by
  have hget : (before ++ part ++ after)[before.length + k]? = some t := by
    rw [List.append_assoc, List.getElem?_append_right (Nat.le_add_right _ _), Nat.add_sub_cancel_left,
      List.getElem?_append_left (List.getElem?_eq_some_iff.mp hk).1, hk]
  obtain ⟨y, hy, heq, ⟨o, ho, hoc⟩, c, hc, hcc⟩ :=
    h (t, before.length + k) (List.mk_mem_zipIdx_iff_getElem?.mpr hget) ht (hin t (List.mem_of_getElem? hk))
  have hplace := fun {i t} => @index_of_covers _ _ _ _ hpos hbefore hafter i t
  exact ⟨y, (mem_pairs_append_iff (hplace hc hcc).2).mp hy, heq, (hplace ho hoc).1⟩

/-- The tokens in a span leave no trace when their brackets match in the span. -/
theorem closed_of_enclosed : Closed (part.map (·.text)) := by
  have hpairs := fun {k t} => @exists_pair_of_enclosed _ _ _ _ hpos hbefore hafter hin h k t
  have hget : ∀ {k : Nat} {t : Token}, part[k]? = some t → (before ++ part)[before.length + k]? = some t := by
    intro k t hk
    rw [List.getElem?_append_right (Nat.le_add_right _ _), Nat.add_sub_cancel_left, hk]
  have hcloses : ∀ k t, part[k]? = some t → isClosing t.text = true →
      ∃ i, before.length ≤ i ∧ (i, before.length + k) ∈ (ofTokens (before ++ part)).pairs := by
    intro k t hk ht
    obtain ⟨⟨i, j⟩, hy, heq, hle⟩ := hpairs hk (by simp [Token.isBracket, ht])
    obtain rfl := (isClosing_iff_of_mem_pairs hy (hget hk) heq).mp ht
    exact ⟨i, hle, hy⟩
  obtain ⟨opened, hpending, hlate, hreads⟩ := readBrackets_part hcloses
  -- A bracket that stays open would be the first one of a pair, and those are not pending.
  have hnone : opened = [] := by
    refine List.eq_nil_iff_forall_not_mem.mpr fun x hx => ?_
    have hxp : x ∈ (ofTokens (before ++ part)).pending := hpending ▸ List.mem_append_left _ hx
    obtain ⟨o, ho, hopening⟩ := (accounts_ofTokens (before ++ part)).pending x hxp
    have hk : part[x.1 - before.length]? = some o := by rw [← ho, List.getElem?_append_right (hlate x hx)]
    obtain ⟨⟨i, j⟩, hy, heq, -⟩ := hpairs hk (by simp [Token.isBracket, hopening])
    rw [Nat.add_sub_cancel' (hlate x hx)] at heq
    rcases heq with heq | heq
    · exact (indexed_ofTokens (before ++ part)).apart x hxp (i, j) hy heq
    · have hclosing := (isClosing_iff_of_mem_pairs hy ho (Or.inr heq)).mpr heq
      simp [closerOf?_of_isClosing hclosing] at hopening
  intro awaited
  rw [hreads, hnone]
  rfl

end Stretch
end Matching

/-! ### Brackets of an element -/

theorem Token.index_eq {ts : List Token} (ho : ts.Pairwise Before) (hpos : ∀ t ∈ ts, t.span.start < t.span.stop)
    {i k : Nat} {t : Token} (hi : ts[i]? = some t) (hk : ts[k]? = some t) : i = k := by
  have hself : ¬t.Before t := Nat.not_le.mpr (hpos t (List.mem_of_getElem? hi))
  have hlt := (before_iff_lt ho hpos hi hk).not.mp hself
  have hgt := (before_iff_lt ho hpos hk hi).not.mp hself
  omega

namespace Grouped
variable {ts : List Token} {s : Spine} {places : List (Option Address)} {m : Matching} {t : Token}

theorem exists_at?_of_place (h : Grouped ts s places m) {k : Nat} {a : Address} (hk : ts[k]? = some t)
    (hplace : places[k]? = some (some a)) : ∃ n, s.tree.at? a = some n ∧ t ∈ n.tokens := by
  obtain ⟨us, hus⟩ := Option.isSome_iff_exists.mp (h.locates.found a (List.mem_of_getElem? hplace))
  obtain ⟨n, hn, rfl⟩ := Option.map_eq_some_iff.mp hus
  exact ⟨n, hn, h.locates.held a _ hus ▸ mem_heldAt hk hplace⟩

/-- Every bracket that is read has its place in the tree. -/
theorem mem_allTokens_of_isBracket (h : Grouped ts s places m) (hm : m.Accounts ts) (ht : t ∈ ts)
    (hbracket : t.isBracket = true) : t ∈ s.tree.allTokens := by
  obtain ⟨k, hk⟩ := List.mem_iff_getElem?.mp ht
  have hplace : ∃ a, places[k]? = some (some a) := by
    rcases (Bool.or_eq_true _ _).mp hbracket with hopening | hclosing
    · rcases hm.all k t hk hopening with ⟨y, hy, rfl⟩ | ⟨y, hy, rfl⟩
      · obtain ⟨x, -, hopened⟩ := h.exists_opened hy
        exact ⟨_, hopened.place⟩
      · obtain ⟨a, ha, -⟩ := h.paired y.1 y.2 hy
        exact ⟨a, ha⟩
    · obtain ⟨o, ho⟩ := isClosing_iff.mp hclosing
      by_cases hpaired : ∃ i, (i, k) ∈ m.pairs
      · obtain ⟨i, hi⟩ := hpaired
        obtain ⟨a, -, ha, -⟩ := h.paired i k hi
        exact ⟨a, ha⟩
      · obtain ⟨a, ha, -⟩ := h.alone k t o hk ho fun i hi => hpaired ⟨i, hi⟩
        exact ⟨a, ha⟩
  obtain ⟨a, ha⟩ := hplace
  obtain ⟨n, hn, hmem⟩ := h.exists_at?_of_place hk ha
  exact Node.mem_allTokens_of_at? hn (Node.mem_allTokens_of_mem_tokens hmem)

section
variable (h : Grouped ts s places m) (ho : ts.Pairwise Token.Before) (hpos : ∀ t ∈ ts, t.span.start < t.span.stop)
include h ho hpos

/-- Of two brackets that match, an element has both below it or none. -/
theorem mem_allTokens_iff_of_pair {i j : Nat} (hij : (i, j) ∈ m.pairs) {o c : Token} (hi : ts[i]? = some o)
    (hj : ts[j]? = some c) {a : Address} {n : Node} (hn : s.tree.at? a = some n) :
    o ∈ n.allTokens ↔ c ∈ n.allTokens := by
  obtain ⟨g, hig, hjg, -⟩ := h.paired i j hij
  obtain ⟨k, hk, hok⟩ := h.exists_at?_of_place hi hig
  obtain ⟨k', hk', hck⟩ := h.exists_at?_of_place hj hjg
  obtain rfl : k = k' := Option.some.inj (hk.symm.trans hk')
  have hsame : ∀ {l : Nat} {t u : Token}, ts[l]? = some t → places[l]? = some (some g) → u ∈ k.tokens →
      t ∈ n.allTokens → u ∈ n.allTokens := by
    intro l t u hl hlg hu ht
    obtain ⟨b, q, hq, htq⟩ := Node.exists_at?_of_mem_allTokens n ht
    have hat : s.tree.at? (b ++ a) = some q := by rw [Node.at?_append, hn]; exact hq
    obtain ⟨l', hl', hplace⟩ := h.exists_place hat htq
    obtain rfl := Token.index_eq ho hpos hl hl'
    rw [hlg, Option.some.injEq, Option.some.injEq] at hplace
    rw [hplace, hat, Option.some.injEq] at hk
    exact Node.mem_allTokens_of_at? hq (Node.mem_allTokens_of_mem_tokens (hk ▸ hu))
  exact ⟨hsame hi hig hck, hsame hj hjg hok⟩

end
end Grouped

section Element
variable {ts : List Token} (hts : ∀ t ∈ ts, t.Classified) (ho : ts.Pairwise Token.Before)
  (hpos : ∀ t ∈ ts, t.span.start < t.span.stop)
include hts ho hpos

/-- Inside the bound of an element there are no brackets but its own and those below it. -/
theorem Node.bound_covers_iff {a : Address} {n : Node} (hn : (Spine.ofTokens ts).tree.at? a = some n) (hne : a ≠ [])
    {t : Token} (ht : t ∈ ts) (hbracket : t.isBracket = true) :
    n.bound.covers t.span = true ↔ t ∈ n.allTokens := by
  have hordered := Spine.ordered_ofTokens hts ho
  have hroom : ∀ u ∈ (Spine.ofTokens ts).tree.allTokens, u.span.start < u.span.stop := fun u hu =>
    hpos u (Spine.mem_of_mem_ofTokens hts u hu)
  have hnroom : ∀ u ∈ n.allTokens, u.span.start < u.span.stop := fun u hu => hroom u (mem_allTokens_of_at? hn hu)
  obtain ⟨hon, hfilled⟩ := hordered.at? hn
  obtain ⟨⟨u, hu, hstart⟩, hleast⟩ := hon.bound_start (hfilled hne) hnroom
  obtain ⟨⟨v, hv, hstop⟩, hgreatest⟩ := hon.bound_stop (hfilled hne) hnroom
  rw [Span.covers_iff]
  constructor
  · rintro ⟨hle, hge⟩
    by_contra hout
    have hin := (Grouped.ofTokens hts).mem_allTokens_of_isBracket (Matching.accounts_ofTokens ts) ht hbracket
    have hapart := (Spine.laid_ofTokens hts ho).1.apart
    obtain ⟨⟨-, -, -, -, -, -, hoperator, -⟩, -⟩ :=
      hapart.of_inside hordered hroom hn hin hout hu (by omega) hv (by omega)
    simp [(hts t ht).isBracket_eq_false (by simp [hoperator]) (by simp [hoperator])] at hbracket
  · exact fun hmem => ⟨hleast t hmem, hgreatest t hmem⟩

/-- The brackets of an element that match at all match in it. -/
theorem Node.enclosed_of_settled {a : Address} {n : Node} (hn : (Spine.ofTokens ts).tree.at? a = some n) (hne : a ≠ [])
    (h : (Matching.ofTokens ts).Settled ts n.bound) : (Matching.ofTokens ts).Enclosed ts n.bound := by
  have hgrouped := Grouped.ofTokens hts
  rintro ⟨t, k⟩ hk hbracket hcovers
  have hk' := List.mk_mem_zipIdx_iff_getElem?.mp hk
  obtain ⟨⟨i, j⟩, hij, heq⟩ := h _ hk hbracket hcovers
  obtain ⟨o, hi, hopening⟩ := (Matching.accounts_ofTokens ts).pairs _ hij
  obtain ⟨c, hj, hclosing⟩ := Matching.isClosing_of_mem_pairs hij
  have hmem := (bound_covers_iff hts ho hpos hn hne (List.mem_of_getElem? hk') hbracket).mp hcovers
  have hboth : o ∈ n.allTokens ∧ c ∈ n.allTokens := by
    have hiff := hgrouped.mem_allTokens_iff_of_pair ho hpos hij hi hj hn
    rcases heq with rfl | rfl
    · obtain rfl : o = t := Option.some.inj (hi.symm.trans hk')
      exact ⟨hmem, hiff.mp hmem⟩
    · obtain rfl : c = t := Option.some.inj (hj.symm.trans hk')
      exact ⟨hiff.mpr hmem, hmem⟩
  have hcover := fun {u : Token} (hu : u ∈ ts) (hb : u.isBracket = true) =>
    (bound_covers_iff hts ho hpos hn hne hu hb).mpr
  exact ⟨(i, j), hij, heq, ⟨o, hi, hcover (List.mem_of_getElem? hi) (by simp [Token.isBracket, hopening]) hboth.1⟩,
    c, hj, hcover (List.mem_of_getElem? hj) (by simp [Token.isBracket, hclosing]) hboth.2⟩

/-- Between a word and what follows it in its element there is no bracket. -/
theorem Node.isBracket_between {a : Address} {k : Nat} {n : Node} (hn : (Spine.ofTokens ts).tree.at? a = some n)
    (hne : a ≠ []) {s t u : Token} (hs : n.tokens[k]? = some s) (ht : n.tokens[k + 1]? = some t)
    (hrole : t.role = .atom ∨ t.role = .opener) (hu : u ∈ ts) (hsu : s.Before u) (hut : u.Before t) :
    u.isBracket = false := by
  by_contra hbracket
  have hbracket : u.isBracket = true := by simpa using hbracket
  have hordered := Spine.ordered_ofTokens hts ho
  have hroom : ∀ v ∈ n.allTokens, v.span.start < v.span.stop := fun v hv =>
    hpos v (Spine.mem_of_mem_ofTokens hts v (mem_allTokens_of_at? hn hv))
  obtain ⟨hon, hfilled⟩ := hordered.at? hn
  have hsmem := mem_allTokens_of_mem_tokens (List.mem_of_getElem? hs)
  have htmem := mem_allTokens_of_mem_tokens (List.mem_of_getElem? ht)
  have hsroom := hroom s hsmem
  have htroom := hroom t htmem
  have huroom := hpos u hu
  have hle : s.span.stop ≤ u.span.start := hsu
  have hge : u.span.stop ≤ t.span.start := hut
  have hcovers : n.bound.covers u.span = true := by
    have hstart := (hon.bound_start (hfilled hne) hroom).2 s hsmem
    have hstop := (hon.bound_stop (hfilled hne) hroom).2 t htmem
    rw [Span.covers_iff]
    omega
  rcases mem_allTokens.mp ((bound_covers_iff hts ho hpos hn hne hu hbracket).mp hcovers) with hown | ⟨c, hc, huc⟩
  · obtain ⟨l, hl⟩ := List.mem_iff_getElem?.mp hown
    have hown := fun v hv => hroom v (mem_allTokens_of_mem_tokens hv)
    have hkl := (Token.before_iff_lt hon.own hown hs hl).mp hsu
    have hlk := (Token.before_iff_lt hon.own hown hl ht).mp hut
    omega
  · have hafter : t.span.stop ≤ u.span.start :=
      ((Spine.headed_ofTokens hts ho).at? hn).leads t (List.mem_of_getElem? ht) hrole c hc u huc
    omega

end Element

end SiblingSwap
