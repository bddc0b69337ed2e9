import SiblingSwap.Proofs.Brackets
import SiblingSwap.Proofs.Contiguity
import SiblingSwap.Proofs.Exchange

/-! Swaps and the level of brackets. A pair of spans is level when every pair of brackets around one of them is around
    the other, too. Neighbours are below two children of one node that follow each other, so all brackets around the
    right one are around both. What can be around the left one alone is left behind on the climb to the right: the
    climb keeps the last element below an inner link of a chain and goes on, and what it passes after that may be a
    closed pair of brackets. Main statement: that is the only way a swap can leave its level. -/

namespace SiblingSwap

/-- The span lies strictly between two tokens. -/
def Span.Between (s : Span) (opening closing : Token) : Prop :=
  opening.span.stop ≤ s.start ∧ s.stop ≤ closing.span.start

instance (s : Span) (opening closing : Token) : Decidable (s.Between opening closing) :=
  inferInstanceAs (Decidable (_ ∧ _))

/-- Brackets that match stand around both spans of a pair or around neither. -/
def Pair.Level (ts : List Token) (p : Pair) : Prop :=
  ∀ i j opening closing, (i, j) ∈ (Matching.ofTokens ts).pairs → ts[i]? = some opening → ts[j]? = some closing →
    (p.first.Between opening closing ↔ p.second.Between opening closing)

theorem Address.Beside.ne_nil {l r : Address} (h : l.Beside r) : l ≠ [] ∧ r ≠ [] := by
  obtain ⟨i, up, rfl, below, rfl⟩ := h
  simp

/-! ### Leaving brackets -/

namespace Node

/-- The element is a pair of brackets that is closed. -/
def isGroup (n : Node) : Bool := n.role = .closer && n.tokens.any fun t => (closerOf? t.text).isSome

def GroupAt (tree : Node) (a : Address) : Prop := ∃ n, tree.at? a = some n ∧ n.isGroup

/-- The climb to the right passes a closed pair of brackets once it has kept an element. -/
def leavesGroup (tree : Node) (kept : Bool) : Address → Bool
  | [] => false
  | i :: up =>
    kept && (tree.at? (i :: up)).any isGroup ||
      (tree.next? (i :: up)).isNone && leavesGroup tree (kept || tree.isChainLink up) up

theorem exists_token_of_role {n : Node} (h : n.role ≠ .opener) :
    ∃ t ∈ n.tokens, n.role = t.role ∧ n.priority = t.priority := by
  cases ht : n.tokens.getLast? with
  | none => simp [role, ht] at h
  | some t => exact ⟨t, List.mem_of_getLast? ht, by simp [role, ht], by simp [priority, ht]⟩

theorem Classified.lt_priority_of_operator {n : Node} (h : n.Classified) (hr : n.role = .operator) :
    3 < n.priority := by
  obtain ⟨t, ht, hrole, hpriority⟩ := exists_token_of_role (n := n) (by simp [hr])
  rw [hpriority]
  exact (h t ht).lt_priority_of_operator (hrole ▸ hr)

theorem Classified.priority_le_of_group {n : Node} (h : n.Classified) (hg : n.isGroup = true) : n.priority ≤ 3 := by
  have hr : n.role = .closer := by
    simp only [isGroup, Bool.and_eq_true, decide_eq_true_eq] at hg
    exact hg.1
  obtain ⟨t, ht, hrole, hpriority⟩ := exists_token_of_role (n := n) (by simp [hr])
  rw [hpriority]
  exact (h t ht).priority_le_of_closer (hrole ▸ hr)

section Climb
variable {tree : Node} {a l r : Address}

theorem groupAt_iff : tree.GroupAt a ↔ (tree.at? a).any isGroup = true := by
  rw [GroupAt]
  cases tree.at? a <;> simp

theorem next?_eq_some {i : Nat} {up : Address} (h : tree.next? (i :: up) = some r) : r = (i + 1) :: up := by
  simp only [next?, Option.ite_none_right_eq_some, Option.some.injEq] at h
  exact h.2.symm

/-- Once an element is kept, it stays the left one, and the right one is found beside an ancestor. -/
theorem rightFrom_some {k : Address} (h : tree.rightFrom (some k) a = ⟨some l, some r⟩) :
    l = k ∧ ∃ i up, r = (i + 1) :: up ∧ i :: up <:+ a := by
  induction a with
  | nil => simp [rightFrom] at h
  | cons i up ih =>
    unfold rightFrom at h
    split at h
    · next right hnext =>
      simp only [Option.getD_some, Neighbors.mk.injEq, Option.some.injEq] at h
      obtain ⟨rfl, rfl⟩ := h
      exact ⟨rfl, i, up, next?_eq_some hnext, List.suffix_refl _⟩
    · obtain ⟨hl, j, upper, hr, hsuffix⟩ := ih h
      exact ⟨hl, j, upper, hr, hsuffix.trans (List.suffix_cons i up)⟩

theorem leavesGroup_true_iff {k : Address} (h : tree.rightFrom (some k) a = ⟨some l, some r⟩) :
    tree.leavesGroup true a = true ↔ ∃ g, tree.GroupAt g ∧ g <:+ a ∧ ¬Address.Above g r := by
  induction a with
  | nil => simp [rightFrom] at h
  | cons i up ih =>
    -- The groups at or above this step are the one that it passes and those at or above the next one.
    have here : ¬Address.Above (i :: up) r := by
      intro habove
      obtain ⟨-, j, upper, rfl, hsuffix⟩ := rightFrom_some h
      have := habove.length_lt
      have := hsuffix.length_le
      simp only [List.length_cons] at *
      omega
    unfold rightFrom at h
    unfold leavesGroup
    split at h
    · next right hnext =>
      simp only [Neighbors.mk.injEq, Option.some.injEq] at h
      obtain rfl : r = (i + 1) :: up := h.2 ▸ next?_eq_some hnext
      simp only [hnext, Option.isNone_some, Bool.false_and, Bool.or_false, Bool.true_and, ← groupAt_iff]
      constructor
      · exact fun hgroup => ⟨i :: up, hgroup, List.suffix_refl _, here⟩
      · rintro ⟨g, hgroup, hsuffix, hnot⟩
        rw [Address.above_cons_iff] at hnot
        obtain rfl := (List.suffix_cons_iff.mp hsuffix).resolve_right hnot
        exact hgroup
    · next hnext =>
      simp only [hnext, Option.isNone_none, Bool.true_and, Bool.true_or, Bool.or_eq_true, ← groupAt_iff, ih h]
      constructor
      · rintro (hgroup | ⟨g, hgroup, hsuffix, hnot⟩)
        · exact ⟨i :: up, hgroup, List.suffix_refl _, here⟩
        · exact ⟨g, hgroup, hsuffix.trans (List.suffix_cons i up), hnot⟩
      · rintro ⟨g, hgroup, hsuffix, hnot⟩
        rcases List.suffix_cons_iff.mp hsuffix with rfl | hsuffix
        · exact Or.inl hgroup
        · exact Or.inr ⟨g, hgroup, hsuffix, hnot⟩

/-- Closed brackets stand around the left neighbour alone if and only if the climb leaves some. -/
theorem leavesGroup_iff (h : tree.rightNeighbors a = ⟨some l, some r⟩) :
    tree.leavesGroup false a = true ↔ ∃ g, tree.GroupAt g ∧ Address.Above g l ∧ ¬Address.Above g r := by
  rw [rightNeighbors] at h
  induction a with
  | nil => simp [rightFrom] at h
  | cons i up ih =>
    unfold rightFrom at h
    unfold leavesGroup
    split at h
    · next right hnext =>
      simp only [Option.getD_none, Neighbors.mk.injEq, Option.some.injEq] at h
      obtain ⟨rfl, rfl⟩ := h
      obtain rfl := next?_eq_some hnext
      simp [hnext, Address.above_cons_iff]
    · next hnext =>
      simp only [hnext, Option.isNone_none, Bool.false_and, Bool.false_or, Bool.true_and]
      cases hlink : tree.isChainLink up with
      | true =>
        simp only [hlink, if_true] at h
        obtain ⟨rfl, -⟩ := rightFrom_some h
        simp only [leavesGroup_true_iff h, Address.above_cons_iff]
      | false =>
        simp only [hlink, Bool.false_eq_true, if_false] at h
        exact ih h

/-- On the left a neighbour gives way to its last child only where it binds like an operator, which no brackets do. -/
theorem above_iff_of_leftNeighbors (hclassified : ∀ b n, tree.at? b = some n → n.Classified)
    (h : tree.leftNeighbors a = ⟨some l, some r⟩) {g : Address} (hg : tree.GroupAt g) :
    Address.Above g l ↔ Address.Above g r := by
  obtain ⟨i, up, n, parent, rfl, -, hn, hparent, rfl | ⟨hrole, hpriority, hlast⟩⟩ := leftNeighbors_cases h
  · rw [Address.above_cons_iff, Address.above_cons_iff]
  · obtain ⟨j, rfl⟩ := lastChild?_eq_some hlast
    have hne : g ≠ i :: up := by
      rintro rfl
      obtain ⟨m, hm, hgroup⟩ := hg
      rw [hn, Option.some.injEq] at hm
      subst hm
      have := (hclassified _ _ hparent).lt_priority_of_operator hrole
      have := (hclassified _ _ hn).priority_le_of_group hgroup
      omega
    rw [Address.above_cons_iff, Address.above_cons_iff, List.suffix_cons_iff]
    simp [hne]

end Climb

/-! ### Tokens below an element -/

mutual

theorem exists_at?_of_mem_allTokens {t : Token} (n : Node) (ht : t ∈ n.allTokens) :
    ∃ a m, n.at? a = some m ∧ t ∈ m.tokens := by
  obtain ⟨ts, cs⟩ := n
  rcases List.mem_append.mp ht with ht | ht
  · exact ⟨[], _, rfl, ht⟩
  · obtain ⟨i, c, hi, a, m, hm, hmem⟩ := exists_at?_of_mem_allTokensAmong cs ht
    exact ⟨a ++ [i], m, by rw [at?_concat, hi]; exact hm, hmem⟩

theorem exists_at?_of_mem_allTokensAmong {t : Token} (cs : List Node) (ht : t ∈ allTokensAmong cs) :
    ∃ (i : Nat) (c : Node), cs[i]? = some c ∧ ∃ a m, c.at? a = some m ∧ t ∈ m.tokens := by
  match cs with
  | [] => cases ht
  | c :: cs =>
    rcases List.mem_append.mp ht with ht | ht
    · exact ⟨0, c, rfl, exists_at?_of_mem_allTokens c ht⟩
    · obtain ⟨i, d, hi, hd⟩ := exists_at?_of_mem_allTokensAmong cs ht
      exact ⟨i + 1, d, hi, hd⟩

end

end Node

/-! ### Brackets that match -/

namespace Matching
variable {ts : List Token} {m : Matching} {t : Token}

theorem read_cases (m : Matching) (k : Nat) (t : Token) :
    (∃ closer, closerOf? t.text = some closer ∧ m.read k t = ⟨(k, closer) :: m.pending, m.pairs⟩) ∨
    (closerOf? t.text = none ∧ ∃ i rest, m.pending = (i, t.text) :: rest ∧ m.read k t = ⟨rest, (i, k) :: m.pairs⟩) ∨
    (closerOf? t.text = none ∧ m.read k t = m) := by
  unfold read
  split
  · next closer hc => exact Or.inl ⟨closer, hc, rfl⟩
  · next i closer rest hc hpending =>
    split
    · next heq => exact Or.inr (Or.inl ⟨hc, i, rest, heq ▸ hpending, rfl⟩)
    · exact Or.inr (Or.inr ⟨hc, rfl⟩)
  · next hc _ => exact Or.inr (Or.inr ⟨hc, rfl⟩)

/-- What is open or paired are opening brackets, and there are no others. -/
structure Accounts (ts : List Token) (m : Matching) : Prop where
  pending : ∀ x ∈ m.pending, ∃ o, ts[x.1]? = some o ∧ (closerOf? o.text).isSome
  pairs : ∀ x ∈ m.pairs, ∃ o, ts[x.1]? = some o ∧ (closerOf? o.text).isSome
  all : ∀ i o, ts[i]? = some o → (closerOf? o.text).isSome → (∃ x ∈ m.pending, x.1 = i) ∨ ∃ x ∈ m.pairs, x.1 = i

theorem Accounts.read (h : Accounts ts m) (t : Token) : Accounts (ts ++ [t]) (m.read ts.length t) := by
  have old : ∀ {i : Nat}, (∃ o, ts[i]? = some o ∧ (closerOf? o.text).isSome) →
      ∃ o, (ts ++ [t])[i]? = some o ∧ (closerOf? o.text).isSome := by
    rintro i ⟨o, hi, ho⟩
    exact ⟨o, by rw [List.getElem?_append_left (List.getElem?_eq_some_iff.mp hi).1, hi], ho⟩
  rcases read_cases m ts.length t with ⟨closer, hc, hread⟩ | ⟨hc, i, rest, hpending, hread⟩ | ⟨hc, hread⟩ <;> rw [hread]
  · refine ⟨List.forall_mem_cons.mpr ⟨⟨t, by simp, by simp [hc]⟩, fun x hx => old (h.pending x hx)⟩,
      fun x hx => old (h.pairs x hx), fun i o hi ho => ?_⟩
    rcases getElem?_concat_eq_some hi with hi | ⟨rfl, -⟩
    · exact (h.all i o hi ho).imp_left fun ⟨x, hx, hxi⟩ => ⟨x, List.mem_cons_of_mem _ hx, hxi⟩
    · exact Or.inl ⟨_, List.mem_cons_self, rfl⟩
  · have hpend := h.pending
    have hall := h.all
    simp only [hpending, List.forall_mem_cons, List.exists_mem_cons_iff] at hpend hall
    refine ⟨fun x hx => old (hpend.2 x hx),
      List.forall_mem_cons.mpr ⟨old hpend.1, fun x hx => old (h.pairs x hx)⟩, fun k o hk ho => ?_⟩
    rcases getElem?_concat_eq_some hk with hk | ⟨-, rfl⟩
    · simp only [List.exists_mem_cons_iff]
      rcases hall k o hk ho with (hik | hrest) | hpairs
      · exact Or.inr (Or.inl hik)
      · exact Or.inl hrest
      · exact Or.inr (Or.inr hpairs)
    · simp [hc] at ho
  · refine ⟨fun x hx => old (h.pending x hx), fun x hx => old (h.pairs x hx), fun k o hk ho => ?_⟩
    rcases getElem?_concat_eq_some hk with hk | ⟨-, rfl⟩
    · exact h.all k o hk ho
    · simp [hc] at ho

theorem accounts_ofTokens (ts : List Token) : Accounts ts (ofTokens ts) := by
  induction ts using List.reverseRecOn with
  | nil => exact ⟨by simp [ofTokens], by simp [ofTokens], by simp⟩
  | append_singleton ts t ih =>
    rw [ofTokens_concat]
    exact ih.read t

end Matching

/-! ### Groups and their places -/

theorem exists_place_of_mem_heldAt {ts : List Token} {places : List (Option Address)} {a : Address} {t : Token}
    (h : t ∈ heldAt ts places a) : ∃ k : Nat, ts[k]? = some t ∧ places[k]? = some (some a) := by
  obtain ⟨⟨u, p⟩, hmem, rfl⟩ := List.mem_map.mp h
  obtain ⟨hmem, hp⟩ := List.mem_filter.mp hmem
  obtain rfl : p = some a := by simpa using hp
  obtain ⟨k, hk⟩ := List.mem_iff_getElem?.mp hmem
  exact ⟨k, List.getElem?_zip_eq_some.mp hk⟩

theorem mem_heldAt {ts : List Token} {places : List (Option Address)} {a : Address} {t : Token} {k : Nat}
    (ht : ts[k]? = some t) (ha : places[k]? = some (some a)) : t ∈ heldAt ts places a := by
  refine List.mem_map.mpr ⟨(t, some a), List.mem_filter.mpr ⟨?_, by simp⟩, rfl⟩
  exact List.mem_iff_getElem?.mpr ⟨k, List.getElem?_zip_eq_some.mpr ⟨ht, ha⟩⟩

/-- Whoever waits for a bracket has an opening one for its last token. -/
theorem Spine.tokensAt?_of_mem_awaitedAlong {n : Node} {ps : List Node} {x : List Char × Address}
    (h : x ∈ awaitedAlong (n :: ps)) :
    ∃ us t, (n.under ps).tokensAt? x.2 = some us ∧ us.getLast? = some t ∧ closerOf? t.text = some x.1 := by
  induction ps generalizing n with
  | nil =>
    simp only [awaitedAlong, List.append_nil, List.mem_map, Option.mem_toList] at h
    obtain ⟨closer, hc, rfl⟩ := h
    obtain ⟨t, ht, htc⟩ := Option.bind_eq_some_iff.mp hc
    exact ⟨n.tokens, t, rfl, ht, htc⟩
  | cons p ps ih =>
    rw [awaitedAlong] at h
    rcases List.mem_append.mp h with h | h
    · obtain ⟨closer, hc, rfl⟩ := List.mem_map.mp h
      obtain ⟨t, ht, htc⟩ := Option.bind_eq_some_iff.mp (Option.mem_toList.mp hc)
      exact ⟨n.tokens, t, Node.tokensAt?_under_append n (p :: ps) [], ht, htc⟩
    · exact ih (n := p.push n) h

namespace Grouped
variable {ts : List Token} {s : Spine} {places : List (Option Address)} {m : Matching} {g : Address}

theorem exists_place (h : Grouped ts s places m) {a : Address} {n : Node} (hn : s.tree.at? a = some n) {t : Token}
    (ht : t ∈ n.tokens) : ∃ k : Nat, ts[k]? = some t ∧ places[k]? = some (some a) := by
  have htokens : s.tree.tokensAt? a = some n.tokens := by rw [Node.tokensAt?, hn]; rfl
  exact exists_place_of_mem_heldAt (h.locates.held a _ htokens ▸ ht)

theorem exists_opened (h : Grouped ts s places m) {y : Nat × List Char} (hy : y ∈ m.pending) :
    ∃ x ∈ s.awaited, Opened places x y := by
  have hopened := h.opened
  generalize s.awaited = awaited, m.pending = pending at hopened hy ⊢
  induction hopened with
  | nil => cases hy
  | @cons x _ _ _ hx _ ih =>
    rcases List.mem_cons.mp hy with rfl | hy
    · exact ⟨x, List.mem_cons_self, hx⟩
    · obtain ⟨x, hmem, hx⟩ := ih hy
      exact ⟨x, List.mem_cons_of_mem _ hmem, hx⟩

/-- The closed pairs of brackets in the tree are those of the text. -/
theorem groupAt_iff (h : Grouped ts s places m) (hm : m.Accounts ts) (hts : ∀ t ∈ ts, t.Classified) :
    s.tree.GroupAt g ↔ ∃ i j, (i, j) ∈ m.pairs ∧ places[i]? = some (some g) := by
  constructor
  · rintro ⟨n, hn, hgroup⟩
    simp only [Node.isGroup, Bool.and_eq_true, decide_eq_true_eq, List.any_eq_true] at hgroup
    obtain ⟨hrole, o, ho, hopening⟩ := hgroup
    obtain ⟨k, hk, hplace⟩ := h.exists_place hn ho
    rcases hm.all k o hk hopening with ⟨x, hx, rfl⟩ | ⟨x, hx, rfl⟩
    · -- An element that still waits for a bracket is no closed one.
      obtain ⟨y, hy, hopened⟩ := h.exists_opened hx
      obtain ⟨us, t, hus, hlast, hclose⟩ := Spine.tokensAt?_of_mem_awaitedAlong hy
      rw [hopened.place, Option.some.injEq, Option.some.injEq] at hplace
      rw [← Spine.tree, hplace, Node.tokensAt?, hn, Option.map_some, Option.some.injEq] at hus
      subst hus
      obtain ⟨_, ht, -⟩ := h.exists_place hn (List.mem_of_getLast? hlast)
      have hopener := ((hts t (List.mem_of_getElem? ht)).of_bracket hclose).1
      simp [Node.role, hlast, hopener] at hrole
    · exact ⟨x.1, x.2, hx, hplace⟩
  · rintro ⟨i, j, hij, hplace⟩
    obtain ⟨a, hi, -, ⟨u, hu, hrole⟩, -⟩ := h.paired i j hij
    rw [hplace, Option.some.injEq, Option.some.injEq] at hi
    subst hi
    obtain ⟨us, hus, hlast⟩ := Option.bind_eq_some_iff.mp hu
    obtain ⟨n, hn, rfl⟩ := Option.map_eq_some_iff.mp hus
    obtain ⟨o, ho, hopening⟩ := hm.pairs (i, j) hij
    have hmem : o ∈ n.tokens := h.locates.held g _ hus ▸ mem_heldAt ho hplace
    refine ⟨n, hn, ?_⟩
    simp only [Node.isGroup, Bool.and_eq_true, decide_eq_true_eq, List.any_eq_true]
    exact ⟨by simp [Node.role, hlast, hrole], o, hmem, hopening⟩

end Grouped

/-! ### Spans between brackets -/

theorem Token.before_iff_lt {ts : List Token} (ho : ts.Pairwise Before) (hpos : ∀ t ∈ ts, t.span.start < t.span.stop)
    {i k : Nat} {s t : Token} (hs : ts[i]? = some s) (ht : ts[k]? = some t) : s.Before t ↔ i < k := by
  have hs' := hpos s (List.mem_of_getElem? hs)
  have ht' := hpos t (List.mem_of_getElem? ht)
  obtain ⟨hi, rfl⟩ := List.getElem?_eq_some_iff.mp hs
  obtain ⟨hk, rfl⟩ := List.getElem?_eq_some_iff.mp ht
  have hpairs := List.pairwise_iff_getElem.mp ho
  constructor
  · intro hbefore
    have hbefore : ts[i].span.stop ≤ ts[k].span.start := hbefore
    rcases Nat.lt_trichotomy i k with hlt | rfl | hlt
    · exact hlt
    · omega
    · have hafter : ts[k].span.stop ≤ ts[i].span.start := hpairs k i hk hi hlt
      omega
  · exact hpairs i k hi hk

namespace Node

/-- The tokens between two brackets are those of the elements below the address. -/
def Holds (tree : Node) (opening closing : Token) (g : Address) : Prop :=
  ∀ a n, tree.at? a = some n → ∀ t ∈ n.tokens, (opening.Before t ∧ t.Before closing ↔ Address.Above g a)

theorem Holds.bound_between_iff {tree n : Node} {opening closing : Token} {a g : Address}
    (h : tree.Holds opening closing g) (ho : Ordered tree) (hpos : ∀ t ∈ tree.allTokens, t.span.start < t.span.stop)
    (hn : tree.at? a = some n) (hne : a ≠ []) : n.bound.Between opening closing ↔ Address.Above g a := by
  obtain ⟨hordered, hfilled⟩ := ho.at? hn
  have hnpos : ∀ t ∈ n.allTokens, t.span.start < t.span.stop := fun t ht => hpos t (mem_allTokens_of_at? hn ht)
  obtain ⟨⟨s, hs, hstart⟩, hleast⟩ := hordered.bound_start (hfilled hne) hnpos
  obtain ⟨⟨t, ht, hstop⟩, hgreatest⟩ := hordered.bound_stop (hfilled hne) hnpos
  constructor
  · rintro ⟨hopening, hclosing⟩
    obtain ⟨u, hu⟩ := List.exists_mem_of_ne_nil _ (hfilled hne)
    have hu' := mem_allTokens_of_mem_tokens hu
    exact (h a n hn u hu).mp
      ⟨Nat.le_trans hopening (hleast u hu'), Nat.le_trans (hgreatest u hu') hclosing⟩
  · intro habove
    have hbetween : ∀ u ∈ n.allTokens, opening.Before u ∧ u.Before closing := by
      intro u hu
      obtain ⟨b, m, hm, hmem⟩ := exists_at?_of_mem_allTokens n hu
      have hat : tree.at? (b ++ a) = some m := by rw [at?_append, hn]; exact hm
      refine (h (b ++ a) m hat u hmem).mpr ⟨habove.1.trans (List.suffix_append b a), fun heq => ?_⟩
      have := habove.length_lt
      rw [heq, List.length_append] at this
      omega
    exact ⟨hstart ▸ (hbetween s hs).1, hstop ▸ (hbetween t ht).2⟩

end Node

namespace Grouped
variable {ts : List Token} {s : Spine} {places : List (Option Address)} {m : Matching} {g : Address}

theorem holds (h : Grouped ts s places m) (ho : ts.Pairwise Token.Before)
    (hpos : ∀ t ∈ ts, t.span.start < t.span.stop) {i j : Nat} (hij : (i, j) ∈ m.pairs)
    (hplace : places[i]? = some (some g)) {opening closing : Token} (hi : ts[i]? = some opening)
    (hj : ts[j]? = some closing) : s.tree.Holds opening closing g := by
  intro a n hn t ht
  obtain ⟨g', hg', -, -, hencloses⟩ := h.paired i j hij
  rw [hplace, Option.some.injEq, Option.some.injEq] at hg'
  subst hg'
  obtain ⟨k, hk, hka⟩ := h.exists_place hn ht
  rw [hencloses k a hka, Token.before_iff_lt ho hpos hi hk, Token.before_iff_lt ho hpos hk hj]

/-- A statement about all brackets that match is one about all closed pairs of brackets in the tree. -/
theorem forall_pairs_iff (h : Grouped ts s places m) (hm : m.Accounts ts) (hts : ∀ t ∈ ts, t.Classified)
    (ho : ts.Pairwise Token.Before) (hpos : ∀ t ∈ ts, t.span.start < t.span.stop) {A : Token → Token → Prop}
    {B : Address → Prop} (hAB : ∀ opening closing g, s.tree.Holds opening closing g → (A opening closing ↔ B g)) :
    (∀ i j opening closing, (i, j) ∈ m.pairs → ts[i]? = some opening → ts[j]? = some closing → A opening closing) ↔
      ∀ g, s.tree.GroupAt g → B g := by
  constructor
  · intro hall g hg
    obtain ⟨i, j, hij, hplace⟩ := (h.groupAt_iff hm hts).mp hg
    obtain ⟨opening, hi, -⟩ := hm.pairs (i, j) hij
    obtain ⟨a, -, hja, -⟩ := h.paired i j hij
    have hlt : j < ts.length := h.locates.length ▸ (List.getElem?_eq_some_iff.mp hja).1
    have hj : ts[j]? = some ts[j] := List.getElem?_eq_getElem hlt
    exact (hAB _ _ g (h.holds ho hpos hij hplace hi hj)).mp (hall i j opening _ hij hi hj)
  · intro hall i j opening closing hij hi hj
    obtain ⟨g, hplace, -⟩ := h.paired i j hij
    exact (hAB _ _ g (h.holds ho hpos hij hplace hi hj)).mpr
      (hall g ((h.groupAt_iff hm hts).mpr ⟨i, j, hij, hplace⟩))

end Grouped

/-! ### Swaps -/

namespace Node
variable {tree left right n : Node} {l r : Address}

/-- The spans of a pair are the bounds of two neighbours of the element at the place, or those of two tokens of an
    element below the root. -/
theorem pairAt_eq_ok {pos : Nat} {d : Direction} {p : Pair} (h : tree.pairAt pos d = .ok p) :
    ∃ target, tree.locate? pos = some target ∧
      ((∃ l r left right, tree.neighbors target d = ⟨some l, some r⟩ ∧ tree.at? l = some left ∧
          tree.at? r = some right ∧ p = ⟨left.bound, right.bound⟩) ∨
        ∃ i n, target = [i] ∧ tree.at? [i] = some n ∧ ∃ s ∈ n.tokens, ∃ t ∈ n.tokens, p = ⟨s.span, t.span⟩) := by
  obtain ⟨target, hlocate, ⟨l, r, left, right, hneighbors, hl, hr, h⟩ | ⟨i, n, hi, hn, h⟩⟩ := pairAt_cases h
  · exact ⟨target, hlocate, Or.inl ⟨l, r, left, right, hneighbors, hl, hr, (elementPair_eq_ok h).2⟩⟩
  · obtain ⟨k, s, t, hs, ht, hp, -⟩ := tokenPair_cases h
    exact ⟨target, hlocate, Or.inr ⟨i, n, hi, hn, s, List.mem_of_getElem? hs, t, List.mem_of_getElem? ht, hp⟩⟩

/-- Around the right one of two neighbours there is nothing that is not around the left one. -/
theorem above_of_beside {g : Address} (h : l.Beside r) (hg : Address.Above g r) : Address.Above g l := by
  obtain ⟨i, up, rfl, below, rfl⟩ := h
  rw [Address.above_cons_iff] at hg
  refine ⟨hg.trans ((List.suffix_cons i up).trans (List.suffix_append below _)), fun heq => ?_⟩
  have hlength := hg.length_le
  rw [heq, List.length_append, List.length_cons] at hlength
  omega

/-- The brackets around two neighbours are the same, unless the climb to the right leaves some. -/
theorem forall_groups_iff (hclassified : ∀ b n, tree.at? b = some n → n.Classified) {a : Address} {d : Direction}
    (h : tree.neighbors a d = ⟨some l, some r⟩) :
    (∀ g, tree.GroupAt g → (Address.Above g l ↔ Address.Above g r)) ↔
      ¬(d = .forward ∧ tree.leavesGroup false a = true) := by
  have hbeside := neighbors_beside h
  cases d with
  | forward =>
    rw [leavesGroup_iff h]
    constructor
    · rintro hall ⟨-, g, hgroup, hl, hr⟩
      exact hr ((hall g hgroup).mp hl)
    · intro hnot g hgroup
      refine ⟨fun hl => ?_, above_of_beside hbeside⟩
      by_contra hr
      exact hnot ⟨rfl, g, hgroup, hl, hr⟩
  | backward => simpa using fun g hgroup => above_iff_of_leftNeighbors hclassified h hgroup

end Node

namespace Buffer

/-- A swap stays at one level of brackets, unless it is a forward one whose climb leaves closed brackets after it has
    kept an element. -/
theorem resolve_level_iff {b : Buffer} {pos extendLines : Nat} {d : Direction} {p : Pair}
    (resolved : b.resolve pos d extendLines = .ok p) :
    p.Level (tokenize b.text (b.window pos d extendLines)) ↔
      ¬(d = .forward ∧ ((b.tree pos d extendLines).locate? pos).any
        ((b.tree pos d extendLines).leavesGroup false) = true) := by
  obtain ⟨hpairs, hfound⟩ := tokenize_spec b.text (b.window pos d extendLines)
  have htree : b.tree pos d extendLines = Node.ofTokens (tokenize b.text (b.window pos d extendLines)) := rfl
  have hpair : (b.tree pos d extendLines).pairAt pos d = .ok p := resolved
  generalize tokenize b.text (b.window pos d extendLines) = ts at *
  generalize b.tree pos d extendLines = tree at *
  have hts : ∀ t ∈ ts, t.Classified := fun t ht => (hfound t ht).classified
  have hroom : ∀ t ∈ ts, t.span.start < t.span.stop := fun t ht => (hfound t ht).nonempty
  rw [Node.ofTokens_eq hts] at htree
  have hread : ∀ u ∈ tree.allTokens, u ∈ ts := htree ▸ Spine.mem_of_mem_ofTokens hts
  have hordered : tree.Ordered := htree ▸ Spine.ordered_ofTokens hts hpairs
  have hclassified : ∀ a n, tree.at? a = some n → n.Classified := fun a n hn t ht =>
    hts t (hread t (Node.mem_allTokens_of_at? hn (Node.mem_allTokens_of_mem_tokens ht)))
  -- Brackets that match are told by the closed pairs of brackets in the tree.
  have hgroups := @Grouped.forall_pairs_iff _ _ _ _ (Grouped.ofTokens hts) (Matching.accounts_ofTokens ts) hts hpairs
    hroom fun opening closing => p.first.Between opening closing ↔ p.second.Between opening closing
  rw [← htree] at hgroups
  obtain ⟨target, hlocate, ⟨l, r, left, right, hneighbors, hl, hr, rfl⟩ | ⟨i, n, rfl, hn, s, hs, t, ht, rfl⟩⟩ :=
    Node.pairAt_eq_ok hpair
  · have hbeside := Node.neighbors_beside hneighbors
    rw [Pair.Level, hgroups fun opening closing g hg => iff_congr
      (hg.bound_between_iff hordered (fun u hu => hroom u (hread u hu)) hl hbeside.ne_nil.1)
      (hg.bound_between_iff hordered (fun u hu => hroom u (hread u hu)) hr hbeside.ne_nil.2),
      Node.forall_groups_iff hclassified hneighbors, hlocate, Option.any_some]
  · rw [Pair.Level, hgroups (B := fun _ => True) fun opening closing g hg => iff_true_intro
      ((hg [i] n hn s hs).trans (hg [i] n hn t ht).symm)]
    simp [hlocate, Node.leavesGroup]

/-- In `[(a), f(b)]` the elements `(a)` and `f(b)` are exchanged, and both are right inside the outer brackets. -/
theorem resolve_level_iff_of_groups :
    let b := Buffer.withCursor "[(a), f(b)]".toList 1
    b.resolve 1 .forward 1 = .ok ⟨⟨1, 4⟩, ⟨6, 10⟩⟩ ∧
      (⟨⟨1, 4⟩, ⟨6, 10⟩⟩ : Pair).Level (tokenize b.text (b.window 1 .forward 1)) := by
  intro b
  have resolved : b.resolve 1 .forward 1 = .ok ⟨⟨1, 4⟩, ⟨6, 10⟩⟩ := by decide +kernel
  exact ⟨resolved, (resolve_level_iff resolved).mpr (by decide +kernel)⟩

/-- In `(a, b,) + c` a swap forward from `b` exchanges it with `c`, which is outside the brackets. -/
theorem exists_resolve_not_level :
    ¬∀ (b : Buffer) (pos : Nat) (d : Direction) (extendLines : Nat) (p : Pair),
      b.resolve pos d extendLines = .ok p → p.Level (tokenize b.text (b.window pos d extendLines)) := by
  intro h
  let b := Buffer.withCursor "(a, b,) + c".toList 4
  have hlevel := h b 4 .forward 1 ⟨⟨4, 5⟩, ⟨10, 11⟩⟩ (by decide +kernel)
  have htokens : tokenize b.text (b.window 4 .forward 1) = [.ofLexeme ['('] ⟨0, 1⟩, .ofLexeme ['a'] ⟨1, 2⟩,
      .ofLexeme [','] ⟨2, 3⟩, .ofLexeme ['b'] ⟨4, 5⟩, .ofLexeme [','] ⟨5, 6⟩, .ofLexeme [')'] ⟨6, 7⟩,
      .ofLexeme ['+'] ⟨8, 9⟩, .ofLexeme ['c'] ⟨10, 11⟩] := by decide +kernel
  rw [htokens] at hlevel
  have hbetween := (hlevel 0 5 _ _ (by decide) rfl rfl).mp (by decide)
  exact absurd hbetween (by decide)

end Buffer
end SiblingSwap
