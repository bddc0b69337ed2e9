import SiblingSwap.Proofs.Scan

/-! Which tokens lie among those of an element. What is read is placed at the lower end of the spine, after the tokens
    of all who stand above it, so all that is below a node stands on one side of each token of the node. There is one
    exception. An operator that comes right after an operator which binds more loosely takes over the operand of that
    one, and what is then below the first operator stands on both sides of it. Main statement: the bound of an element
    covers nothing but the element and operators above it that were overtaken like this. -/

namespace SiblingSwap

/-- The token is an operator and the one after it, line breaks aside, is an operator that binds more tightly. -/
def Overtaken (ts : List Token) (u : Token) : Prop :=
  ∃ before breaks v after, ts = before ++ u :: (breaks ++ v :: after) ∧ (∀ b ∈ breaks, b.text = ['\n']) ∧
    u.role = .operator ∧ v.role = .operator ∧ u.priority < v.priority

theorem Overtaken.append {ts : List Token} {u : Token} (h : Overtaken ts u) (us : List Token) :
    Overtaken (ts ++ us) u := by
  obtain ⟨before, breaks, v, after, rfl, hrest⟩ := h
  exact ⟨before, breaks, v, after ++ us, by simp, hrest⟩

theorem Token.Classified.priority_le_of_closer {t : Token} (h : t.Classified) (hr : t.role = .closer) :
    t.priority ≤ 3 := by
  have hranked := h.ranked
  simp only [Ranked, h.closerOf?_eq_none (by simp [hr]), Option.isSome_none, Bool.false_eq_true, if_false, hr,
    Role.allows, Bool.and_eq_true, decide_eq_true_eq] at hranked
  exact hranked.2

/-! ### Apart from the tokens of the parent -/

namespace Node

/-- All that is below a child stands on one side of each token of its parent, unless that token satisfies `P`. -/
inductive Apart (P : Token → Prop) : Node → Prop
  | mk {n : Node}
      (own : ∀ u ∈ n.tokens, P u ∨ ∀ c ∈ n.children, (∀ t ∈ c.allTokens, u.Before t) ∨ ∀ t ∈ c.allTokens, t.Before u)
      (children : ∀ c ∈ n.children, Apart P c) : Apart P n

namespace Apart
variable {P Q : Token → Prop} {n m c : Node}

theorem own (h : Apart P n) : ∀ u ∈ n.tokens, P u ∨
    ∀ c ∈ n.children, (∀ t ∈ c.allTokens, u.Before t) ∨ ∀ t ∈ c.allTokens, t.Before u := by
  cases h
  assumption

theorem children (h : Apart P n) : ∀ c ∈ n.children, Apart P c := by
  cases h
  assumption

theorem imp (h : Apart P n) (hPQ : ∀ u, P u → Q u) : Apart Q n := by
  induction h with
  | mk own _ ih => exact ⟨fun u hu => (own u hu).imp_left (hPQ u), ih⟩

theorem at? (h : Apart P n) {a : Address} (hm : n.at? a = some m) : Apart P m :=
  inherited_at? (fun _ h => h.children) h hm

theorem leaf (t : Token) : Apart P (.leaf t) := ⟨by simp [Node.leaf], by simp [Node.leaf]⟩

/-- A new last child that comes after the tokens of the node. -/
theorem push (h : Apart P n) (hc : Apart P c) (hafter : ∀ u ∈ n.tokens, P u ∨ ∀ t ∈ c.allTokens, u.Before t) :
    Apart P (n.push c) := by
  refine ⟨fun u hu => ?_, ?_⟩
  · rcases h.own u hu with hP | hsides
    · exact Or.inl hP
    · refine (hafter u hu).imp_right fun hafter => ?_
      simpa [or_imp, forall_and] using ⟨hsides, Or.inl hafter⟩
  · simpa [or_imp, forall_and] using ⟨h.children, hc⟩

theorem absorb (h : Apart P n) {t : Token} (hlate : ∀ u ∈ n.allTokens, u.Before t) : Apart P (n.absorb t) := by
  refine ⟨fun u hu => ?_, h.children⟩
  rcases List.mem_append.mp hu with hu | hu
  · exact h.own u hu
  · rw [List.mem_singleton.mp hu]
    exact Or.inr fun c hc => Or.inr fun v hv => hlate v (mem_allTokens_of_child hc hv)

theorem dropLast (h : Apart P n) : Apart P ⟨n.tokens, n.children.dropLast⟩ :=
  ⟨fun u hu => (h.own u hu).imp_right fun hsides c hc => hsides c (List.mem_of_mem_dropLast hc),
    fun c hc => h.children c (List.mem_of_mem_dropLast hc)⟩

/-- A token among those of an element that is none of them is found above the element. -/
theorem of_inside {tree : Node} (h : Apart P tree) (ho : Ordered tree)
    (hpos : ∀ t ∈ tree.allTokens, t.span.start < t.span.stop) {a : Address} (hn : tree.at? a = some n) {u s t : Token}
    (hu : u ∈ tree.allTokens) (hout : u ∉ n.allTokens) (hs : s ∈ n.allTokens) (hstart : s.span.start ≤ u.span.start)
    (ht : t ∈ n.allTokens) (hstop : u.span.stop ≤ t.span.stop) :
    P u ∧ ∃ b m, Address.Above b a ∧ tree.at? b = some m ∧ u ∈ m.tokens := by
  have hroom := hpos u hu
  have hsroom := hpos s (mem_allTokens_of_at? hn hs)
  have htroom := hpos t (mem_allTokens_of_at? hn ht)
  have notBefore : ¬u.Before s := fun h => by have : u.span.stop ≤ s.span.start := h; omega
  have notAfter : ¬t.Before u := fun h => by have : t.span.stop ≤ u.span.start := h; omega
  induction a generalizing n with
  | nil =>
    simp only [Node.at?, Option.some.injEq] at hn
    exact absurd (hn ▸ hu) hout
  | cons i up ih =>
    obtain ⟨p, hp, hi⟩ := Option.bind_eq_some_iff.mp hn
    have hchild := List.mem_of_getElem? hi
    by_cases hin : u ∈ p.allTokens
    · rcases mem_allTokens.mp hin with hown | ⟨d, hd, hud⟩
      · refine ⟨?_, up, p, Address.above_cons_iff.mpr (List.suffix_refl up), hp, hown⟩
        rcases (h.at? hp).own u hown with hP | hsides
        · exact hP
        · rcases hsides n hchild with hsides | hsides
          · exact absurd (hsides s hs) notBefore
          · exact absurd (hsides t ht) notAfter
      · -- The token is below a sibling, and siblings stand one after the other.
        obtain ⟨j, hj⟩ := List.mem_iff_getElem?.mp hd
        obtain ⟨hilt, hi'⟩ := List.getElem?_eq_some_iff.mp hi
        obtain ⟨hjlt, hj'⟩ := List.getElem?_eq_some_iff.mp hj
        have hsiblings := List.pairwise_iff_getElem.mp (ho.at? hp).1.siblings
        rcases Nat.lt_trichotomy i j with hij | rfl | hij
        · have hbefore := hsiblings i j hilt hjlt hij
          rw [hi', hj'] at hbefore
          exact absurd (hbefore t ht u hud) notAfter
        · rw [hi, Option.some.injEq] at hj
          exact absurd (hj ▸ hud) hout
        · have hbefore := hsiblings j i hjlt hilt hij
          rw [hi', hj'] at hbefore
          exact absurd (hbefore u hud s hs) notBefore
    · obtain ⟨hP, b, m, hb, hm⟩ := ih hp hin (mem_allTokens_of_child hchild hs) (mem_allTokens_of_child hchild ht)
      exact ⟨hP, b, m, Address.above_cons_iff.mpr hb.1, hm⟩

end Apart

theorem mem_allTokens_of_above {n p : Node} {ps : List Node} (hp : p ∈ ps) {u : Token} (hu : u ∈ p.allTokens) :
    u ∈ (n.under ps).allTokens := by
  induction ps generalizing n with
  | nil => cases hp
  | cons q qs ih =>
    rcases List.mem_cons.mp hp with rfl | hp
    · refine mem_allTokens_under (n := p.push n) ?_
      rw [allTokens_push]
      exact List.mem_append_left _ hu
    · exact ih hp

/-- The tokens of the ancestors come before all that is below them on the way to the node, unless they satisfy `P`. -/
def Leads (P : Token → Prop) (n : Node) : List Node → Prop
  | [] => True
  | p :: ps => (∀ u ∈ p.tokens, P u ∨ ∀ t ∈ n.allTokens, u.Before t) ∧ Leads P (p.push n) ps

section Leads
variable {P Q : Token → Prop} {n m : Node} {ps : List Node} {t : Token}

theorem Leads.imp (h : Leads P n ps) (hPQ : ∀ u, P u → Q u) : Leads Q n ps := by
  induction ps generalizing n with
  | nil => trivial
  | cons p ps ih => exact ⟨fun u hu => (h.1 u hu).imp_left (hPQ u), ih h.2⟩

/-- One more token below the ancestors, which comes after all of theirs. -/
theorem Leads.grow (h : Leads P n ps) (hm : m.allTokens.Perm (t :: n.allTokens))
    (hlate : ∀ p ∈ ps, ∀ u ∈ p.tokens, u.Before t) : Leads P m ps := by
  induction ps generalizing n m with
  | nil => trivial
  | cons p ps ih =>
    refine ⟨fun u hu => (h.1 u hu).imp_right fun hbefore v hv => ?_, ih h.2 ?_ fun q hq => hlate q (by simp [hq])⟩
    · rcases List.mem_cons.mp (hm.mem_iff.mp hv) with rfl | hv
      · exact hlate p (by simp) u hu
      · exact hbefore v hv
    · rw [allTokens_push, allTokens_push]
      exact (hm.append_left _).trans List.perm_middle

end Leads
end Node

/-! ### What a token does -/

namespace Spine
variable {P : Token → Prop} {s w : Spine} {t : Token}

/-- The tree is apart as a whole, and the tokens on the spine come before all that is below them there. -/
structure Laid (P : Token → Prop) (s : Spine) : Prop where
  focus : s.focus.Apart P
  above : ∀ p ∈ s.above, p.Apart P
  leads : s.focus.Leads P s.above

/-- What is last below the focus comes after the tokens of the focus. -/
def Trails (P : Token → Prop) (s : Spine) : Prop :=
  ∀ c ∈ s.focus.children.getLast?, ∀ u ∈ s.focus.tokens, P u ∨ ∀ v ∈ c.allTokens, u.Before v

namespace Laid

theorem imp {Q : Token → Prop} (h : Laid P s) (hPQ : ∀ u, P u → Q u) : Laid Q s :=
  ⟨h.focus.imp hPQ, fun p hp => (h.above p hp).imp hPQ, h.leads.imp hPQ⟩

theorem up {n p : Node} {ps : List Node} (h : Laid P ⟨n, p :: ps⟩) : Laid P ⟨p.push n, ps⟩ :=
  ⟨(h.above p (by simp)).push h.focus h.leads.1, fun q hq => h.above q (by simp [hq]), h.leads.2⟩

theorem apart (h : Laid P s) : s.tree.Apart P := by
  obtain ⟨n, ps⟩ := s
  induction ps generalizing n with
  | nil => exact h.focus
  | cons p ps ih => exact ih (p.push n) h.up

/-- After a climb the last child of the focus is what was climbed out of. -/
theorem climbs (h : Laid P s) (hc : Climbs s w) : Laid P w ∧ (w = s ∨ Trails P w) := by
  induction hc with
  | refl => exact ⟨h, Or.inl rfl⟩
  | @up n p ps w _ _ ih =>
    have htrails : Trails P ⟨p.push n, ps⟩ := by
      intro c hc u hu
      obtain rfl : n = c := by simpa using hc
      exact h.leads.1 u hu
    obtain ⟨hw, rfl | hw'⟩ := ih h.up
    · exact ⟨hw, Or.inr htrails⟩
    · exact ⟨hw, Or.inr hw'⟩

section Place
variable (h : Laid P w) (hlate : ∀ u ∈ w.tree.allTokens, u.Before t)
include h hlate

/-- A change of the focus that adds a token after all others. -/
theorem leads_grow {m : Node} (hm : m.allTokens.Perm (t :: w.focus.allTokens)) : m.Leads P w.above :=
  h.leads.grow hm fun _ hp u hu => hlate u (Node.mem_allTokens_of_above hp (Node.mem_allTokens_of_mem_tokens hu))

theorem join : Laid P (w.join t) :=
  ⟨h.focus.absorb fun u hu => hlate u (Node.mem_allTokens_under hu), h.above,
    h.leads_grow hlate (Node.allTokens_absorb_perm w.focus t)⟩

theorem append : Laid P (w.append t) := by
  refine ⟨.leaf t, List.forall_mem_cons.mpr ⟨h.focus, h.above⟩, fun u hu => Or.inr fun v hv => ?_, ?_⟩
  · obtain rfl : v = t := by simpa [Spine.append] using hv
    exact hlate u (Node.mem_allTokens_under (Node.mem_allTokens_of_mem_tokens hu))
  · exact h.leads_grow hlate (Node.allTokens_addChild_perm w.focus t)

theorem wrap (htrails : Trails P w) : Laid P (w.wrap t) := by
  have hfocus : ∀ u ∈ w.focus.allTokens, u.Before t := fun u hu => hlate u (Node.mem_allTokens_under hu)
  have hlast : ∀ c ∈ w.focus.children.getLast?.toList, c ∈ w.focus.children := fun c hc =>
    List.mem_of_getLast? (Option.mem_toList.mp hc)
  refine ⟨⟨fun u hu => ?_, fun c hc => h.focus.children c (hlast c hc)⟩,
    List.forall_mem_cons.mpr ⟨h.focus.dropLast, h.above⟩, fun u hu => ?_, ?_⟩
  · obtain rfl : u = t := by simpa [Spine.wrap] using hu
    exact Or.inr fun c hc => Or.inr fun v hv => hfocus v (Node.mem_allTokens_of_child (hlast c hc) hv)
  · have hut := hfocus u (Node.mem_allTokens_of_mem_tokens hu)
    cases hc : w.focus.children.getLast? with
    | none =>
      refine Or.inr fun v hv => ?_
      obtain rfl : v = t := by simpa [Spine.wrap, hc, Node.allTokens, Node.allTokensAmong] using hv
      exact hut
    | some c =>
      refine (htrails c hc u hu).imp_right fun hbefore v hv => ?_
      have hv : v = t ∨ v ∈ c.allTokens := by
        simpa [Spine.wrap, hc, Node.allTokens, Node.allTokensAmong] using hv
      rcases hv with rfl | hv
      · exact hut
      · exact hbefore v hv
  · exact h.leads_grow hlate (Node.allTokens_wrapLast_perm w.focus t)

end Place
end Laid

/-- A focus that expects more has nothing below it, or it is an operator that was read last, line breaks aside. -/
def Fresh (ts : List Token) (s : Spine) : Prop :=
  s.focus.role.expectsMore → s.focus.children = [] ∨
    ∃ before u breaks, ts = before ++ u :: breaks ∧ (∀ b ∈ breaks, b.text = ['\n']) ∧ u.role = .operator ∧
      s.focus.tokens = [u]

theorem Reads.fresh {ts : List Token} {s' : Spine} (h : Reads s t s') (hs : Sound s) (hfresh : Fresh ts s) :
    Fresh (ts ++ [t]) s' := by
  have closed : ∀ {w : Spine}, t.role = .closer → ¬(w.join t).focus.role.expectsMore := by
    intro w hr
    simp [Spine.join, Node.absorb, Node.role, hr, Role.expectsMore]
  intro hmore
  cases h with
  | drop line =>
    refine (hfresh hmore).imp_right ?_
    rintro ⟨before, u, breaks, rfl, hbreaks, hu⟩
    refine ⟨before, u, breaks ++ [t], by simp, ?_, hu⟩
    simpa [or_imp, forall_and] using ⟨hbreaks, line⟩
  | join role focus => exact Or.inl (hs.leaf focus)
  | append => exact Or.inl rfl
  | close role => exact absurd hmore (closed role)
  | wrap role =>
    have hmore : t.role.expectsMore := hmore
    rcases role with hr | hr
    · exact Or.inr ⟨ts, t, [], rfl, by simp, hr, rfl⟩
    · simp [hr, Role.expectsMore] at hmore

theorem climb_stops (priority : Int) (s : Spine) :
    (s.climb priority).above = [] ∨ (s.climb priority).focus.priority < priority := by
  obtain ⟨n, ps⟩ := s
  simp only [climb]
  induction ps generalizing n with
  | nil => exact Or.inl rfl
  | cons p ps ih =>
    unfold climbFrom
    split
    · exact ih _
    · next hlt => exact Or.inr (Int.not_le.mp hlt)

/-- The place of an operator: only an operator that is overtaken comes after what is adopted. -/
theorem Laid.trails_operator {ts : List Token} (h : Laid (Overtaken ts) s) (hs : Sound s) (hfresh : Fresh ts s)
    (hclassified : ∀ u ∈ ts, u.Classified) (ht : t.Classified) (hrole : t.role = .operator ∨ t.role = .closer) :
    Trails (Overtaken (ts ++ [t])) (s.host.climb t.priority) := by
  obtain ⟨-, hclimb, hmore⟩ := hs.climbs_operator ht hrole
  rcases (h.climbs hclimb).2 with hsame | htrails
  · -- Nothing was climbed: the token comes right after a focus that expects more.
    have hstops := climb_stops t.priority s.host
    rw [hsame] at hmore hstops ⊢
    intro c hc u hu
    rcases hfresh hmore with hnil | ⟨before, v, breaks, rfl, hbreaks, hv, htokens⟩
    · simp [hnil] at hc
    · obtain rfl : u = v := by simpa [htokens] using hu
      have hlt : u.priority < t.priority := by
        rcases hstops with hroot | hlt
        · have htree := hs.root
          rw [tree, hroot] at htree
          simp [Node.under, htokens] at htree
        · simpa [Node.priority, htokens] using hlt
      have htrole : t.role = .operator := by
        rcases hrole with hr | hr
        · exact hr
        · have := ht.priority_le_of_closer hr
          have := (hclassified u (by simp)).lt_priority_of_operator hv
          omega
      exact Or.inl ⟨before, breaks, t, [], by simp, hbreaks, hv, htrole, hlt⟩
  · intro c hc u hu
    exact (htrails c hc u hu).imp_left fun hover => hover.append [t]

theorem Reads.laid {ts : List Token} {s' : Spine} (h : Reads s t s') (hs : Sound s) (hlaid : Laid (Overtaken ts) s)
    (hfresh : Fresh ts s) (hclassified : ∀ u ∈ ts, u.Classified) (ht : t.Classified)
    (hlate : ∀ u ∈ s.tree.allTokens, u.Before t) : Laid (Overtaken (ts ++ [t])) s' := by
  have hlaid' : Laid (Overtaken (ts ++ [t])) s := hlaid.imp fun _ hover => hover.append [t]
  cases h with
  | drop => exact hlaid'
  | join => exact hlaid'.join hlate
  | append => exact (hlaid'.climbs hs.climbs_host).1.append (hs.climbs_host.tree_eq ▸ hlate)
  | close _ _ waiting =>
    obtain ⟨hclimb, -⟩ := climbs_waiting? waiting
    exact (hlaid'.climbs hclimb).1.join (hclimb.tree_eq ▸ hlate)
  | wrap role =>
    obtain ⟨-, hclimb, -⟩ := hs.climbs_operator ht role
    exact (hlaid'.climbs hclimb).1.wrap (hclimb.tree_eq ▸ hlate) (hlaid.trails_operator hs hfresh hclassified ht role)

/-! ### Whole runs -/

theorem laid_ofTokens {ts : List Token} (hts : ∀ t ∈ ts, t.Classified) (ho : ts.Pairwise Token.Before) :
    Laid (Overtaken ts) (ofTokens ts) ∧ Fresh ts (ofTokens ts) := by
  refine ofTokens_induction_inOrder (P := fun ts s => Laid (Overtaken ts) s ∧ Fresh ts s) ?_ ?_ hts ho
  · exact ⟨⟨⟨by simp [empty, Node.root], by simp [empty, Node.root]⟩, by simp [empty], trivial⟩, fun _ => Or.inl rfl⟩
  · rintro ts t hinit ht hs hlate ⟨hlaid, hfresh⟩
    have hreads := reads_add (ofTokens ts) ht
    exact ⟨hreads.laid hs hlaid hfresh hinit ht hlate, hreads.fresh hs hfresh⟩

end Spine

/-- Whatever token lies inside the bound of an element belongs to the element or to one below it, or else it is an
    operator above the element that was overtaken. -/
theorem Node.mem_or_overtaken_of_inside_bound (text : List Char) (range : Span) {a : Address} {n : Node} {u : Token}
    (found : (Node.ofTokens (tokenize text range)).at? a = some n) (below : a ≠ [])
    (held : u ∈ (Node.ofTokens (tokenize text range)).allTokens)
    (inside : n.bound.start ≤ u.span.start ∧ u.span.stop ≤ n.bound.stop) :
    u ∈ n.allTokens ∨ Overtaken (tokenize text range) u ∧
      ∃ b m, Address.Above b a ∧ (Node.ofTokens (tokenize text range)).at? b = some m ∧ u ∈ m.tokens := by
  obtain ⟨hpairs, hfound⟩ := tokenize_spec text range
  have hclassified : ∀ t ∈ tokenize text range, t.Classified := fun t ht => (hfound t ht).classified
  rw [Node.ofTokens_eq hclassified] at found held ⊢
  have hordered := Spine.ordered_ofTokens hclassified hpairs
  have hpos : ∀ t ∈ (Spine.ofTokens (tokenize text range)).tree.allTokens, t.span.start < t.span.stop := fun t ht =>
    (hfound t (Spine.mem_of_mem_ofTokens hclassified t ht)).nonempty
  obtain ⟨hn, hne⟩ := hordered.at? found
  have hnpos : ∀ t ∈ n.allTokens, t.span.start < t.span.stop := fun t ht => hpos t (mem_allTokens_of_at? found ht)
  obtain ⟨⟨s, hs, hstart⟩, -⟩ := hn.bound_start (hne below) hnpos
  obtain ⟨⟨t, ht, hstop⟩, -⟩ := hn.bound_stop (hne below) hnpos
  by_cases hin : u ∈ n.allTokens
  · exact Or.inl hin
  · exact Or.inr ((Spine.laid_ofTokens hclassified hpairs).1.apart.of_inside hordered hpos found held hin hs
      (by omega) ht (by omega))

/-- In `a + * b` the product takes over `a`, so the tree is `+` over `*` over `a` and `b`. -/
theorem tokenize_sum_product : tokenize "a + * b".toList ⟨0, 7⟩ =
    [.ofLexeme ['a'] ⟨0, 1⟩, .ofLexeme ['+'] ⟨2, 3⟩, .ofLexeme ['*'] ⟨4, 5⟩, .ofLexeme ['b'] ⟨6, 7⟩] := by
  decide +kernel

theorem Node.mem_or_overtaken_of_inside_bound_of_sum_product :
    ∃ n u, (Node.ofTokens (tokenize "a + * b".toList ⟨0, 7⟩)).at? [0, 0] = some n ∧
      u ∈ (Node.ofTokens (tokenize "a + * b".toList ⟨0, 7⟩)).allTokens ∧
      (n.bound.start ≤ u.span.start ∧ u.span.stop ≤ n.bound.stop) ∧ u ∉ n.allTokens ∧
      Overtaken (tokenize "a + * b".toList ⟨0, 7⟩) u := by
  have found : (Node.ofTokens (tokenize "a + * b".toList ⟨0, 7⟩)).at? [0, 0] = some ⟨[.ofLexeme ['*'] ⟨4, 5⟩],
      [.leaf (.ofLexeme ['a'] ⟨0, 1⟩), .leaf (.ofLexeme ['b'] ⟨6, 7⟩)]⟩ := by
    rw [tokenize_sum_product]
    rfl
  have held : Token.ofLexeme ['+'] ⟨2, 3⟩ ∈ (Node.ofTokens (tokenize "a + * b".toList ⟨0, 7⟩)).allTokens := by
    rw [tokenize_sum_product]
    decide
  have inside : (0 : Nat) ≤ 2 ∧ 3 ≤ 7 := by decide
  refine ⟨_, _, found, held, inside, by decide, ?_⟩
  exact ((mem_or_overtaken_of_inside_bound _ _ found (by simp) held inside).resolve_left (by decide)).1

/-- The bound of an element may cover a token that is neither of the element nor of one below it. -/
theorem Node.exists_foreign_inside_bound :
    ¬∀ (text : List Char) (range : Span) (a : Address) (n : Node) (u : Token),
      (Node.ofTokens (tokenize text range)).at? a = some n → a ≠ [] →
      u ∈ (Node.ofTokens (tokenize text range)).allTokens →
      n.bound.start ≤ u.span.start ∧ u.span.stop ≤ n.bound.stop → u ∈ n.allTokens := by
  intro h
  have hmem := h "a + * b".toList ⟨0, 7⟩ [0, 0] ⟨[.ofLexeme ['*'] ⟨4, 5⟩],
    [.leaf (.ofLexeme ['a'] ⟨0, 1⟩), .leaf (.ofLexeme ['b'] ⟨6, 7⟩)]⟩ (.ofLexeme ['+'] ⟨2, 3⟩)
  rw [tokenize_sum_product] at hmem
  exact absurd (hmem rfl (by simp) (by decide) (by decide)) (by decide)

end SiblingSwap
