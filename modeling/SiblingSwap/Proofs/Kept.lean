import SiblingSwap.Proofs.Frame
import SiblingSwap.Proofs.Places

/-! What becomes of an element that has been left. The focus never returns to it: whatever is read later, it stays the
    child of its parent at its index, and of its parent no more changes than that further children follow and that a
    bracket may close it. An element whose parent is in focus is different: the next operator can take it over. -/

namespace SiblingSwap
namespace Node
variable {m n c : Node} {t : Token}

/-- The second node is the first one after more was read: further children follow those it had, and the bracket that it
    waited for may have come. -/
def Extends (m n : Node) : Prop :=
  m.children <+: n.children ∧ (n.tokens = m.tokens ∨ ∃ t, m.awaits? = some t.text ∧ n.tokens = m.tokens ++ [t] ∧
    t.role = .closer)

namespace Extends

theorem refl (n : Node) : n.Extends n := ⟨List.prefix_refl _, Or.inl rfl⟩

theorem push (h : m.Extends n) (c : Node) : m.Extends (n.push c) :=
  ⟨h.1.trans (List.prefix_append _ _), h.2⟩

theorem absorb (h : m.Extends n) (hn : n.awaits? = some t.text) (ht : t.role = .closer) : m.Extends (n.absorb t) := by
  obtain ⟨hchildren, htokens | ⟨u, hu, htokens, -⟩⟩ := h
  · refine ⟨hchildren, Or.inr ⟨t, ?_, by rw [← htokens]; rfl, ht⟩⟩
    simpa [awaits?, htokens] using hn
  · -- A bracket that has come is the last token, and an element with that waits for nothing.
    have hclosing : closerOf? u.text = some t.text := by simpa [awaits?, htokens] using hn
    obtain ⟨o, -, ho⟩ := Option.bind_eq_some_iff.mp hu
    rcases closerOf?_eq_some ho with ⟨-, h⟩ | ⟨-, h⟩ | ⟨-, h⟩ <;> rw [h] at hclosing <;> cases hclosing

theorem prefix_tokens (h : m.Extends n) : m.tokens <+: n.tokens := by
  obtain ⟨-, h | ⟨t, -, h, -⟩⟩ := h
  · rw [h]
  · exact h ▸ List.prefix_append _ _

theorem tokens_eq (h : m.Extends n) (hn : n.role ≠ .closer) : n.tokens = m.tokens := by
  obtain ⟨-, h | ⟨t, -, h, hr⟩⟩ := h
  · exact h
  · exact absurd (by simp [role, h, hr]) hn

/-- Two elements that expect more and became the same one have the same tokens. -/
theorem tokens_unique {k : Node} (h : m.Extends n) (h' : k.Extends n) (hm : m.role.expectsMore)
    (hk : k.role.expectsMore) : m.tokens = k.tokens := by
  have closed : ∀ {j : Node} {t : Token}, j.role.expectsMore → n.tokens = j.tokens → t.role = .closer →
      ∀ ts, n.tokens ≠ ts ++ [t] := by
    intro j t hj heq ht ts hts
    simp [role, ← heq, hts, ht, Role.expectsMore] at hj
  obtain ⟨-, h | ⟨t, -, h, hr⟩⟩ := h <;> obtain ⟨-, h' | ⟨t', -, h', hr'⟩⟩ := h'
  · exact h.symm.trans h'
  · exact absurd h' (closed hm h hr' _)
  · exact absurd h (closed hk h' hr _)
  · exact (List.append_inj' (h.symm.trans h') rfl).1

theorem getElem?_children {p c : Node} (h : (p.push c).Extends n) : n.children[p.children.length]? = some c := by
  obtain ⟨cs, hcs⟩ := h.1
  rw [← hcs]
  simp

end Extends
end Node

namespace Spine
variable {s w : Spine} {t : Token} {m : Node}

/-- The node has been left: it is above the focus with a later child on the way, or it is complete, or it lies
    outside the spine. In the third case the focus has just come back to it from such a later child. -/
inductive Kept (m : Node) (s : Spine) : Prop
  | above {n : Node} (mem : n ∈ s.above) (grown : m.Extends n)
  | closed (grown : m.Extends s.focus) (role : s.focus.role = .closer)
  | pushed {p c : Node} (focus : s.focus = p.push c) (grown : m.Extends p)
  | settled {n c k : Node} {a : Address} (mem : n ∈ s.focus :: s.above) (child : c ∈ n.children)
      (found : c.at? a = some k) (grown : m.Extends k)

namespace Kept

theorem up {n p : Node} {ps : List Node} (h : Kept m ⟨n, p :: ps⟩) : Kept m ⟨p.push n, ps⟩ := by
  have inside : m.Extends n → Kept m ⟨p.push n, ps⟩ := fun h =>
    .settled (n := p.push n) (c := n) (a := []) (by simp) (by simp) rfl h
  cases h with
  | @above n' mem grown =>
    rcases List.mem_cons.mp mem with rfl | mem
    · exact .pushed rfl grown
    · exact .above mem grown
  | closed grown => exact inside grown
  | pushed focus grown =>
    have focus : n = _ := focus
    exact inside (focus ▸ grown.push _)
  | @settled n' c k a mem child found grown =>
    rcases List.mem_cons.mp mem with rfl | mem
    · obtain ⟨i, hi⟩ := List.getElem?_of_mem child
      refine .settled (n := p.push n') (c := n') (a := a ++ [i]) (by simp) (by simp) ?_ grown
      rw [Node.at?_concat, hi]
      exact found
    · rcases List.mem_cons.mp mem with rfl | mem
      · exact .settled (n := n'.push n) (by simp) (by simp [child]) found grown
      · exact .settled (by simp [mem]) child found grown

theorem climbs (h : Kept m s) (hc : Climbs s w) : Kept m w := by
  induction hc with
  | refl => exact h
  | up _ _ ih => exact ih h.up

theorem append (h : Kept m w) (t : Token) : Kept m (w.append t) := by
  cases h with
  | above mem grown => exact .above (by simp [Spine.append, mem]) grown
  | closed grown => exact .above (by simp [Spine.append]) grown
  | pushed focus grown => exact .above (n := w.focus) (by simp [Spine.append]) (focus ▸ grown.push _)
  | settled mem child found grown => exact .settled (List.mem_cons_of_mem _ mem) child found grown

theorem close (h : Kept m w) (hfocus : w.focus.Classified) (hw : w.focus.awaits? = some t.text)
    (ht : t.role = .closer) : Kept m (w.join t) := by
  cases h with
  | above mem grown => exact .above mem grown
  | closed grown role =>
    rw [hfocus.awaits?_eq_none (by simp [role])] at hw
    cases hw
  | pushed focus grown =>
    exact .closed ((focus ▸ grown.push _ : m.Extends w.focus).absorb hw ht)
      (by simp [join, Node.role, Node.absorb, ht])
  | settled mem child found grown =>
    rcases List.mem_cons.mp mem with rfl | mem
    · exact .settled (n := w.focus.absorb t) (by simp [join]) child found grown
    · exact .settled (List.mem_cons_of_mem _ mem) child found grown

theorem join (h : Kept m s) (hs : Sound s) (hfocus : s.focus.role = .atom) (t : Token) : Kept m (s.join t) := by
  have hleaf := hs.leaf hfocus
  cases h with
  | above mem grown => exact .above mem grown
  | closed grown role => simp [hfocus] at role
  | pushed focus grown => simp [focus] at hleaf
  | settled mem child found grown =>
    rcases List.mem_cons.mp mem with rfl | mem
    · simp [hleaf] at child
    · exact .settled (List.mem_cons_of_mem _ mem) child found grown

theorem wrap (h : Kept m w) (hfocus : w.focus.role.expectsMore) (t : Token) : Kept m (w.wrap t) := by
  cases h with
  | above mem grown => exact .above (by simp [Spine.wrap, mem]) grown
  | closed grown role => simp [role, Role.expectsMore] at hfocus
  | @pushed p c focus grown => exact .above (n := p) (by simp [Spine.wrap, focus]) grown
  | @settled n c k a mem child found grown =>
    rcases List.mem_cons.mp mem with rfl | mem
    · rcases List.eq_nil_or_concat' w.focus.children with hnil | ⟨cs, d, hcs⟩
      · simp [hnil] at child
      · rcases List.mem_append.mp (hcs ▸ child) with child | child
        · exact .settled (n := ⟨w.focus.tokens, cs⟩) (by simp [Spine.wrap, hcs]) child found grown
        · exact .settled (n := ⟨[t], [d]⟩) (by simp [Spine.wrap, hcs]) child found grown
    · exact .settled (by simp [Spine.wrap, mem]) child found grown

theorem reads {s' : Spine} (h : Kept m s) (hs : Sound s) (ht : t.Classified) (hread : Reads s t s') : Kept m s' := by
  cases hread with
  | drop => exact h
  | join _ focus => exact h.join hs focus t
  | append => exact (h.climbs hs.climbs_host).append t
  | close role line waiting =>
    obtain ⟨hclimb, hawaits⟩ := climbs_waiting? waiting
    exact (h.climbs hclimb).close (hs.climbs hclimb).focus hawaits role
  | wrap role =>
    obtain ⟨-, hclimb, hmore⟩ := hs.climbs_operator ht role
    exact (h.climbs hclimb).wrap hmore t

theorem feed {ts : List Token} (h : Kept m s) (hs : Sound s) (hts : ∀ t ∈ ts, t.Classified) : Kept m (s.feed ts) := by
  induction ts generalizing s with
  | nil => exact h
  | cons t ts ih =>
    have ht := hts t (by simp)
    exact ih (h.reads hs ht (reads_add s ht)) ((reads_add s ht).sound hs ht) fun u hu => hts u (by simp [hu])

/-- A node that has been left is found in the tree. -/
theorem exists_at? (h : Kept m s) : ∃ a n, s.tree.at? a = some n ∧ m.Extends n := by
  obtain ⟨n, ps⟩ := s
  induction ps generalizing n with
  | nil =>
    cases h with
    | above mem => cases mem
    | closed grown => exact ⟨[], n, rfl, grown⟩
    | pushed focus grown =>
      have focus : n = _ := focus
      exact ⟨[], n, rfl, focus ▸ grown.push _⟩
    | @settled n' c k a mem child found grown =>
      obtain rfl := List.mem_singleton.mp mem
      obtain ⟨i, hi⟩ := List.getElem?_of_mem child
      refine ⟨a ++ [i], k, ?_, grown⟩
      rw [Node.at?_concat]
      exact (congrArg (·.bind (·.at? a)) hi).trans found
  | cons p ps ih => exact ih (p.push n) h.up

end Kept

/-- The focus has been left as soon as the spine is climbed. -/
theorem Climbs.eq_or_kept (h : Climbs s w) : w = s ∨ Kept s.focus w := by
  cases h with
  | refl => exact Or.inl rfl
  | @up n p ps t free rest =>
    exact Or.inr (Kept.climbs (.settled (n := p.push n) (c := n) (a := []) (by simp) (by simp) rfl (.refl n)) rest)

/-! ### Leaving a piece -/

section Leave
variable {f g : Spine} {p c : Node} {ps : List Node}

theorem Sound.leave (hs : Sound (f.on (p :: ps))) : Sound ⟨p.push f.tree, ps⟩ where
  focus := hs.above p (by simp [on])
  leaf hatom := by
    have hmore := hs.expecting p (by simp [on])
    rw [show p.role = .atom from hatom] at hmore
    cases hmore
  above q hq := hs.above q (by simp [on, hq])
  expecting q hq := hs.expecting q (by simp [on, hq])
  root := by
    have htree := tree_on f (p :: ps)
    exact (congrArg Node.tokens htree).symm.trans hs.root

/-- A token after a complete last child adopts it, or leaves it for good. -/
theorem kept_of_after {s' : Spine} (hs : Sound ⟨p.push c, ps⟩) (hmore : p.role.expectsMore) (ht : t.Classified)
    (h : after t ⟨p.push c, ps⟩ = some s') :
    p.Admits t ∧ s' = ⟨⟨[t], [c]⟩, p :: ps⟩ ∨ Kept (p.push c) s' := by
  have hplace : place? t ⟨p.push c, ps⟩ = some s' → (t.role = .operator ∨ t.role = .closer) →
      p.awaits? ≠ some t.text → p.Admits t ∧ s' = ⟨⟨[t], [c]⟩, p :: ps⟩ ∨ Kept (p.push c) s' := by
    intro h role hawaits
    obtain rfl := Option.some.inj ((hs.place?_eq ht).symm.trans h)
    have hpos := ht.priority_pos (ht.closerOf?_eq_none (by rcases role with h | h <;> simp [h]))
    have hclimb := hs.climbs_climb hpos
    rcases hclimb.eq_or_kept with heq | hkept
    · refine Or.inl ⟨⟨role, ?_, hawaits⟩, by simp [heq, wrap]⟩
      rcases climb_stops t.priority ⟨p.push c, ps⟩ with hnil | hlt
      · rw [heq] at hnil
        have hroot := hs.root
        rw [tree, hnil] at hroot
        have htokens : p.tokens = [] := hroot
        have := ht.priority_nonneg
        simp only [Node.priority, htokens, List.getLast?_nil, Option.map_none, Option.getD_none]
        exact Int.lt_of_lt_of_le (by decide) this
      · rwa [heq] at hlt
    · exact Or.inr (hkept.wrap (hs.expectsMore_climbs hclimb hmore) t)
  have hfirst : ∀ closer, p.awaits? = some closer →
      waiting? ⟨p.push c, ps⟩ = some (closer, ⟨p.push c, ps⟩) := by
    intro closer hc
    cases ps <;> simp [waiting?, waitingFrom, hc]
  unfold after at h
  split at h
  · exact Or.inr (.above (n := p.push c) (by simp [← Option.some.inj h, append]) (.refl _))
  · exact Or.inr (.above (n := p.push c) (by simp [← Option.some.inj h, append]) (.refl _))
  · next role =>
    exact hplace h (Or.inl role) fun hc => Node.awaits?_ne hc ht (Or.inl (by simp [role])) rfl
  · next role =>
    split at h
    · next closer w hw =>
      split at h
      · next heq =>
        obtain rfl := Option.some.inj h
        obtain ⟨hclimb, hawaits⟩ := climbs_waiting? hw
        rw [heq] at hawaits
        rcases hclimb.eq_or_kept with rfl | hkept
        · exact Or.inr (.closed ((Node.Extends.refl _).absorb hawaits role)
            (by simp [join, Node.role, Node.absorb, role]))
        · exact Or.inr (hkept.close (hs.climbs hclimb).focus hawaits role)
      · next hne =>
        refine hplace h (Or.inr role) fun hc => hne ?_
        rw [hfirst _ hc] at hw
        simp only [Option.some.injEq, Prod.mk.injEq] at hw
        exact hw.1.symm
    · next hw =>
      refine hplace h (Or.inr role) fun hc => ?_
      rw [hfirst _ hc] at hw
      cases hw

/-- A token that leaves a piece adopts all of it, or leaves it for good. -/
theorem add_of_outside (hf : f.Piece) (hs : Sound (f.on (p :: ps))) (ht : t.Classified) (h : f.within t = none) :
    p.Admits t ∧ (f.on (p :: ps)).add t = ⟨⟨[t], [f.tree]⟩, p :: ps⟩ ∨
      Kept (p.push f.tree) ((f.on (p :: ps)).add t) :=
  kept_of_after hs.leave (hs.expecting p (by simp [on])) ht (hs.after_eq hf ht h)

/-- The operand of an operator in focus is left in the end, but tighter operators may have taken it over by then. -/
theorem exists_at?_feed_operand {u : Token} {ts : List Token} (hs : Sound ⟨⟨[u], [c]⟩, ps⟩) (hu : u.Classified)
    (role : u.role = .operator ∨ u.role = .closer) (hts : ∀ t ∈ ts, t.Classified) :
    ∃ v a n, u.priority ≤ v.priority ∧ (feed ⟨⟨[u], [c]⟩, ps⟩ ts).tree.at? a = some n ∧
      Node.Extends ⟨[v], [c]⟩ n := by
  induction ts generalizing u ps with
  | nil => exact ⟨u, _, _, Int.le_refl _, Node.at?_under _ ps, .refl _⟩
  | cons t ts ih =>
    have ht := hts t (by simp)
    have hrest : ∀ v ∈ ts, v.Classified := fun v hv => hts v (by simp [hv])
    have hread := reads_add ⟨⟨[u], [c]⟩, ps⟩ ht
    have hs' := hread.sound hs ht
    have hkept : Kept ⟨[u], [c]⟩ (add ⟨⟨[u], [c]⟩, ps⟩ t) → ∃ v a n, u.priority ≤ v.priority ∧
        (feed ⟨⟨[u], [c]⟩, ps⟩ (t :: ts)).tree.at? a = some n ∧ Node.Extends ⟨[v], [c]⟩ n := by
      intro h
      obtain ⟨a, n, hn, hgrown⟩ := (h.feed hs' hrest).exists_at?
      exact ⟨u, a, n, Int.le_refl _, hn, hgrown⟩
    rw [feed_cons] at hkept ⊢
    generalize add ⟨⟨[u], [c]⟩, ps⟩ t = s' at hread hs' hkept
    cases hread with
    | drop => exact ih hs hu role hrest
    | join _ focus =>
      have focus : u.role = .atom := focus
      rcases role with h | h <;> simp [h] at focus
    | append =>
      rcases hs.climbs_host.eq_or_kept with heq | h
      · rw [heq] at hkept ⊢
        exact hkept (.above (n := ⟨[u], [c]⟩) (by simp [append]) (.refl _))
      · exact hkept (h.append t)
    | close closing _ waiting =>
      obtain ⟨hclimb, hawaits⟩ := climbs_waiting? waiting
      rcases hclimb.eq_or_kept with rfl | h
      · have hnone : closerOf? u.text = none := hu.closerOf?_eq_none (by rcases role with h | h <;> simp [h])
        exact absurd (hnone.symm.trans hawaits) (by simp)
      · exact hkept (h.close (hs.climbs hclimb).focus hawaits closing)
    | wrap newcomer =>
      obtain ⟨-, hclimb, hmore⟩ := hs.climbs_operator ht newcomer
      rcases hclimb.eq_or_kept with heq | h
      · rw [addOperator, heq] at hs' ⊢
        obtain ⟨v, a, n, hle, hn, hgrown⟩ := ih (u := t) hs' ht newcomer hrest
        refine ⟨v, a, n, Int.le_trans (Int.le_of_lt ?_) hle, hn, hgrown⟩
        rcases climb_stops t.priority (host ⟨⟨[u], [c]⟩, ps⟩) with hnil | hlt
        · rw [heq] at hnil
          have hroot := hs.root
          rw [tree, hnil] at hroot
          cases hroot
        · rwa [heq] at hlt
      · exact hkept (h.wrap hmore t)

/-- What is found of a piece in the end, when the next token leaves it: it is where it was, and the token adopted
    nothing, or it is the operand of the one who adopted it or of a tighter one. -/
theorem exists_at?_feed (hf : f.Piece) (hs : Sound (f.on (p :: ps))) (hfilled : p.tokens = [] → ps = [])
    {ts : List Token} (hts : ∀ t ∈ ts, t.Classified) (h : ∀ t ∈ ts.head?, f.within t = none) :
    (∃ a n, ((f.on (p :: ps)).feed ts).tree.at? a = some n ∧ (p.push f.tree).Extends n ∧
        ∀ t ∈ ts.head?, ¬p.Admits t) ∨
      ∃ t v a n, ts.head? = some t ∧ p.Admits t ∧ t.priority ≤ v.priority ∧
        ((f.on (p :: ps)).feed ts).tree.at? a = some n ∧ Node.Extends ⟨[v], [f.tree]⟩ n := by
  cases ts with
  | nil =>
    refine Or.inl ⟨Address.below ps, p.push f.tree, ?_, .refl _, by simp⟩
    rw [feed_nil, tree_on]
    exact Node.at?_under (p.push f.tree) ps
  | cons t ts =>
    have ht := hts t (by simp)
    have hrest : ∀ v ∈ ts, v.Classified := fun v hv => hts v (by simp [hv])
    have hout := h t (by simp)
    have hs' := (reads_add _ ht).sound hs ht
    rw [feed_cons]
    by_cases hadmits : p.Admits t
    · have hadd : (f.on (p :: ps)).add t = ⟨⟨[t], [f.tree]⟩, p :: ps⟩ := Option.some.inj
        ((hs.after_eq hf ht hout).symm.trans (after_of_admits (hs.above p (by simp [on])) hfilled ht hadmits))
      rw [hadd] at hs' ⊢
      obtain ⟨v, a, n, hle, hn, hgrown⟩ := exists_at?_feed_operand hs' ht hadmits.1 hrest
      exact Or.inr ⟨t, v, a, n, rfl, hadmits, hle, hn, hgrown⟩
    · rcases add_of_outside hf hs ht hout with h | h
      · exact absurd h.1 hadmits
      · obtain ⟨a, n, hn, hgrown⟩ := (h.feed hs' hrest).exists_at?
        exact Or.inl ⟨a, n, hn, hgrown, by simpa using hadmits⟩

/-- As many tokens as stay with a piece, or adopt all of it as `w` allows. -/
theorem exists_grows (w : Token → Prop) {ts : List Token} (hf : f.Piece) (hs : Sound (f.on (p :: ps)))
    (hfilled : p.tokens = [] → ps = []) (hts : ∀ t ∈ ts, t.Classified) :
    ∃ us vs g, ts = us ++ vs ∧ Grows (fun t => w t ∧ p.Admits t) f us g ∧
      (f.on (p :: ps)).feed us = g.on (p :: ps) ∧ g.Piece ∧
      ∀ t ∈ vs.head?, g.within t = none ∧ (p.Admits t → ¬w t) := by
  suffices h : ∃ us vs g, ts = us ++ vs ∧ Grows (fun t => w t ∧ p.Admits t) f us g ∧
      ∀ t ∈ vs.head?, g.within t = none ∧ (p.Admits t → ¬w t) by
    obtain ⟨us, vs, g, rfl, hgrows, hleave⟩ := h
    obtain ⟨hfeed, hg⟩ := hgrows.feed hf (fun t ht => hts t (by simp [ht])) (fun t _ h => h.2) hfilled hs
    exact ⟨us, vs, g, rfl, hgrows, hfeed, hg, hleave⟩
  clear hs hf hts
  induction ts generalizing f with
  | nil => exact ⟨[], [], f, rfl, .nil f, by simp⟩
  | cons t ts ih =>
    cases hin : f.within t with
    | some f' =>
      obtain ⟨us, vs, g, rfl, hgrows, hleave⟩ := ih (f := f')
      exact ⟨t :: us, vs, g, rfl, .within hin hgrows, hleave⟩
    | none =>
      by_cases hwrap : w t ∧ p.Admits t
      · obtain ⟨us, vs, g, rfl, hgrows, hleave⟩ := ih (f := ⟨⟨[t], [f.tree]⟩, []⟩)
        exact ⟨t :: us, vs, g, rfl, .wrap hin hwrap hgrows, hleave⟩
      · refine ⟨[], t :: ts, f, rfl, .nil f, fun u hu => ?_⟩
        obtain rfl : t = u := by simpa using hu
        exact ⟨hin, fun hadmits hw => hwrap ⟨hw, hadmits⟩⟩

end Leave

end Spine
end SiblingSwap
