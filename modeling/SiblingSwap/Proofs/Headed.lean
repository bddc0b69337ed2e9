import SiblingSwap.Proofs.Order

/-! What an element is made of. Its tokens are words in a row, and after them there may be an opener and the bracket
    that closes it; an operator, or a closer that closes nothing, is alone. The words and the opener come before all
    that is below the element. -/

namespace SiblingSwap

/-- The second token stands right after the first in one element: it goes on after a word, or it closes a bracket. -/
def Token.Follows (s t : Token) : Prop :=
  s.role = .atom ∧ (t.role = .atom ∨ t.role = .opener) ∨ closerOf? s.text = some t.text

namespace Node

/-- At every node the tokens follow each other, and the words and openers come before all that is below. -/
inductive Headed : Node → Prop
  | mk {n : Node} (run : n.tokens.IsChain Token.Follows)
      (leads : ∀ u ∈ n.tokens, u.role = .atom ∨ u.role = .opener → ∀ c ∈ n.children, ∀ t ∈ c.allTokens, u.Before t)
      (children : ∀ c ∈ n.children, Headed c) : Headed n

namespace Headed
variable {n m c : Node} {t : Token}

theorem run (h : Headed n) : n.tokens.IsChain Token.Follows := by
  cases h
  assumption

theorem leads (h : Headed n) :
    ∀ u ∈ n.tokens, u.role = .atom ∨ u.role = .opener → ∀ c ∈ n.children, ∀ t ∈ c.allTokens, u.Before t := by
  cases h
  assumption

theorem children (h : Headed n) : ∀ c ∈ n.children, Headed c := by
  cases h
  assumption

theorem at? (h : Headed n) {a : Address} (hm : n.at? a = some m) : Headed m :=
  inherited_at? (fun _ h => h.children) h hm

theorem of_under {ps : List Node} (h : Headed (n.under ps)) : Headed n := h.at? (at?_under n ps)

theorem leaf (t : Token) : Headed (.leaf t) :=
  ⟨List.isChain_singleton t, by simp [Node.leaf], by simp [Node.leaf]⟩

theorem push_iff : Headed (n.push c) ↔ Headed n ∧ Headed c ∧
    ∀ u ∈ n.tokens, u.role = .atom ∨ u.role = .opener → ∀ t ∈ c.allTokens, u.Before t := by
  constructor
  · intro h
    have hchild : ∀ d ∈ n.children, d ∈ (n.push c).children := fun d hd => List.mem_append_left _ hd
    exact ⟨⟨h.run, fun u hu hr d hd => h.leads u hu hr d (hchild d hd), fun d hd => h.children d (hchild d hd)⟩,
      h.children c (by simp), fun u hu hr => h.leads u hu hr c (by simp)⟩
  · rintro ⟨hn, hc, hleads⟩
    refine ⟨hn.run, fun u hu hr => List.forall_mem_append.mpr ⟨hn.leads u hu hr, ?_⟩,
      List.forall_mem_append.mpr ⟨hn.children, by simpa using hc⟩⟩
    simpa using hleads u hu hr

/-- A change of the last node of a spine that adds a token after all others. -/
theorem under {ps : List Node} (h : Headed (n.under ps)) (hm : Headed m) (hperm : m.allTokens.Perm (t :: n.allTokens))
    (hlate : ∀ u ∈ (n.under ps).allTokens, u.Before t) : Headed (m.under ps) := by
  induction ps generalizing n m with
  | nil => exact hm
  | cons p ps ih =>
    obtain ⟨hp, -, hleads⟩ := push_iff.mp (of_under (n := p.push n) h)
    refine ih (n := p.push n) h (push_iff.mpr ⟨hp, hm, fun u hu hr v hv => ?_⟩) ?_ hlate
    · rcases List.mem_cons.mp (hperm.mem_iff.mp hv) with rfl | hv
      · exact hlate u (mem_allTokens_under (n := p.push n) (mem_allTokens_of_mem_tokens hu))
      · exact hleads u hu hr v hv
    · rw [allTokens_push, allTokens_push]
      exact (hperm.append_left _).trans List.perm_middle

theorem absorb (h : Headed n) (hrun : ∀ s ∈ n.tokens.getLast?, s.Follows t)
    (hleads : t.role = .atom ∨ t.role = .opener → n.children = []) : Headed (n.absorb t) := by
  refine ⟨List.isChain_append.mpr ⟨h.run, List.isChain_singleton t, ?_⟩, fun u hu hr => ?_, h.children⟩
  · intro s hs u hu
    obtain rfl : t = u := by simpa using hu
    exact hrun s hs
  · rcases List.mem_append.mp hu with hu | hu
    · exact h.leads u hu hr
    · obtain rfl := List.mem_singleton.mp hu
      intro c hc
      have hc : c ∈ n.children := hc
      rw [hleads hr] at hc
      cases hc

theorem addChild (h : Headed n) (hlate : ∀ u ∈ n.allTokens, u.Before t) : Headed (n.addChild t) := by
  refine push_iff.mpr ⟨h, leaf t, fun u hu _ v hv => ?_⟩
  obtain rfl : v = t := by simpa using hv
  exact hlate u (mem_allTokens_of_mem_tokens hu)

theorem wrapLast (h : Headed n) (hrole : t.role = .operator ∨ t.role = .closer)
    (hlate : ∀ u ∈ n.allTokens, u.Before t) : Headed (n.wrapLast t) := by
  obtain ⟨ts, cs⟩ := n
  rcases List.eq_nil_or_concat' cs with rfl | ⟨cs, c, rfl⟩
  · exact h.addChild hlate
  · obtain ⟨hn, hc, hleads⟩ := (push_iff (n := ⟨ts, cs⟩)).mp h
    have hadopt : Headed ((Node.leaf t).push c) := by
      refine push_iff.mpr ⟨leaf t, hc, fun u hu hr => ?_⟩
      obtain rfl : u = t := by simpa [Node.leaf] using hu
      rcases hrole with hrole | hrole <;> simp [hrole] at hr
    rw [wrapLast_concat]
    refine push_iff.mpr ⟨hn, hadopt, fun u hu hr v hv => ?_⟩
    rw [allTokens_push, allTokens_leaf, List.singleton_append] at hv
    rcases List.mem_cons.mp hv with rfl | hv
    · exact hlate u (mem_allTokens_of_mem_tokens hu)
    · exact hleads u hu hr v hv

end Headed
end Node

/-! ### Reading in order -/

namespace Spine
variable {s s' : Spine} {t : Token}

theorem Reads.headed (h : Reads s t s') (hs : Sound s) (ht : t.Classified) (hh : s.tree.Headed)
    (hlate : ∀ u ∈ s.tree.allTokens, u.Before t) : s'.tree.Headed := by
  have hnode : ∀ {w : Spine}, Climbs s w → w.tree = s.tree ∧ w.focus.Headed ∧ ∀ u ∈ w.focus.allTokens, u.Before t := by
    intro w hc
    have htree := hc.tree_eq
    rw [← htree] at hh hlate
    exact ⟨htree, hh.of_under, fun u hu => hlate u (Node.mem_allTokens_under hu)⟩
  cases h with
  | drop => exact hh
  | join role focus =>
    obtain ⟨-, hfocus, -⟩ := hnode (.refl s)
    refine hh.under (hfocus.absorb (fun u hu => ?_) fun _ => hs.leaf focus) (s.focus.allTokens_absorb_perm t) hlate
    have hatom : u.role = .atom := by simpa [Node.role, show s.focus.tokens.getLast? = some u from hu] using focus
    exact Or.inl ⟨hatom, role⟩
  | append role focus =>
    obtain ⟨htree, hfocus, hbefore⟩ := hnode hs.climbs_host
    rw [← htree] at hh hlate
    exact hh.under (hfocus.addChild hbefore) (s.host.focus.allTokens_addChild_perm t) hlate
  | @close w role line waiting =>
    obtain ⟨hclimb, hawaits⟩ := climbs_waiting? waiting
    obtain ⟨htree, hfocus, -⟩ := hnode hclimb
    rw [← htree] at hh hlate
    refine hh.under (hfocus.absorb (fun u hu => ?_) fun hr => ?_) (w.focus.allTokens_absorb_perm t) hlate
    · obtain ⟨v, hv, hcloser⟩ := Option.bind_eq_some_iff.mp hawaits
      obtain rfl : v = u := Option.some.inj (hv.symm.trans hu)
      exact Or.inr hcloser
    · rcases hr with hr | hr <;> simp [role] at hr
  | wrap role kept other =>
    obtain ⟨-, hclimb, -⟩ := hs.climbs_operator ht role
    obtain ⟨htree, hfocus, hbefore⟩ := hnode hclimb
    rw [← htree] at hh hlate
    exact hh.under (hfocus.wrapLast role hbefore) ((s.host.climb t.priority).focus.allTokens_wrapLast_perm t) hlate

theorem headed_ofTokens {ts : List Token} (hts : ∀ t ∈ ts, t.Classified) (ho : ts.Pairwise Token.Before) :
    (ofTokens ts).tree.Headed := by
  have hroot : empty.tree.Headed :=
    ⟨.nil, by simp [empty, tree, Node.under, Node.root], by simp [empty, tree, Node.under, Node.root]⟩
  exact ofTokens_induction_inOrder (P := fun _ s => s.tree.Headed) hroot
    (fun ts _ _ ht hs hlate ih => (reads_add (ofTokens ts) ht).headed hs ht ih hlate) hts ho

end Spine
end SiblingSwap
