import Mathlib.Data.List.Chain
import SiblingSwap.Proofs.Spine

/-! Document order in a tree. When tokens are read in the order of their places, the subtrees of the children of a node
    stand one after the other, since a token is placed at the lower end of the spine only. In such a tree the two edges
    that `Node.bound` follows lead to the first and the last token of a subtree. -/

namespace SiblingSwap

def Token.Before (s t : Token) : Prop := s.span.stop ≤ t.span.start

instance (s t : Token) : Decidable (s.Before t) := inferInstanceAs (Decidable (_ ≤ _))

/-- All tokens of a run lie between the start of the first and the end of the last. -/
theorem Token.between_of_run {s e u : Token} {us : List Token} (ho : (s :: us).Pairwise Before)
    (hpos : ∀ t ∈ s :: us, t.span.start < t.span.stop) (he : (s :: us).getLast? = some e) (hu : u ∈ s :: us) :
    s.span.start ≤ u.span.start ∧ u.span.stop ≤ e.span.stop := by
  constructor
  · rcases List.mem_cons.mp hu with rfl | hu
    · exact Nat.le_refl _
    · have hbefore : s.span.stop ≤ u.span.start := (List.pairwise_cons.mp ho).1 u hu
      exact Nat.le_trans (Nat.le_of_lt (hpos s (by simp))) hbefore
  · obtain ⟨init, hinit⟩ := List.getLast?_eq_some_iff.mp he
    rw [hinit] at ho hu hpos
    rcases List.mem_append.mp hu with hu | hu
    · have hbefore : u.span.stop ≤ e.span.start := (List.pairwise_append.mp ho).2.2 u hu e (by simp)
      exact Nat.le_trans hbefore (Nat.le_of_lt (hpos e (by simp)))
    · exact Nat.le_of_eq (congrArg (·.span.stop) (List.mem_singleton.mp hu))

namespace Node

/-! ### All tokens of a subtree -/

mutual

/-- The tokens of a node and of all below it, each node before its children. -/
def allTokens : Node → List Token
  | ⟨ts, cs⟩ => ts ++ allTokensAmong cs

def allTokensAmong : List Node → List Token
  | [] => []
  | c :: cs => allTokens c ++ allTokensAmong cs

end

theorem allTokensAmong_eq (cs : List Node) : allTokensAmong cs = cs.flatMap allTokens := by
  induction cs with
  | nil => rfl
  | cons c cs ih => rw [allTokensAmong, ih, List.flatMap_cons]

theorem mem_allTokens {n : Node} {t : Token} :
    t ∈ n.allTokens ↔ t ∈ n.tokens ∨ ∃ c ∈ n.children, t ∈ c.allTokens := by
  obtain ⟨ts, cs⟩ := n
  rw [allTokens, allTokensAmong_eq, List.mem_append, List.mem_flatMap]

theorem mem_allTokens_of_mem_tokens {n : Node} {t : Token} (ht : t ∈ n.tokens) : t ∈ n.allTokens :=
  mem_allTokens.mpr (Or.inl ht)

theorem mem_allTokens_of_child {n c : Node} {t : Token} (hc : c ∈ n.children) (ht : t ∈ c.allTokens) :
    t ∈ n.allTokens :=
  mem_allTokens.mpr (Or.inr ⟨c, hc, ht⟩)

theorem mem_allTokens_of_at? {tree n : Node} {a : Address} (h : tree.at? a = some n) {t : Token}
    (ht : t ∈ n.allTokens) : t ∈ tree.allTokens := by
  have hbelow : ∀ p : Node, (∀ u ∈ p.allTokens, u ∈ tree.allTokens) →
      ∀ c ∈ p.children, ∀ u ∈ c.allTokens, u ∈ tree.allTokens :=
    fun p hp c hc u hu => hp u (mem_allTokens_of_child hc hu)
  exact inherited_at? hbelow (fun u hu => hu) h t ht

theorem mem_allTokens_under {n : Node} {ps : List Node} {t : Token} (ht : t ∈ n.allTokens) :
    t ∈ (n.under ps).allTokens :=
  mem_allTokens_of_at? (at?_under n ps) ht

@[simp]
theorem allTokens_leaf (t : Token) : (leaf t).allTokens = [t] := rfl

theorem allTokens_push (n c : Node) : (n.push c).allTokens = n.allTokens ++ c.allTokens := by
  obtain ⟨ts, cs⟩ := n
  simp [push, allTokens, allTokensAmong_eq]

theorem wrapLast_concat (ts : List Token) (cs : List Node) (c : Node) (t : Token) :
    wrapLast t ⟨ts, cs ++ [c]⟩ = push ⟨ts, cs⟩ ((leaf t).push c) := by
  simp [wrapLast, push, leaf]

theorem allTokens_absorb_perm (n : Node) (t : Token) : (n.absorb t).allTokens.Perm (t :: n.allTokens) := by
  obtain ⟨ts, cs⟩ := n
  simp only [absorb, allTokens, List.append_assoc, List.singleton_append]
  exact List.perm_middle

theorem allTokens_addChild_perm (n : Node) (t : Token) : (n.addChild t).allTokens.Perm (t :: n.allTokens) := by
  show (n.push (leaf t)).allTokens.Perm _
  rw [allTokens_push]
  exact List.perm_append_singleton t _

theorem allTokens_wrapLast_perm (n : Node) (t : Token) : (n.wrapLast t).allTokens.Perm (t :: n.allTokens) := by
  obtain ⟨ts, cs⟩ := n
  rcases List.eq_nil_or_concat' cs with rfl | ⟨cs, c, rfl⟩
  · exact allTokens_addChild_perm ⟨ts, []⟩ t
  · have hlast : (⟨ts, cs ++ [c]⟩ : Node) = push ⟨ts, cs⟩ c := rfl
    rw [wrapLast_concat, hlast, allTokens_push, allTokens_push, allTokens_push, allTokens_leaf, List.singleton_append]
    exact List.perm_middle

theorem allTokens_under_perm {n m : Node} {t : Token} (h : m.allTokens.Perm (t :: n.allTokens)) (ps : List Node) :
    (m.under ps).allTokens.Perm (t :: (n.under ps).allTokens) := by
  induction ps generalizing n m with
  | nil => exact h
  | cons p ps ih =>
    refine ih (n := p.push n) (m := p.push m) ?_
    rw [allTokens_push, allTokens_push]
    exact (h.append_left _).trans List.perm_middle

/-! ### Ordered trees -/

/-- All tokens of a subtree end before all of another start. -/
def Before (c d : Node) : Prop := ∀ s ∈ c.allTokens, ∀ t ∈ d.allTokens, s.Before t

/-- At every node the tokens stand in document order, and so do the subtrees of the children, none of which is
    without a token. -/
inductive Ordered : Node → Prop
  | mk {n : Node} (own : n.tokens.Pairwise Token.Before) (siblings : n.children.Pairwise Before)
      (filled : ∀ c ∈ n.children, c.tokens ≠ []) (children : ∀ c ∈ n.children, Ordered c) : Ordered n

namespace Ordered
variable {n m : Node}

theorem own (h : Ordered n) : n.tokens.Pairwise Token.Before := by
  cases h
  assumption

theorem siblings (h : Ordered n) : n.children.Pairwise Before := by
  cases h
  assumption

theorem filled (h : Ordered n) : ∀ c ∈ n.children, c.tokens ≠ [] := by
  cases h
  assumption

theorem children (h : Ordered n) : ∀ c ∈ n.children, Ordered c := by
  cases h
  assumption

theorem root : Ordered root := ⟨by simp [Node.root], by simp [Node.root], by simp [Node.root], by simp [Node.root]⟩

theorem at? (h : Ordered n) {a : Address} (hm : n.at? a = some m) : Ordered m ∧ (a ≠ [] → m.tokens ≠ []) := by
  induction a generalizing m with
  | nil =>
    simp only [Node.at?, Option.some.injEq] at hm
    exact ⟨hm ▸ h, fun hne => absurd rfl hne⟩
  | cons i up ih =>
    obtain ⟨p, hp, hi⟩ := Option.bind_eq_some_iff.mp hm
    have hmem := List.mem_of_getElem? hi
    exact ⟨(ih hp).1.children m hmem, fun _ => (ih hp).1.filled m hmem⟩

theorem of_under {ps : List Node} (h : Ordered (n.under ps)) : Ordered n := (h.at? (at?_under n ps)).1

end Ordered

/-! ### Bounds -/

theorem leftEdge_min (a b : Nat) (n : Node) : n.leftEdge (min a b) = min a (n.leftEdge b) := by
  fun_induction leftEdge b n with
  | case1 b ts => rfl
  | case2 b ts c cs ih => rw [leftEdge, ← ih, Nat.min_assoc]

theorem bound_start_cons (ts : List Token) (c : Node) (cs : List Node) :
    (bound ⟨ts, c :: cs⟩).start = min (span ⟨ts, c :: cs⟩).start c.bound.start := by
  show leftEdge _ ⟨ts, c :: cs⟩ = _
  rw [leftEdge, leftEdge_min]
  rfl

theorem rightEdgeAmong_concat (b : Nat) (cs : List Node) (c : Node) :
    rightEdgeAmong b (cs ++ [c]) = c.rightEdge (max b c.span.stop) := by
  induction cs with
  | nil => rw [List.nil_append, rightEdgeAmong]
  | cons d cs ih =>
    cases cs with
    | nil => simp only [List.cons_append, List.nil_append, rightEdgeAmong]
    | cons e cs => simpa only [List.cons_append, rightEdgeAmong] using ih

mutual

theorem rightEdge_max (a b : Nat) (n : Node) : n.rightEdge (max a b) = max a (n.rightEdge b) := by
  obtain ⟨ts, cs⟩ := n
  rw [rightEdge, rightEdge]
  exact rightEdgeAmong_max a b cs

theorem rightEdgeAmong_max (a b : Nat) (cs : List Node) :
    rightEdgeAmong (max a b) cs = max a (rightEdgeAmong b cs) := by
  match cs with
  | [] => rfl
  | [c] => rw [rightEdgeAmong, rightEdgeAmong, Nat.max_assoc, rightEdge_max a _ c]
  | _ :: c :: cs => rw [rightEdgeAmong, rightEdgeAmong, rightEdgeAmong_max a b (c :: cs)]

end

theorem bound_stop_concat (ts : List Token) (cs : List Node) (c : Node) :
    (bound ⟨ts, cs ++ [c]⟩).stop = max (span ⟨ts, cs ++ [c]⟩).stop c.bound.stop := by
  show rightEdge _ ⟨ts, cs ++ [c]⟩ = _
  rw [rightEdge, rightEdgeAmong_concat, rightEdge_max]
  rfl

end Node

/-- The least span around some tokens. -/
def Span.hull (ts : List Token) : Span :=
  ⟨(ts.map (·.span.start)).min?.getD 0, (ts.map (·.span.stop)).max?.getD 0⟩

namespace Node
namespace Ordered
variable {n : Node}

theorem bound_start (h : Ordered n) (hne : n.tokens ≠ []) (hpos : ∀ t ∈ n.allTokens, t.span.start < t.span.stop) :
    (∃ t ∈ n.allTokens, t.span.start = n.bound.start) ∧ ∀ t ∈ n.allTokens, n.bound.start ≤ t.span.start := by
  induction h with
  | @mk n own siblings filled children ih =>
    obtain ⟨ts, cs⟩ := n
    obtain ⟨t₀, rest, rfl⟩ := List.exists_cons_of_ne_nil hne
    have first : ∀ t ∈ t₀ :: rest, t₀.span.start ≤ t.span.start := by
      intro t ht
      rcases List.mem_cons.mp ht with rfl | ht
      · exact Nat.le_refl _
      · have hbefore : t₀.span.stop ≤ t.span.start := (List.pairwise_cons.mp own).1 t ht
        have := hpos t₀ (mem_allTokens_of_mem_tokens (by simp))
        omega
    cases cs with
    | nil =>
      refine ⟨⟨t₀, mem_allTokens_of_mem_tokens (by simp), rfl⟩, fun t ht => ?_⟩
      exact first t ((mem_allTokens.mp ht).resolve_right (by simp))
    | cons c cs =>
      obtain ⟨⟨s, hs, hstart⟩, hleast⟩ := ih c (by simp) (filled c (by simp)) fun t ht =>
        hpos t (mem_allTokens_of_child (c := c) (by simp) ht)
      have hspan : (span ⟨t₀ :: rest, c :: cs⟩).start = t₀.span.start := rfl
      rw [bound_start_cons, hspan]
      constructor
      · rcases Nat.le_total t₀.span.start c.bound.start with hle | hle
        · exact ⟨t₀, mem_allTokens_of_mem_tokens (by simp), (Nat.min_eq_left hle).symm⟩
        · exact ⟨s, mem_allTokens_of_child (c := c) (by simp) hs, by rw [Nat.min_eq_right hle, hstart]⟩
      · intro t ht
        rcases mem_allTokens.mp ht with ht | ⟨d, hd, htd⟩
        · exact Nat.le_trans (Nat.min_le_left _ _) (first t ht)
        · refine Nat.le_trans (Nat.min_le_right _ _) ?_
          rcases List.mem_cons.mp hd with rfl | hd
          · exact hleast t htd
          · -- A token of a later child starts after the first child ends.
            have hbefore : s.span.stop ≤ t.span.start := (List.pairwise_cons.mp siblings).1 d hd s hs t htd
            have := hpos s (mem_allTokens_of_child (c := c) (by simp) hs)
            omega

theorem bound_stop (h : Ordered n) (hne : n.tokens ≠ []) (hpos : ∀ t ∈ n.allTokens, t.span.start < t.span.stop) :
    (∃ t ∈ n.allTokens, t.span.stop = n.bound.stop) ∧ ∀ t ∈ n.allTokens, t.span.stop ≤ n.bound.stop := by
  induction h with
  | @mk n own siblings filled children ih =>
    obtain ⟨ts, cs⟩ := n
    obtain ⟨rest, t₁, rfl⟩ := (List.eq_nil_or_concat' ts).resolve_left hne
    have last : ∀ t ∈ rest ++ [t₁], t.span.stop ≤ t₁.span.stop := by
      intro t ht
      rcases List.mem_append.mp ht with ht | ht
      · have hbefore : t.span.stop ≤ t₁.span.start := (List.pairwise_append.mp own).2.2 t ht t₁ (by simp)
        have := hpos t₁ (mem_allTokens_of_mem_tokens (by simp))
        omega
      · exact Nat.le_of_eq (congrArg (·.span.stop) (List.mem_singleton.mp ht))
    have hspan : (span ⟨rest ++ [t₁], cs⟩).stop = t₁.span.stop := by simp [span]
    rcases List.eq_nil_or_concat' cs with rfl | ⟨cs, c, rfl⟩
    · have hbound : (bound ⟨rest ++ [t₁], []⟩).stop = t₁.span.stop := by
        rw [← hspan]
        show rightEdge _ _ = _
        rw [rightEdge, rightEdgeAmong]
      rw [hbound]
      refine ⟨⟨t₁, mem_allTokens_of_mem_tokens (by simp), rfl⟩, fun t ht => ?_⟩
      exact last t ((mem_allTokens.mp ht).resolve_right (by simp))
    · obtain ⟨⟨s, hs, hstop⟩, hgreatest⟩ := ih c (by simp) (filled c (by simp)) fun t ht =>
        hpos t (mem_allTokens_of_child (c := c) (by simp) ht)
      rw [bound_stop_concat, hspan]
      constructor
      · rcases Nat.le_total t₁.span.stop c.bound.stop with hle | hle
        · exact ⟨s, mem_allTokens_of_child (c := c) (by simp) hs, by rw [Nat.max_eq_right hle, hstop]⟩
        · exact ⟨t₁, mem_allTokens_of_mem_tokens (by simp), (Nat.max_eq_left hle).symm⟩
      · intro t ht
        rcases mem_allTokens.mp ht with ht | ⟨d, hd, htd⟩
        · exact Nat.le_trans (last t ht) (Nat.le_max_left _ _)
        · refine Nat.le_trans ?_ (Nat.le_max_right _ _)
          rcases List.mem_append.mp hd with hd | hd
          · have hbefore : t.span.stop ≤ s.span.start :=
              (List.pairwise_append.mp siblings).2.2 d hd c (by simp) t htd s hs
            have := hpos s (mem_allTokens_of_child (c := c) (by simp) hs)
            omega
          · exact hgreatest t (List.mem_singleton.mp hd ▸ htd)

theorem bound_eq_hull (h : Ordered n) (hne : n.tokens ≠ [])
    (hpos : ∀ t ∈ n.allTokens, t.span.start < t.span.stop) : n.bound = Span.hull n.allTokens := by
  obtain ⟨⟨s, hs, hstart⟩, hleast⟩ := h.bound_start hne hpos
  obtain ⟨⟨t, ht, hstop⟩, hgreatest⟩ := h.bound_stop hne hpos
  have hmin : (n.allTokens.map (·.span.start)).min? = some n.bound.start :=
    List.min?_eq_some_iff.mpr ⟨List.mem_map.mpr ⟨s, hs, hstart⟩, by simpa using hleast⟩
  have hmax : (n.allTokens.map (·.span.stop)).max? = some n.bound.stop :=
    List.max?_eq_some_iff.mpr ⟨List.mem_map.mpr ⟨t, ht, hstop⟩, by simpa using hgreatest⟩
  rw [Span.hull, hmin, hmax]
  rfl

/-! ### Growth -/

theorem push_iff {c : Node} :
    Ordered (n.push c) ↔ Ordered n ∧ Ordered c ∧ c.tokens ≠ [] ∧ ∀ d ∈ n.children, d.Before c := by
  constructor
  · intro h
    obtain ⟨hearlier, -, hlast⟩ := List.pairwise_append.mp h.siblings
    have hchild : ∀ d ∈ n.children, d ∈ (n.push c).children := fun d hd => List.mem_append_left _ hd
    exact ⟨⟨h.own, hearlier, fun d hd => h.filled d (hchild d hd), fun d hd => h.children d (hchild d hd)⟩,
      h.children c (by simp), h.filled c (by simp), fun d hd => hlast d hd c (by simp)⟩
  · rintro ⟨hn, hc, hne, hbefore⟩
    refine ⟨hn.own, ?_, ?_, ?_⟩
    · exact List.pairwise_append.mpr ⟨hn.siblings, by simp, fun d hd e he => List.mem_singleton.mp he ▸ hbefore d hd⟩
    · exact List.forall_mem_append.mpr ⟨hn.filled, by simpa using hne⟩
    · exact List.forall_mem_append.mpr ⟨hn.children, by simpa using hc⟩

theorem leaf (t : Token) : Ordered (.leaf t) :=
  ⟨by simp [Node.leaf], by simp [Node.leaf], by simp [Node.leaf], by simp [Node.leaf]⟩

/-- A change of the last node of a spine that adds a token after all others keeps the order of the tree. -/
theorem under {m : Node} {ps : List Node} {t : Token} (h : Ordered (n.under ps)) (hm : Ordered m)
    (hfill : n.tokens ≠ [] → m.tokens ≠ []) (hperm : m.allTokens.Perm (t :: n.allTokens))
    (hlate : ∀ u ∈ (n.under ps).allTokens, u.Before t) : Ordered (m.under ps) := by
  induction ps generalizing n m with
  | nil => exact hm
  | cons p ps ih =>
    obtain ⟨hp, -, hne, hbefore⟩ := push_iff.mp (of_under (n := p.push n) h)
    refine ih (n := p.push n) h (push_iff.mpr ⟨hp, hm, hfill hne, fun d hd s hs u hu => ?_⟩) id ?_ hlate
    · rcases List.mem_cons.mp (hperm.mem_iff.mp hu) with rfl | hu
      · have hmem : d ∈ (p.push n).children := List.mem_append_left _ hd
        exact hlate s (mem_allTokens_under (n := p.push n) (mem_allTokens_of_child hmem hs))
      · exact hbefore d hd s hs u hu
    · rw [allTokens_push, allTokens_push]
      exact (hperm.append_left _).trans List.perm_middle

section Change
variable {t : Token}

theorem absorb (h : Ordered n) (hlate : ∀ u ∈ n.allTokens, u.Before t) : Ordered (n.absorb t) := by
  refine ⟨List.pairwise_append.mpr ⟨h.own, by simp, fun s hs u hu => ?_⟩, h.siblings, h.filled, h.children⟩
  exact List.mem_singleton.mp hu ▸ hlate s (mem_allTokens_of_mem_tokens hs)

theorem addChild (h : Ordered n) (hlate : ∀ u ∈ n.allTokens, u.Before t) : Ordered (n.addChild t) := by
  refine push_iff.mpr ⟨h, leaf t, by simp [Node.leaf], fun d hd s hs u hu => ?_⟩
  have hut : u = t := by simpa [Node.leaf, allTokens, allTokensAmong] using hu
  exact hut ▸ hlate s (mem_allTokens_of_child hd hs)

theorem wrapLast (h : Ordered n) (hlate : ∀ u ∈ n.allTokens, u.Before t) : Ordered (n.wrapLast t) := by
  obtain ⟨ts, cs⟩ := n
  rcases List.eq_nil_or_concat' cs with rfl | ⟨cs, c, rfl⟩
  · exact h.addChild hlate
  · obtain ⟨hn, hc, hne, hbefore⟩ := (push_iff (n := ⟨ts, cs⟩)).mp h
    have hadopt : Ordered ((Node.leaf t).push c) := push_iff.mpr ⟨leaf t, hc, hne, by simp [Node.leaf]⟩
    rw [wrapLast_concat]
    refine push_iff.mpr ⟨hn, hadopt, by simp [Node.leaf], fun d hd s hs u hu => ?_⟩
    rw [allTokens_push, allTokens_leaf, List.singleton_append] at hu
    rcases List.mem_cons.mp hu with rfl | hu
    · exact hlate s (mem_allTokens_of_child (List.mem_append_left _ hd) hs)
    · exact hbefore d hd s hs u hu

end Change

end Ordered
end Node

/-! ### Reading in order -/

namespace Spine
variable {s s' : Spine} {t : Token}

/-- A token that is read is dropped, or the tree holds it in addition to all others. -/
theorem Reads.allTokens_perm (h : Reads s t s') (hs : Sound s) (ht : t.Classified) :
    s'.tree = s.tree ∨ s'.tree.allTokens.Perm (t :: s.tree.allTokens) := by
  refine (h.tree_cases hs ht).imp_right ?_
  rintro ⟨n, ps, htree, ⟨htree', -⟩ | htree' | htree'⟩ <;> rw [htree, htree']
  · exact Node.allTokens_under_perm (n.allTokens_absorb_perm t) ps
  · exact Node.allTokens_under_perm (n.allTokens_addChild_perm t) ps
  · exact Node.allTokens_under_perm (n.allTokens_wrapLast_perm t) ps

theorem Reads.ordered (h : Reads s t s') (hs : Sound s) (ht : t.Classified) (ho : s.tree.Ordered)
    (hlate : ∀ u ∈ s.tree.allTokens, u.Before t) : s'.tree.Ordered := by
  rcases h.tree_cases hs ht with htree | ⟨n, ps, htree, ⟨htree', -⟩ | htree' | htree'⟩
  · exact htree ▸ ho
  all_goals
    rw [htree] at ho hlate
    rw [htree']
    have hn : ∀ u ∈ n.allTokens, u.Before t := fun u hu => hlate u (Node.mem_allTokens_under hu)
  · exact ho.under (ho.of_under.absorb hn) (fun _ => by simp [Node.absorb]) (n.allTokens_absorb_perm t) hlate
  · exact ho.under (ho.of_under.addChild hn) id (n.allTokens_addChild_perm t) hlate
  · exact ho.under (ho.of_under.wrapLast hn) id (n.allTokens_wrapLast_perm t) hlate

theorem mem_of_mem_ofTokens {ts : List Token} (hts : ∀ t ∈ ts, t.Classified) :
    ∀ u ∈ (ofTokens ts).tree.allTokens, u ∈ ts := by
  refine ofTokens_induction (P := fun ts s => ∀ u ∈ s.tree.allTokens, u ∈ ts) (fun u hu => by cases hu) ?_ hts
  intro ts t _ ht hs ih u hu
  rcases (reads_add (ofTokens ts) ht).allTokens_perm hs ht with hsame | hperm
  · exact List.mem_append_left _ (ih u (hsame ▸ hu))
  · rcases List.mem_cons.mp (hperm.mem_iff.mp hu) with rfl | hu
    · simp
    · exact List.mem_append_left _ (ih u hu)

/-- Where tokens are read in document order, each comes after all that the tree holds. -/
theorem ofTokens_induction_inOrder {P : List Token → Spine → Prop} (nil : P [] empty)
    (concat : ∀ ts t, (∀ u ∈ ts, u.Classified) → t.Classified → Sound (ofTokens ts) →
      (∀ u ∈ (ofTokens ts).tree.allTokens, u.Before t) → P ts (ofTokens ts) → P (ts ++ [t]) ((ofTokens ts).add t))
    {ts : List Token} (hts : ∀ t ∈ ts, t.Classified) (ho : ts.Pairwise Token.Before) : P ts (ofTokens ts) := by
  revert ho
  refine ofTokens_induction (P := fun ts s => ts.Pairwise Token.Before → P ts s) (fun _ => nil) ?_ hts
  intro ts t hinit ht hs ih ho
  obtain ⟨hinitOrder, -, hlate⟩ := List.pairwise_append.mp ho
  exact concat ts t hinit ht hs (fun u hu => hlate u (mem_of_mem_ofTokens hinit u hu) t (by simp)) (ih hinitOrder)

theorem ordered_ofTokens {ts : List Token} (hts : ∀ t ∈ ts, t.Classified) (ho : ts.Pairwise Token.Before) :
    (ofTokens ts).tree.Ordered :=
  ofTokens_induction_inOrder (P := fun _ s => s.tree.Ordered) Node.Ordered.root
    (fun ts _ _ ht hs hlate ih => (reads_add (ofTokens ts) ht).ordered hs ht ih hlate) hts ho

end Spine

/-- All elements of a tree of classified tokens are classified. -/
theorem Node.classified_of_at? {ts : List Token} (hts : ∀ t ∈ ts, t.Classified) {a : Address} {n : Node}
    (hn : (Spine.ofTokens ts).tree.at? a = some n) : n.Classified :=
  fun u hu => hts u (Spine.mem_of_mem_ofTokens hts u (mem_allTokens_of_at? hn (mem_allTokens_of_mem_tokens hu)))

/-- Tokens that take up room stand in order as soon as each ends before the next starts. -/
theorem Token.pairwise_before {ts : List Token} (hpos : ∀ t ∈ ts, t.span.start < t.span.stop)
    (h : ts.IsChain Before) : ts.Pairwise Before := by
  induction ts with
  | nil => exact .nil
  | cons s ts ih =>
    cases ts with
    | nil => exact List.pairwise_singleton _ _
    | cons t ts =>
      obtain ⟨hst, hrest⟩ := List.isChain_cons_cons.mp h
      have hpairs := ih (fun u hu => hpos u (List.mem_cons_of_mem _ hu)) hrest
      refine List.pairwise_cons.mpr ⟨fun u hu => ?_, hpairs⟩
      rcases List.mem_cons.mp hu with rfl | hu
      · exact hst
      · have htu : t.span.stop ≤ u.span.start := (List.pairwise_cons.mp hpairs).1 u hu
        have := hpos t (by simp)
        exact Nat.le_trans hst (by omega)

/-- In the tree of tokens read in order, the subtrees of siblings have no token in common and stand in document order,
    and the bound of an element is the least span around all tokens at and below it. -/
theorem Node.siblings_before_and_bound_eq_hull {ts : List Token} (classified : ∀ t ∈ ts, t.Classified)
    (nonempty : ∀ t ∈ ts, t.span.start < t.span.stop) (inOrder : ts.IsChain Token.Before) {a : Address} {n : Node}
    (found : (Node.ofTokens ts).at? a = some n) :
    (n.children.Pairwise fun c d => c.allTokens.Disjoint d.allTokens ∧ c.Before d) ∧
      (a ≠ [] → n.bound = Span.hull n.allTokens) := by
  have htree := Node.ofTokens_eq classified
  have hread : ∀ u ∈ n.allTokens, u ∈ ts := fun u hu =>
    Spine.mem_of_mem_ofTokens classified u (htree ▸ mem_allTokens_of_at? found hu)
  have hordered := Spine.ordered_ofTokens classified (Token.pairwise_before nonempty inOrder)
  rw [← htree] at hordered
  obtain ⟨hn, hne⟩ := hordered.at? found
  constructor
  · refine hn.siblings.imp_of_mem fun {c d} hc _ hbefore => ⟨fun u huc hud => ?_, hbefore⟩
    have hself : u.span.stop ≤ u.span.start := hbefore u huc u hud
    have := nonempty u (hread u (mem_allTokens_of_child hc huc))
    omega
  · intro hroot
    exact hn.bound_eq_hull (hne hroot) fun u hu => nonempty u (hread u hu)

/-- In `a + * b ) c` an operator takes over the operand of the one before it, and a bracket closes nothing. -/
theorem Node.siblings_before_and_bound_eq_hull_of_loose_operators :
    let ts : List Token := [.ofLexeme ['a'] ⟨0, 1⟩, .ofLexeme ['+'] ⟨2, 3⟩, .ofLexeme ['*'] ⟨4, 5⟩,
      .ofLexeme ['b'] ⟨6, 7⟩, .ofLexeme [')'] ⟨8, 9⟩, .ofLexeme ['c'] ⟨10, 11⟩]
    ∃ n, (Node.ofTokens ts).at? [0, 0, 0] = some n ∧
      (n.children.Pairwise fun c d => c.allTokens.Disjoint d.allTokens ∧ c.Before d) ∧
      n.bound = Span.hull n.allTokens := by
  intro ts
  have classified : ∀ t ∈ ts, t.Classified := by decide
  have nonempty : ∀ t ∈ ts, t.span.start < t.span.stop := by decide
  have inOrder : ts.IsChain Token.Before := by decide
  have found : (Node.ofTokens ts).at? [0, 0, 0] = some ⟨[.ofLexeme ['*'] ⟨4, 5⟩],
      [.leaf (.ofLexeme ['a'] ⟨0, 1⟩), .leaf (.ofLexeme ['b'] ⟨6, 7⟩)]⟩ := rfl
  have holds := siblings_before_and_bound_eq_hull classified nonempty inOrder found
  exact ⟨_, found, holds.1, holds.2 (by simp)⟩

end SiblingSwap
