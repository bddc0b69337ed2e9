import Mathlib.Data.List.Forall2
import SiblingSwap.Proofs.Frame
import SiblingSwap.Proofs.Traversal

/-! Reading alike. What a token does depends on the elements of the spine, on their roles and priorities and the
    brackets they wait for, and on nothing inside their children. So two spines that differ in the places of their
    tokens, and in what stands for some of the elements outside the spine, read alike tokens alike. -/

namespace SiblingSwap

/-- The tokens do the same in a tree, and are related by `r`. -/
structure Token.Like (r : Token → Token → Prop) (t u : Token) : Prop where
  role : t.role = u.role
  priority : t.priority = u.priority
  closerOf? : SiblingSwap.closerOf? t.text = SiblingSwap.closerOf? u.text
  text : t.role = .closer → t.text = u.text
  related : r t u

theorem Token.like_of_atoms {r : Token → Token → Prop} {t u : Token} (ht : t.Classified) (hu : u.Classified)
    (hword : t.role = .atom) (hword' : u.role = .atom) (h : r t u) : t.Like r u where
  role := hword.trans hword'.symm
  priority := (ht.priority_of_atom hword).trans (hu.priority_of_atom hword').symm
  closerOf? := (ht.closerOf?_eq_none (by simp [hword])).trans (hu.closerOf?_eq_none (by simp [hword'])).symm
  text := fun hr => by simp [hword] at hr
  related := h

/-- A last element of the first list has one beside it. -/
theorem exists_concat_of_forall₂ {α β : Type} {r : α → β → Prop} {l : List α} {x : α} {l' : List β}
    (h : List.Forall₂ r (l ++ [x]) l') : ∃ k y, l' = k ++ [y] ∧ List.Forall₂ r l k ∧ r x y := by
  induction l generalizing l' with
  | nil =>
    obtain _ | ⟨hx, hnil⟩ := h
    obtain _ | _ := hnil
    exact ⟨[], _, rfl, .nil, hx⟩
  | cons z l ih =>
    obtain _ | ⟨hz, hrest⟩ := h
    obtain ⟨k, y, rfl, hk, hy⟩ := ih hrest
    exact ⟨_ :: k, y, rfl, .cons hz hk, hy⟩

theorem exists_getElem?_of_forall₂ {α β : Type} {r : α → β → Prop} {l : List α} {l' : List β} {i : Nat} {x : α}
    (h : List.Forall₂ r l l') (hx : l[i]? = some x) : ∃ y, l'[i]? = some y ∧ r x y := by
  obtain ⟨hlt, rfl⟩ := List.getElem?_eq_some_iff.mp hx
  obtain ⟨hlength, hget⟩ := List.forall₂_iff_get.mp h
  have hlt' : i < l'.length := hlength ▸ hlt
  exact ⟨l'[i], List.getElem?_eq_getElem hlt', hget i hlt hlt'⟩

namespace Node
variable {r : Token → Token → Prop} {sub : Token → Option Node} {n m p q : Node} {t u : Token}

theorem mem_allTokens_under_of_mem {ps : List Node} (hp : p ∈ ps) (ht : t ∈ p.allTokens) :
    t ∈ (n.under ps).allTokens := by
  induction ps generalizing n with
  | nil => cases hp
  | cons q ps ih =>
    rcases List.mem_cons.mp hp with rfl | hp
    · refine mem_allTokens_under (n := p.push n) ?_
      rcases mem_allTokens.mp ht with ht | ⟨c, hc, ht⟩
      · exact mem_allTokens_of_mem_tokens ht
      · exact mem_allTokens_of_child (by simp [hc]) ht
    · exact ih (n := q.push n) hp

/-- An element with one of the tokens that `sub` knows becomes what stands for it there; any other one keeps its tokens,
    up to their places, and its children become theirs. -/
inductive Becomes (r : Token → Token → Prop) (sub : Token → Option Node) : Node → Node → Prop
  | swap {n m : Node} {t : Token} (mem : t ∈ n.tokens) (stands : sub t = some m) : Becomes r sub n m
  | keep {n m : Node} (free : ∀ t ∈ n.tokens, sub t = none) (tokens : List.Forall₂ (Token.Like r) n.tokens m.tokens)
      (children : List.Forall₂ (Becomes r sub) n.children m.children) : Becomes r sub n m

/-- An element that is not replaced, with what becomes of it. -/
structure Resembles (r : Token → Token → Prop) (sub : Token → Option Node) (n m : Node) : Prop where
  free : ∀ t ∈ n.tokens, sub t = none
  tokens : List.Forall₂ (Token.Like r) n.tokens m.tokens
  children : List.Forall₂ (Becomes r sub) n.children m.children

namespace Resembles

theorem becomes (h : Resembles r sub n m) : Becomes r sub n m := .keep h.free h.tokens h.children

theorem getLast? (h : Resembles r sub n m) : Option.Rel (Token.Like r) n.tokens.getLast? m.tokens.getLast? := by
  have htokens := h.tokens
  rcases List.eq_nil_or_concat' n.tokens with hnil | ⟨ts, t, hts⟩
  · rw [hnil] at htokens ⊢
    rw [List.forall₂_nil_left_iff.mp htokens]
    exact .none
  · rw [hts] at htokens ⊢
    obtain ⟨us, u, hus, -, hlike⟩ := exists_concat_of_forall₂ htokens
    rw [hus]
    simpa using Option.Rel.some hlike

theorem role (h : Resembles r sub n m) : n.role = m.role := by
  have hlast := h.getLast?
  unfold Node.role
  generalize n.tokens.getLast? = x at hlast
  generalize m.tokens.getLast? = y at hlast
  cases hlast with
  | none => rfl
  | some hlike => exact hlike.role

theorem priority (h : Resembles r sub n m) : n.priority = m.priority := by
  have hlast := h.getLast?
  unfold Node.priority
  generalize n.tokens.getLast? = x at hlast
  generalize m.tokens.getLast? = y at hlast
  cases hlast with
  | none => rfl
  | some hlike => exact hlike.priority

theorem awaits? (h : Resembles r sub n m) : n.awaits? = m.awaits? := by
  have hlast := h.getLast?
  unfold Node.awaits?
  generalize n.tokens.getLast? = x at hlast
  generalize m.tokens.getLast? = y at hlast
  cases hlast with
  | none => rfl
  | some hlike => exact hlike.closerOf?

theorem push (h : Resembles r sub p q) (hn : Becomes r sub n m) : Resembles r sub (p.push n) (q.push m) :=
  ⟨h.free, h.tokens, List.rel_append h.children (.cons hn .nil)⟩

theorem absorb (h : Resembles r sub n m) (ht : t.Like r u) (hfree : sub t = none) :
    Resembles r sub (n.absorb t) (m.absorb u) where
  free := List.forall_mem_append.mpr ⟨h.free, by simpa using hfree⟩
  tokens := List.rel_append h.tokens (.cons ht .nil)
  children := h.children

theorem leaf (ht : t.Like r u) (hfree : sub t = none) : Resembles r sub (.leaf t) (.leaf u) where
  free := by simpa [Node.leaf] using hfree
  tokens := .cons ht .nil
  children := .nil

theorem admits_iff (h : Resembles r sub n m) (hlike : t.Like r u) (ht : t.Classified) (hu : u.Classified) :
    n.Admits t ↔ m.Admits u := by
  obtain ⟨hrole, hpriority, -, htext, -⟩ := hlike
  unfold Admits
  rw [← hrole, ← hpriority, ← h.priority, ← h.awaits?]
  refine and_congr_right fun role => and_congr_right fun _ => not_congr ?_
  rcases role with role | role
  · exact iff_of_false (fun hn => awaits?_ne hn ht (Or.inl (by simp [role])) rfl)
      (fun hm => awaits?_ne hm hu (Or.inl (by simp [← hrole, role])) rfl)
  · rw [htext role]

end Resembles

/-- What is kept as it is, up to the places of the tokens, has none of the tokens that another substitution knows. -/
theorem Becomes.widen (h : Becomes r (fun _ => none) n m) (hfree : ∀ t ∈ n.allTokens, sub t = none) :
    Becomes r sub n m := by
  induction n using children_induction generalizing m with
  | step n ih =>
    cases h with
    | swap _ stands => cases stands
    | keep _ tokens children =>
      have hchildren : ∀ c ∈ n.children, ∀ d, Becomes r (fun _ => none) c d → Becomes r sub c d := fun c hc d hd =>
        ih c hc hd fun t ht => hfree t (mem_allTokens_of_child hc ht)
      refine .keep (fun t ht => hfree t (mem_allTokens_of_mem_tokens ht)) tokens ?_
      exact ((List.forall₂_and_left _ _).mpr ⟨hchildren, children⟩).imp fun c d h => h.1 d h.2

theorem Resembles.widen (h : Resembles r (fun _ => none) n m) (hfree : ∀ t ∈ n.allTokens, sub t = none) :
    Resembles r sub n m := by
  obtain _ | ⟨free, tokens, children⟩ := h.becomes.widen hfree
  · next t ht hstands => simp [hfree t (mem_allTokens_of_mem_tokens ht)] at hstands
  · exact ⟨free, tokens, children⟩

end Node

namespace Spine
variable {r : Token → Token → Prop} {sub : Token → Option Node} {s s' : Spine} {t u : Token}

/-- The elements of two spines resemble each other one by one. -/
structure Resembles (r : Token → Token → Prop) (sub : Token → Option Node) (s s' : Spine) : Prop where
  focus : s.focus.Resembles r sub s'.focus
  above : List.Forall₂ (Node.Resembles r sub) s.above s'.above

namespace Resembles

theorem up {n n' p p' : Node} {ps ps' : List Node} (h : Resembles r sub ⟨n, p :: ps⟩ ⟨n', p' :: ps'⟩) :
    Resembles r sub ⟨p.push n, ps⟩ ⟨p'.push n', ps'⟩ := by
  obtain ⟨hfocus, habove⟩ := h
  obtain _ | ⟨hp, hps⟩ := habove
  exact ⟨hp.push hfocus.becomes, hps⟩

theorem tree (h : Resembles r sub s s') : s.tree.Resembles r sub s'.tree := by
  obtain ⟨n, ps⟩ := s
  obtain ⟨n', ps'⟩ := s'
  induction ps generalizing n n' ps' with
  | nil =>
    obtain rfl := List.forall₂_nil_left_iff.mp h.above
    exact h.focus
  | cons p ps ih =>
    obtain ⟨p', ps', -, -, rfl⟩ := List.forall₂_cons_left_iff.mp h.above
    exact ih (p.push n) (p'.push n') ps' h.up

theorem host? (h : Resembles r sub s s') : Option.Rel (Resembles r sub) s.host? s'.host? := by
  unfold Spine.host?
  rw [← h.focus.role]
  split
  · exact .some h
  · obtain ⟨n, ps⟩ := s
    obtain ⟨n', ps'⟩ := s'
    cases ps with
    | nil =>
      obtain rfl := List.forall₂_nil_left_iff.mp h.above
      exact .none
    | cons p ps =>
      obtain ⟨p', ps', -, -, rfl⟩ := List.forall₂_cons_left_iff.mp h.above
      exact .some h.up

theorem looser? (priority : Int) (h : Resembles r sub s s') :
    Option.Rel (Resembles r sub) (Spine.looser? priority s.focus s.above)
      (Spine.looser? priority s'.focus s'.above) := by
  obtain ⟨n, ps⟩ := s
  obtain ⟨n', ps'⟩ := s'
  have hpriority := h.focus.priority
  induction ps generalizing n n' ps' with
  | nil =>
    obtain rfl := List.forall₂_nil_left_iff.mp h.above
    simp only [Spine.looser?, ← hpriority]
    split
    · exact .none
    · exact .some h
  | cons p ps ih =>
    obtain ⟨p', ps', -, -, rfl⟩ := List.forall₂_cons_left_iff.mp h.above
    simp only [Spine.looser?, ← hpriority]
    split
    · exact ih _ _ _ h.up h.up.focus.priority
    · exact .some h

theorem waiting? (h : Resembles r sub s s') :
    Option.Rel (fun x y => x.1 = y.1 ∧ Resembles r sub x.2 y.2) s.waiting? s'.waiting? := by
  obtain ⟨n, ps⟩ := s
  obtain ⟨n', ps'⟩ := s'
  have hawaits := h.focus.awaits?
  unfold Spine.waiting?
  induction ps generalizing n n' ps' with
  | nil =>
    obtain rfl := List.forall₂_nil_left_iff.mp h.above
    simp only [waitingFrom, ← hawaits]
    cases n.awaits? with
    | none => exact .none
    | some closer => exact .some ⟨rfl, h⟩
  | cons p ps ih =>
    obtain ⟨p', ps', -, -, rfl⟩ := List.forall₂_cons_left_iff.mp h.above
    simp only [waitingFrom, ← hawaits]
    cases n.awaits? with
    | none => exact ih _ _ _ h.up h.up.focus.awaits?
    | some closer => exact .some ⟨rfl, h⟩

theorem join (h : Resembles r sub s s') (ht : t.Like r u) (hfree : sub t = none) :
    Resembles r sub (s.join t) (s'.join u) :=
  ⟨h.focus.absorb ht hfree, h.above⟩

theorem append (h : Resembles r sub s s') (ht : t.Like r u) (hfree : sub t = none) :
    Resembles r sub (s.append t) (s'.append u) :=
  ⟨.leaf ht hfree, .cons h.focus h.above⟩

theorem wrap (h : Resembles r sub s s') (ht : t.Like r u) (hfree : sub t = none) :
    Resembles r sub (s.wrap t) (s'.wrap u) := by
  obtain ⟨free, tokens, children⟩ := h.focus
  have hsingle : ∀ t' ∈ [t], sub t' = none := by simpa using hfree
  unfold Spine.wrap
  rcases List.eq_nil_or_concat' s.focus.children with hnil | ⟨cs, c, hcs⟩
  · rw [hnil] at children ⊢
    rw [List.forall₂_nil_left_iff.mp children]
    exact ⟨⟨hsingle, .cons ht .nil, .nil⟩, .cons ⟨free, tokens, .nil⟩ h.above⟩
  · rw [hcs] at children ⊢
    obtain ⟨ds, d, hds, hinit, hlast⟩ := exists_concat_of_forall₂ children
    rw [hds]
    simp only [List.getLast?_append, List.getLast?_singleton, Option.some_or, Option.toList_some, List.dropLast_concat]
    exact ⟨⟨hsingle, .cons ht .nil, .cons hlast .nil⟩, .cons ⟨free, tokens, hinit⟩ h.above⟩

theorem place? (h : Resembles r sub s s') (ht : t.Like r u) (hfree : sub t = none) :
    Option.Rel (Resembles r sub) (s.place? t) (s'.place? u) := by
  have hlooser := h.looser? t.priority
  unfold Spine.place?
  rw [← ht.priority]
  generalize Spine.looser? t.priority s.focus s.above = x at hlooser
  generalize Spine.looser? t.priority s'.focus s'.above = y at hlooser
  cases hlooser with
  | none => exact .none
  | some h => exact .some (h.wrap ht hfree)

theorem after (h : Resembles r sub s s') (ht : t.Like r u) (hfree : sub t = none) :
    Option.Rel (Resembles r sub) (s.after t) (s'.after u) := by
  have hplace := h.place? ht hfree
  have hwaiting := h.waiting?
  unfold Spine.after
  rw [← ht.role]
  cases hr : t.role with
  | atom | opener => exact .some (h.append ht hfree)
  | operator => exact hplace
  | closer =>
    simp only [← ht.text hr]
    generalize s.waiting? = x at hwaiting
    generalize s'.waiting? = y at hwaiting
    cases hwaiting with
    | none => exact hplace
    | @some x y hxy =>
      obtain ⟨closer, w⟩ := x
      obtain ⟨closer', w'⟩ := y
      obtain ⟨rfl, hw⟩ : closer = closer' ∧ Resembles r sub w w' := hxy
      simp only
      split
      · exact .some (hw.join ht hfree)
      · exact hplace

theorem within (h : Resembles r sub s s') (ht : t.Like r u) (hfree : sub t = none) :
    Option.Rel (Resembles r sub) (s.within t) (s'.within u) := by
  have hhost := h.host?
  unfold Spine.within
  rw [← ht.role, ← h.focus.role]
  have hline : t.role = .closer ∧ t.text = ['\n'] ∧ s.focus.role.expectsMore ↔
      t.role = .closer ∧ u.text = ['\n'] ∧ s.focus.role.expectsMore :=
    and_congr_right fun hr => by rw [ht.text hr]
  rw [if_congr hline rfl rfl]
  split
  · exact .some h
  split
  · exact .some (h.join ht hfree)
  generalize s.host? = x at hhost
  generalize s'.host? = y at hhost
  cases hhost with
  | none => exact .none
  | some h => exact h.after ht hfree

theorem within_eq_none (h : Resembles r sub s s') (ht : t.Like r u) (hfree : sub t = none) (hnone : s.within t = none) :
    s'.within u = none := by
  have hread := h.within ht hfree
  rw [hnone] at hread
  generalize s'.within u = x at hread
  obtain _ | _ := hread
  rfl

theorem host (h : Resembles r sub s s') (hs : Sound s) (hs' : Sound s') : Resembles r sub s.host s'.host := by
  have hhost := h.host?
  rw [hs.host?_eq, hs'.host?_eq] at hhost
  obtain hhost | _ := hhost
  exact hhost

theorem widen (h : Resembles r (fun _ => none) s s') (hfree : ∀ t ∈ s.tree.allTokens, sub t = none) :
    Resembles r sub s s' where
  focus := h.focus.widen fun t ht => hfree t (Node.mem_allTokens_under ht)
  above := by
    have habove : ∀ p ∈ s.above, ∀ t ∈ p.allTokens, sub t = none := fun p hp t ht =>
      hfree t (Node.mem_allTokens_under_of_mem hp ht)
    exact ((List.forall₂_and_left _ _).mpr ⟨habove, h.above⟩).imp fun p q h => h.2.widen h.1

theorem single (h : Resembles r sub s s') (hsingle : ∀ n ∈ s.above, n.children = []) :
    ∀ n ∈ s'.above, n.children = [] := by
  have habove := h.above
  generalize s.above = ps at habove hsingle
  generalize s'.above = ps' at habove
  induction habove with
  | nil => simp
  | cons hq _ ih =>
    rw [List.forall_mem_cons] at hsingle ⊢
    have hchildren := hq.children
    rw [hsingle.1] at hchildren
    exact ⟨List.forall₂_nil_left_iff.mp hchildren, ih hsingle.2⟩

/-- Alike tokens are read alike. -/
theorem feed {ts us : List Token} (h : Resembles r sub s s') (hs : Sound s) (hs' : Sound s')
    (hlike : List.Forall₂ (Token.Like r) ts us) (hts : ∀ t ∈ ts, t.Classified) (hus : ∀ u ∈ us, u.Classified)
    (hfree : ∀ t ∈ ts, sub t = none) : Resembles r sub (s.feed ts) (s'.feed us) := by
  induction hlike generalizing s s' with
  | nil => exact h
  | @cons t u ts us hlike _ ih =>
    have ht := hts t (by simp)
    have hu := hus u (by simp)
    have hread := h.within hlike (hfree t (by simp))
    rw [hs.within_eq ht, hs'.within_eq hu] at hread
    obtain hread | _ := hread
    exact ih hread ((reads_add s ht).sound hs ht) ((reads_add s' hu).sound hs' hu) (fun v hv => hts v (by simp [hv]))
      (fun v hv => hus v (by simp [hv])) (fun v hv => hfree v (by simp [hv]))

end Resembles

theorem resembles_empty (r : Token → Token → Prop) (sub : Token → Option Node) : Resembles r sub empty empty :=
  ⟨⟨by simp [empty, Node.root], .nil, .nil⟩, .nil⟩

theorem resembles_ofTokens {ts us : List Token} (hlike : List.Forall₂ (Token.Like r) ts us)
    (hts : ∀ t ∈ ts, t.Classified) (hus : ∀ u ∈ us, u.Classified) :
    Resembles r (fun _ => none) (ofTokens ts) (ofTokens us) :=
  (resembles_empty _ _).feed sound_empty sound_empty hlike hts hus fun _ _ => rfl

/-- Lists of alike tokens build trees of alike elements. -/
theorem exists_child_like {ts us : List Token} {i : Nat} {n : Node} (hlike : List.Forall₂ (Token.Like r) ts us)
    (hts : ∀ t ∈ ts, t.Classified) (hus : ∀ u ∈ us, u.Classified) (hn : (ofTokens ts).tree.at? [i] = some n) :
    ∃ m, (ofTokens us).tree.at? [i] = some m ∧ List.Forall₂ (Token.Like r) n.tokens m.tokens := by
  have hresembles := resembles_ofTokens hlike hts hus
  have hchild : (ofTokens ts).tree.children[i]? = some n := by simpa [Node.at?] using hn
  obtain ⟨m, hm, hbecomes⟩ := exists_getElem?_of_forall₂ hresembles.tree.children hchild
  refine ⟨m, by simpa [Node.at?] using hm, ?_⟩
  cases hbecomes with
  | swap _ stands => cases stands
  | keep _ tokens _ => exact tokens

/-- A piece grows alike by alike tokens. -/
theorem Grows.like {w w' : Token → Prop} {f f' g : Spine} {ts us : List Token} (h : Grows w f ts g)
    (hf : Resembles r sub f f') (hlike : List.Forall₂ (Token.Like r) ts us) (hfree : ∀ t ∈ ts, sub t = none)
    (hw : ∀ t ∈ ts, ∀ u ∈ us, t.Like r u → w t → w' u) : ∃ g', Grows w' f' us g' ∧ Resembles r sub g g' := by
  induction h generalizing f' us with
  | nil f =>
    obtain rfl := List.forall₂_nil_left_iff.mp hlike
    exact ⟨f', .nil f', hf⟩
  | @within f₁ f₂ g t ts inside _ ih =>
    obtain ⟨u, us, hu, hus, rfl⟩ := List.forall₂_cons_left_iff.mp hlike
    have hread := hf.within hu (hfree t (by simp))
    rw [inside] at hread
    generalize hin : f'.within u = x at hread
    obtain hread | _ := hread
    obtain ⟨g', hg', hsame⟩ := ih hread hus (fun v hv => hfree v (by simp [hv])) fun v hv v' hv' =>
      hw v (by simp [hv]) v' (by simp [hv'])
    exact ⟨g', .within hin hg', hsame⟩
  | @wrap f₁ g t ts outside allowed _ ih =>
    obtain ⟨u, us, hu, hus, rfl⟩ := List.forall₂_cons_left_iff.mp hlike
    have hin := hf.within_eq_none hu (hfree t (by simp)) outside
    have hwrap : Resembles r sub ⟨⟨[t], [f₁.tree]⟩, []⟩ ⟨⟨[u], [f'.tree]⟩, []⟩ :=
      ⟨⟨by simpa using hfree t (by simp), .cons hu .nil, .cons hf.tree.becomes .nil⟩, .nil⟩
    obtain ⟨g', hg', hsame⟩ := ih hwrap hus (fun v hv => hfree v (by simp [hv])) fun v hv v' hv' =>
      hw v (by simp [hv]) v' (by simp [hv'])
    exact ⟨g', .wrap hin (hw t (by simp) u (by simp) hu allowed) hg', hsame⟩

end Spine
end SiblingSwap
