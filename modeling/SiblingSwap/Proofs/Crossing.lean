import SiblingSwap.Proofs.Balance
import SiblingSwap.Proofs.Headed
import SiblingSwap.Proofs.Listing
import SiblingSwap.Proofs.Origin

/-! Two neighbours whose runs of tokens may change places. -/

namespace SiblingSwap

namespace Node
variable {n m : Node}

/-- What takes over a child of an operator takes over one of whoever binds more loosely. -/
theorem Admits.of_le {t : Token} (h : n.Admits t) (hn : n.Classified) (hrole : n.role = .operator) (ht : t.Classified)
    (hle : m.priority ≤ n.priority) : m.Admits t := by
  obtain ⟨role, hlt, -⟩ := h
  refine ⟨role, Int.lt_of_le_of_lt hle hlt, fun hawaits => ?_⟩
  obtain ⟨u, -, hu⟩ := Option.bind_eq_some_iff.mp hawaits
  have hone := ht.priority_of_closing hu
  have hmem := hn.operator_iff.mp hrole
  simp only [operatorPriorities, List.mem_cons, List.not_mem_nil, or_false] at hmem
  omega

/-! ### The first token of an element -/

/-- Words in a row, an opener, and a closed pair of brackets start with a token of their own that is a word or an
    opener. -/
theorem exists_head (ho : n.Ordered) (hh : n.Headed) (hc : n.Classified)
    (h : (n.role = .atom ∨ n.role = .opener) ∧ n.tokens ≠ [] ∨ n.isGroup = true) :
    ∃ t, n.tokens.head? = some t ∧ (t.role = .atom ∨ t.role = .opener) ∧ ∀ u ∈ n.allTokens, u = t ∨ t.Before u := by
  cases htokens : n.tokens with
  | nil => simp [isGroup, htokens] at h
  | cons t ts =>
    have hplain : t.role = .atom ∨ t.role = .opener := by
      cases ts with
      | nil =>
        rcases h with ⟨h, -⟩ | h
        · simpa [role, htokens] using h
        · simp only [isGroup, role, htokens, List.getLast?_singleton, Option.map_some, Option.getD_some,
            Bool.and_eq_true, decide_eq_true_eq, List.any_cons, List.any_nil, Bool.or_false] at h
          obtain ⟨closer, hcloser⟩ := Option.isSome_iff_exists.mp h.2
          exact Or.inr ((hc t (by simp [htokens])).of_bracket hcloser).1
      | cons u us =>
        have hrun := hh.run
        rw [htokens, List.isChain_cons_cons] at hrun
        exact hrun.1.imp And.left fun hcloser => ((hc t (by simp [htokens])).of_bracket hcloser).1
    refine ⟨t, rfl, hplain, fun u hu => ?_⟩
    rcases mem_allTokens.mp hu with hu | ⟨c, hc, hu⟩
    · have hown := ho.own
      rw [htokens] at hu hown
      exact (List.mem_cons.mp hu).imp_right ((List.pairwise_cons.mp hown).1 u)
    · exact Or.inr (hh.leads t (by simp [htokens]) hplain c hc u hu)

theorem tokens_under {n : Node} {ps : List Node} (h : ps ≠ []) : ∃ p ∈ ps, (n.under ps).tokens = p.tokens := by
  induction ps generalizing n with
  | nil => exact absurd rfl h
  | cons p ps ih =>
    cases ps with
    | nil => exact ⟨p, by simp, rfl⟩
    | cons q qs =>
      obtain ⟨k, hk, htokens⟩ := @ih (p.push n) (by simp)
      exact ⟨k, by simp [List.mem_cons.mp hk], htokens⟩

/-- An operator is alone in its element. -/
theorem Headed.tokens_of_operator (h : n.Headed) (hc : n.Classified) (hr : n.role = .operator) :
    ∃ t, n.tokens = [t] := by
  rcases List.eq_nil_or_concat' n.tokens with hnil | ⟨ts, t, hts⟩
  · simp [role, hnil] at hr
  · have hrole : t.role = .operator := by simpa [role, hts] using hr
    rcases List.eq_nil_or_concat' ts with rfl | ⟨us, u, rfl⟩
    · exact ⟨t, hts⟩
    · have hrun := h.run
      rw [hts, List.append_assoc] at hrun
      have hfollows : u.Follows t := by simpa using hrun.right_of_append
      rcases hfollows with ⟨-, hplain⟩ | hclosing
      · simp [hrole] at hplain
      · have := ((hc t (by simp [hts])).of_closing hclosing).1
        simp [hrole] at this

/-- A neighbour to the right that is no more than one step away: the element right before it is the other one, or the
    link of a chain with the other one at its end. -/
theorem rightNeighbors_near {tree : Node} {a l r : Address} (h : tree.rightNeighbors a = ⟨some l, some r⟩)
    (hnear : l.length ≤ r.length + 1) :
    ∃ j up, r = (j + 1) :: up ∧ (l = j :: up ∨
      ∃ i, l = i :: j :: up ∧ tree.isChainLink (j :: up) = true ∧ tree.next? l = none) := by
  unfold rightNeighbors at h
  induction a with
  | nil => simp [rightFrom] at h
  | cons i up ih =>
    unfold rightFrom at h
    split at h
    · next right hnext =>
      simp only [Option.getD_none, Neighbors.mk.injEq, Option.some.injEq] at h
      obtain ⟨rfl, rfl⟩ := h
      exact ⟨i, up, next?_eq_some hnext, Or.inl rfl⟩
    · next hnext =>
      cases hlink : tree.isChainLink up with
      | false =>
        simp only [hlink, Bool.false_eq_true, if_false] at h
        exact ih h
      | true =>
        simp only [hlink, if_true] at h
        obtain ⟨rfl, j, upper, rfl, hsuffix⟩ := rightFrom_some h
        have hup : up = j :: upper := by
          refine (hsuffix.eq_of_length_le ?_).symm
          simpa using hnear
        subst hup
        exact ⟨j, upper, rfl, Or.inr ⟨i, rfl, hlink, hnext⟩⟩

/-- Every element above the focus of a spine is found in its tree, with the focus below it. -/
theorem exists_at?_under {n q : Node} {qs : List Node} (hq : q ∈ qs) :
    ∃ a m x, (n.under qs).at? a = some (q.push m) ∧ (q.push m).at? x = some n := by
  induction qs generalizing n with
  | nil => cases hq
  | cons p ps ih =>
    rcases List.mem_cons.mp hq with rfl | hq
    · exact ⟨_, n, [q.children.length], at?_under (q.push n) ps, by simp [at?]⟩
    · obtain ⟨a, m, x, hm, hx⟩ := ih (n := p.push n) hq
      exact ⟨a, m, p.children.length :: x, hm, by simp [at?, hx]⟩

end Node

/-! ### Runs of tokens -/

namespace Spine
variable {ts before rest : List Token} {h : Node} {hs : List Node} {f : Spine}

/-- A run of tokens and the element it builds. -/
structure Run where
  head : Token
  tail : List Token
  /-- What may be taken over by the element that the run is below. -/
  takes : Token → Prop
  /-- The element that the run is below, and those above it, when the run begins. -/
  host : Node
  above : List Node
  /-- What the run has built. -/
  piece : Spine

/-- The run comes after `before` and builds a complete element, which `rest` leaves. -/
structure Run.Of (q : Run) (ts before rest : List Token) : Prop where
  list : ts = before ++ q.head :: (q.tail ++ rest)
  built : Built q.takes before q.head q.tail q.host q.above q.piece
  appended : Appended before q.head q.host q.above
  complete : ¬q.piece.focus.role.expectsMore
  leaves : ∀ u ∈ rest.head?, q.piece.within u = none

/-- Nothing stays inside of a closed element. -/
theorem within_of_closer {n : Node} (hn : n.role = .closer) (u : Token) : within ⟨n, []⟩ u = none := by
  simp [within, host?, hn, Role.expectsMore]

theorem eq_of_complete (hsound : Sound (f.on (h :: hs))) (hx : ¬f.tree.role.expectsMore) : f = ⟨f.tree, []⟩ := by
  obtain ⟨n, ps⟩ := f
  cases ps with
  | nil => rfl
  | cons p ps =>
    obtain ⟨q, hq, htokens⟩ := Node.tokens_under (n := n) (List.cons_ne_nil p ps)
    have hmore := hsound.expecting q (List.mem_append_left _ hq)
    have hrole : (tree ⟨n, p :: ps⟩).role = q.role := by simp only [Node.role, tree, htokens]
    exact absurd (hrole ▸ hmore) hx

/-- A word or an opener stays inside of all but a closed element. -/
theorem of_within_plain {u : Token} (hu : u.role = .atom ∨ u.role = .opener) (h : f.within u = none) :
    f.above = [] ∧ f.focus.role ≠ .atom ∧ ¬f.focus.role.expectsMore := by
  unfold within at h
  split at h
  · cases h
  split at h
  · cases h
  · next hatom =>
    have hafter : ∀ q : Spine, after u q = some (q.append u) := fun q => by
      rcases hu with hu | hu <;> simp [after, hu]
    refine ⟨?_, fun hr => hatom ⟨hu, hr⟩, fun hmore => ?_⟩
    · cases habove : f.above with
      | nil => rfl
      | cons q qs =>
        unfold host? at h
        split at h <;> simp [habove, hafter] at h
    · simp [host?, hmore, hafter] at h

theorem role_of_within {u : Token} (hopen : f.tree.role ≠ .closer) (h : f.within u = none) :
    u.role = .operator ∨ u.role = .closer := by
  by_contra hne
  have hplain : u.role = .atom ∨ u.role = .opener := by cases hr : u.role <;> simp [hr] at hne ⊢
  obtain ⟨habove, hatom, hmore⟩ := of_within_plain hplain h
  rw [tree, habove] at hopen
  change f.focus.role ≠ .closer at hopen
  cases hr : f.focus.role <;> simp [hr, Role.expectsMore] at hatom hmore hopen

/-- What binds as loosely as all elements above a complete focus leaves the piece. -/
theorem within_of_le {u : Token} (hf : f.Piece) (hcomplete : ¬f.focus.role.expectsMore) (hu : u.Classified)
    (hrole : u.role = .operator ∨ u.role = .closer) (hle : ∀ n ∈ f.above, u.priority ≤ n.priority) :
    f.within u = none := by
  have hplain : ¬((u.role = .atom ∨ u.role = .opener) ∧ f.focus.role = .atom) := by
    rcases hrole with h | h <;> simp [h]
  unfold within
  rw [if_neg fun h => hcomplete h.2.2, if_neg hplain]
  obtain ⟨n, _ | ⟨q, qs⟩⟩ := f
  · simp [host?, hcomplete]
  · have hle : ∀ m ∈ q.push n :: qs, u.priority ≤ m.priority := fun m hm => by
      rcases List.mem_cons.mp hm with rfl | hm
      · exact hle q (by simp)
      · exact hle m (by simp [hm])
    have hplace : place? u ⟨q.push n, qs⟩ = none := by simp [place?, looser?_eq_none_iff.mpr hle]
    -- Who waits for a bracket binds more loosely than anything that could leave.
    have hwaiting : waiting? ⟨q.push n, qs⟩ = none := waitingFrom_eq_none_iff.mpr fun m hm => by
      cases hc : m.awaits? with
      | none => rfl
      | some closer =>
        have hzero := ((hf.up m hm).1.of_awaits? hc).2
        have hpos := hu.priority_pos (hu.closerOf?_eq_none (by rcases hrole with h | h <;> simp [h]))
        have := hle m hm
        omega
    rcases hrole with h | h <;> simp [host?, hcomplete, after, h, hwaiting, hplace]

variable (hts : ∀ t ∈ ts, t.Classified) (ho : ts.Pairwise Token.Before) (hpos : ∀ t ∈ ts, t.span.start < t.span.stop)
include hts ho hpos

/-- A token after an element that is complete comes after its run. -/
theorem Run.Of.exists_rest {q : Run} (hr : q.Of ts before rest) {t : Token} (ht : t ∈ ts)
    (hafter : ∀ u ∈ q.piece.tree.allTokens, u.Before t) : ∃ mid after, rest = mid ++ t :: after := by
  obtain ⟨e, hfocus, -, he⟩ := hr.built.exists_last hts ho hpos hr.list
  have he := he hr.complete
  have hself : ¬t.Before t := Nat.not_le.mpr (hpos t ht)
  have hasymm : ∀ {u : Token}, u ∈ ts → u.Before t → ¬t.Before u := by
    intro u hu hut htu
    have := hpos u hu
    unfold Token.Before at hut htu hself
    omega
  have hordered := ho
  rw [hr.list] at hordered ht
  obtain ⟨-, hlater, hbefore⟩ := List.pairwise_append.mp hordered
  rw [← List.cons_append] at hlater
  obtain ⟨hrun, -, -⟩ := List.pairwise_append.mp hlater
  have hs := hafter q.head (hr.built.notMem_before ho hpos hr.list).1
  have he' : e ∈ q.piece.tree.allTokens := Node.mem_allTokens_under (Node.mem_allTokens_of_mem_tokens
    (List.mem_of_getLast? hfocus))
  rcases List.mem_append.mp ht with h | h
  · exact absurd (hbefore t h q.head (by simp)) (hasymm (by simp [hr.list]) hs)
  · rw [← List.cons_append] at h
    rcases List.mem_append.mp h with h | h
    · exfalso
      obtain ⟨init, hinit⟩ := List.getLast?_eq_some_iff.mp he
      rw [hinit] at h hrun
      have hmem : e ∈ ts := by
        have : e ∈ q.head :: q.tail := List.mem_of_getLast? he
        rw [hr.list]
        simp only [List.mem_append, List.mem_cons] at this ⊢
        exact Or.inr (this.imp_right Or.inl)
      rcases List.mem_append.mp h with h | h
      · exact hasymm hmem (hafter e he') ((List.pairwise_append.mp hrun).2.2 t h e (by simp))
      · exact hself (List.mem_singleton.mp h ▸ hafter e he')
    · exact List.append_of_mem h

end Spine

/-! ### Edges of an element -/

namespace Node

theorem Ordered.bound_stop_eq {n : Node} (h : n.Ordered) (hne : n.tokens ≠ [])
    (hpos : ∀ t ∈ n.allTokens, t.span.start < t.span.stop) {e : Token} (he : e ∈ n.allTokens)
    (hlast : ∀ u ∈ n.allTokens, u = e ∨ u.Before e) : n.bound.stop = e.span.stop := by
  obtain ⟨⟨t, ht, hstop⟩, hgreatest⟩ := h.bound_stop hne hpos
  have hle := hgreatest e he
  rcases hlast t ht with rfl | hbefore
  · exact hstop.symm
  · have := hpos e he
    unfold Token.Before at hbefore
    omega

theorem Ordered.bound_start_eq {n : Node} (h : n.Ordered) (hne : n.tokens ≠ [])
    (hpos : ∀ t ∈ n.allTokens, t.span.start < t.span.stop) {s : Token} (hs : s ∈ n.allTokens)
    (hfirst : ∀ u ∈ n.allTokens, u = s ∨ s.Before u) : n.bound.start = s.span.start := by
  obtain ⟨⟨t, ht, hstart⟩, hleast⟩ := h.bound_start hne hpos
  have hle := hleast s hs
  rcases hfirst t ht with rfl | hbefore
  · exact hstart.symm
  · have := hpos s hs
    unfold Token.Before at hbefore
    omega

/-- What holds of all elements on the right edge of the element that expect more. -/
def OnEdge (y : Node) (P : Node → Prop) : Prop :=
  ∀ a ∈ y.addresses [], ∀ n ∈ y.at? a, n.role.expectsMore → n.bound.stop = y.bound.stop → P n

instance (y : Node) (P : Node → Prop) [DecidablePred P] : Decidable (y.OnEdge P) :=
  inferInstanceAs (Decidable (∀ a ∈ y.addresses [], ∀ n ∈ y.at? a, n.role.expectsMore →
    n.bound.stop = y.bound.stop → P n))

/-- Nothing is left open at the end of the element for what binds as loosely as `priority`: who expects more there binds
    at least as tightly, and has something after it. -/
def Ends (y : Node) (priority : Int) : Prop := y.OnEdge fun n => n.span.stop < n.bound.stop ∧ priority ≤ n.priority

instance (y : Node) (priority : Int) : Decidable (y.Ends priority) :=
  inferInstanceAs (Decidable (y.OnEdge _))

end Node

/-- When two neighbours `x` and `y`, the second one a child of `m`, can change places and stay what they are. Operands
    do so when nothing is left open at their ends, and the first one starts with a word or an opener and has only single
    elements below it on its right edge. Two pairs of brackets always do. Two statements, each with its end, do so when
    they start with a word or an opener and after the start of the element they are in. -/
inductive Node.Interchange (m x y : Node) (siblings : Prop) : Prop
  | operands (operator : m.role = .operator) (starts : x.role = .atom ∨ x.role = .opener) (unclosed : y.role ≠ .closer)
      (single : x.OnEdge fun n => n.children.length = 1) (left : x.Ends m.priority) (right : y.Ends m.priority)
  | groups (left : x.isGroup = true) (right : y.isGroup = true)
  | stops (siblings : siblings) (left : x.role = .closer) (right : y.role = .closer)
      (inside : m.tokens = [] ∨ m.span.start < x.bound.start)
      (first : ∃ t ∈ x.allTokens, t.span.start = x.bound.start ∧ (t.role = .atom ∨ t.role = .opener))

theorem Node.isGroup_role {n : Node} (h : n.isGroup = true) : n.role = .closer := by
  simp only [isGroup, Bool.and_eq_true, decide_eq_true_eq] at h
  exact h.1

theorem Node.Interchange.role_iff {m x y : Node} {siblings : Prop} (h : m.Interchange x y siblings) :
    x.role = .closer ↔ y.role = .closer := by
  cases h with
  | operands operator starts unclosed single left right => rcases starts with hr | hr <;> simp [hr, unclosed]
  | groups left right => simp [isGroup_role left, isGroup_role right]
  | stops siblings left right inside first => simp [left, right]

theorem Spine.Built.appended {w : Token → Prop} {before us : List Token} {t : Token} {p : Node} {ps : List Node}
    {g : Spine} (hb : Built w before t us p ps g) (hne : p.children ≠ []) : Appended before t p ps :=
  hb.placed.resolve_right fun h => hne h.2

/-- The run of a closed element. -/
theorem Spine.Built.run_of_closer {w : Token → Prop} {ts before us rest : List Token} {t : Token} {p : Node}
    {ps : List Node} {g : Spine} (hb : Built w before t us p ps g) (hts : ∀ t ∈ ts, t.Classified)
    (hlist : ts = before ++ t :: (us ++ rest)) (happended : Appended before t p ps) (hrole : g.tree.role = .closer) :
    Run.Of ⟨t, us, w, p, ps, ⟨g.tree, []⟩⟩ ts before rest := by
  have hcomplete : ¬g.tree.role.expectsMore := by simp [hrole, Role.expectsMore]
  have hg := eq_of_complete (hb.sound hts hlist) hcomplete
  exact ⟨hlist, hg ▸ hb, happended, hcomplete, fun u _ => within_of_closer hrole u⟩

/-- A piece below an operator is no link of the operator's chain. -/
theorem Spine.Built.priority_ne {w : Token → Prop} {before us : List Token} {t : Token} {p : Node} {ps : List Node}
    {g : Spine} (hb : Built w before t us p ps g) (happended : Appended before t p ps) (hheaded : g.tree.Headed)
    (hg : g.tree.Classified) (hp : p.Classified) (hrole : p.role = .operator) : g.tree.priority ≠ p.priority := by
  intro heq
  have hg' : g.tree.role = .operator := by
    by_contra hne
    exact hg.priority_ne hp hne hrole heq
  obtain ⟨z, hz⟩ := hheaded.tokens_of_operator hg hg'
  obtain ⟨z', hz', hstart⟩ := hb.grows.head?_tokens (x := t) rfl
  obtain rfl : z = z' := by simpa [hz] using hz'
  rcases hstart with rfl | ⟨-, hadmits⟩
  · have hz' : z.role = .operator := by simpa [Node.role, hz] using hg'
    rcases happended.role with h | h <;> simp [h] at hz'
  · have : p.priority < g.tree.priority := by simpa [Node.priority, hz] using hadmits.2.1
    omega

theorem Spine.Built.tokens_ne_nil {w : Token → Prop} {before us : List Token} {t : Token} {p : Node} {ps : List Node}
    {g : Spine} (hb : Built w before t us p ps g) : g.tree.tokens ≠ [] := by
  obtain ⟨z, hz, -⟩ := hb.grows.head?_tokens (x := t) rfl
  exact fun hnil => by simp [hnil] at hz

section Bound
variable {w : Token → Prop} {ts before us rest : List Token} {t : Token} {p : Node} {ps : List Node}
  {g : Spine} (hb : Spine.Built w before t us p ps g) (hts : ∀ t ∈ ts, t.Classified) (ho : ts.Pairwise Token.Before)
  (hpos : ∀ t ∈ ts, t.span.start < t.span.stop) (hlist : ts = before ++ t :: (us ++ rest))
include hb hts ho hpos hlist

/-- A complete element reaches from the start of its run to the end. -/
theorem Spine.Built.exists_bound (hcomplete : ¬g.focus.role.expectsMore) :
    ∃ e, (t :: us).getLast? = some e ∧ g.focus.tokens.getLast? = some e ∧
      g.tree.bound = ⟨t.span.start, e.span.stop⟩ := by
  obtain ⟨e, he, hlast, hrun⟩ := hb.exists_last hts ho hpos hlist
  have hordered := hb.ordered hts ho hlist
  have hsize : ∀ u ∈ g.tree.allTokens, u.span.start < u.span.stop := fun u hu => hpos u (hb.mem_list hlist hu)
  have hfirst : ∀ u ∈ g.tree.allTokens, u = t ∨ t.Before u := fun u hu => by
    have hlater := (List.pairwise_append.mp (hlist ▸ ho)).2.1
    refine (List.mem_cons.mp (hb.mem_run hu)).imp_right fun hu => ?_
    exact (List.pairwise_cons.mp hlater).1 u (List.mem_append_left rest hu)
  have hstart := hordered.bound_start_eq hb.tokens_ne_nil hsize (hb.notMem_before ho hpos hlist).1 hfirst
  have hstop := hordered.bound_stop_eq hb.tokens_ne_nil hsize
    (Node.mem_allTokens_under (Node.mem_allTokens_of_mem_tokens (List.mem_of_getLast? he))) hlast
  exact ⟨e, hrun hcomplete, he, by rw [← hstart, ← hstop]⟩

/-- All elements from the focus of a piece up to its element end with the last token. -/
theorem Spine.Built.exists_stop : ∃ e, g.focus.tokens.getLast? = some e ∧
    ∀ {a : Address} {n : Node}, g.tree.at? a = some n → n.tokens ≠ [] → (∃ x, n.at? x = some g.focus) →
      n.bound.stop = e.span.stop := by
  have hordered := hb.ordered hts ho hlist
  have hsize : ∀ u ∈ g.tree.allTokens, u.span.start < u.span.stop := fun u hu => hpos u (hb.mem_list hlist hu)
  obtain ⟨e, he, hlast, -⟩ := hb.exists_last hts ho hpos hlist
  refine ⟨e, he, fun hn hne ⟨x, hx⟩ => ?_⟩
  have hmem := Node.mem_allTokens_of_at? hx (Node.mem_allTokens_of_mem_tokens (List.mem_of_getLast? he))
  exact (hordered.at? hn).1.bound_stop_eq hne (fun u hu => hsize u (Node.mem_allTokens_of_at? hn hu)) hmem
    fun u hu => hlast u (Node.mem_allTokens_of_at? hn hu)

/-- What holds on the right edge of a piece holds of its focus, if that expects more, and of all elements above it. -/
theorem Spine.Built.of_edge {P : Node → Prop} (hedge : g.tree.OnEdge P) :
    (g.focus.role.expectsMore → P g.focus) ∧ ∀ n ∈ g.above, ∃ m, P (n.push m) := by
  obtain ⟨e, he, hstop⟩ := hb.exists_stop hts ho hpos hlist
  have hfocus : g.tree.at? (Address.below g.above) = some g.focus := Node.at?_under g.focus g.above
  have htop : g.tree.bound.stop = e.span.stop := hstop (a := []) rfl hb.tokens_ne_nil ⟨_, hfocus⟩
  have hend : ∀ {a : Address} {n : Node}, g.tree.at? a = some n → n.tokens ≠ [] → (∃ x, n.at? x = some g.focus) →
      n.role.expectsMore → P n := fun hn hne hx hmore =>
    hedge _ (Node.mem_addresses_nil.mpr (by simp [hn])) _ hn hmore ((hstop hn hne hx).trans htop.symm)
  refine ⟨hend hfocus (fun hnil => by simp [hnil] at he) ⟨[], rfl⟩, fun n hn => ?_⟩
  obtain ⟨a, m, x, hm, hx⟩ := Node.exists_at?_under (n := g.focus) hn
  refine ⟨m, hend hm (hb.piece n (by simp [hn])).2 ⟨x, hx⟩ ?_⟩
  simpa [Node.role] using (hb.sound hts hlist).expecting n (List.mem_append_left _ hn)

/-- Nothing is open at the end of a piece whose element ends. -/
theorem Spine.Built.of_ends {priority : Int} (hends : g.tree.Ends priority) :
    ¬g.focus.role.expectsMore ∧ ∀ n ∈ g.above, priority ≤ n.priority := by
  obtain ⟨hfocus, habove⟩ := hb.of_edge hts ho hpos hlist hends
  refine ⟨fun hmore => ?_, fun n hn => ?_⟩
  · obtain ⟨e, he, hstop⟩ := hb.exists_stop hts ho hpos hlist
    have hbound := hstop (Node.at?_under g.focus g.above) (fun hnil => by simp [hnil] at he) ⟨[], rfl⟩
    have hspan : g.focus.span.stop = e.span.stop := by simp [Node.span, he]
    have := (hfocus hmore).1
    omega
  · obtain ⟨m, -, hle⟩ := habove n hn
    simpa [Node.priority] using hle

end Bound

section Element
variable {ts : List Token} (hts : ∀ t ∈ ts, t.Classified) (ho : ts.Pairwise Token.Before)
  (hpos : ∀ t ∈ ts, t.span.start < t.span.stop)
include hts ho hpos

theorem Node.exists_first {a : Address} {n : Node} (hn : (Spine.ofTokens ts).tree.at? a = some n) (hne : a ≠ []) :
    ∃ t ∈ ts, t ∈ n.allTokens ∧ t.span.start = n.bound.start ∧ ∀ u ∈ n.allTokens, u = t ∨ t.Before u := by
  have hmem : ∀ u ∈ n.allTokens, u ∈ ts := fun u hu => Spine.mem_of_mem_ofTokens hts u (mem_allTokens_of_at? hn hu)
  obtain ⟨hordered, hfilled⟩ := (Spine.ordered_ofTokens hts ho).at? hn
  obtain ⟨⟨t, ht, hstart⟩, hleast⟩ := hordered.bound_start (hfilled hne) fun u hu => hpos u (hmem u hu)
  refine ⟨t, hmem t ht, ht, hstart, fun u hu => ?_⟩
  rcases Token.apart_of_mem ho (hmem u hu) (hmem t ht) with h | h | h
  · exact Or.inl h
  · have := hleast u hu
    have := hpos u (hmem u hu)
    unfold Token.Before at h
    omega
  · exact Or.inr h

/-- The first token of an element that does not start with an operand is its own. -/
theorem Node.head_of_first {a : Address} {n : Node} (hn : (Spine.ofTokens ts).tree.at? a = some n) (hne : a ≠ [])
    (h : n.role = .atom ∨ n.role = .opener ∨ n.isGroup = true) {t : Token} (ht : t ∈ n.allTokens)
    (hfirst : ∀ u ∈ n.allTokens, u = t ∨ t.Before u) : t ∈ n.tokens ∧ (t.role = .atom ∨ t.role = .opener) := by
  have hroom : ∀ u ∈ n.allTokens, u.span.start < u.span.stop := fun u hu =>
    hpos u (Spine.mem_of_mem_ofTokens hts u (mem_allTokens_of_at? hn hu))
  obtain ⟨hordered, hfilled⟩ := (Spine.ordered_ofTokens hts ho).at? hn
  obtain ⟨s, hs, hplain, hleast⟩ := exists_head hordered ((Spine.headed_ofTokens hts ho).at? hn)
    (classified_of_at? hts hn) ((or_assoc.mpr h).imp_left fun h => ⟨h, hfilled hne⟩)
  have hs := List.mem_of_mem_head? hs
  have hs' := mem_allTokens_of_mem_tokens hs
  obtain rfl : t = s := by
    rcases hleast t ht with h | hst
    · exact h
    · rcases hfirst s hs' with h | hts
      · exact h.symm
      · have := hroom s hs'
        have := hroom t ht
        unfold Token.Before at hst hts
        omega
  exact ⟨hs, hplain⟩

omit hts in
theorem Token.notMem_of_first {before rest : List Token} {t : Token} (hlist : ts = before ++ t :: rest) {n : Node}
    (hfirst : ∀ u ∈ n.allTokens, u = t ∨ t.Before u) : ∀ u ∈ before, u ∉ n.allTokens := by
  intro u hu hmem
  have hordered := ho
  rw [hlist] at hordered
  have hut : u.Before t := (List.pairwise_append.mp hordered).2.2 u hu t (by simp)
  have hu := hpos u (by simp [hlist, hu])
  have ht := hpos t (by simp [hlist])
  unfold Token.Before at hut hfirst
  rcases hfirst u hmem with rfl | htu <;> omega

omit hts in
theorem Token.mem_of_start_lt {before rest : List Token} {t u : Token} (hlist : ts = before ++ t :: rest) (hu : u ∈ ts)
    (hlt : u.span.start < t.span.start) : u ∈ before := by
  rw [hlist] at hu ho
  rcases List.mem_append.mp hu with h | h
  · exact h
  · rcases List.mem_cons.mp h with rfl | h
    · exact absurd hlt (Nat.lt_irrefl _)
    · have hbefore : t.span.stop ≤ u.span.start := (List.pairwise_cons.mp (List.pairwise_append.mp ho).2.1).1 u h
      have := hpos t (by simp [hlist])
      omega

section Run
variable {i : Nat} {up : Address} {x m : Node} (hx : (Spine.ofTokens ts).tree.at? (i :: up) = some x)
  (hm : (Spine.ofTokens ts).tree.at? up = some m)
include hx hm

section Split
variable {before rest : List Token} {t : Token} (hlist : ts = before ++ t :: rest)
  (hfirst : ∀ u ∈ x.allTokens, u = t ∨ t.Before u)
include hlist hfirst

/-- The run of an element that starts with a token of its own. -/
theorem Spine.exists_built_of_head (ht : t ∈ x.tokens) (hplain : t.role = .atom ∨ t.role = .opener) :
    ∃ us after h hs f, rest = us ++ after ∧ Built (fun _ => False) before t us h hs f ∧ f.tree = x ∧
      Appended before t h hs ∧ (∀ u ∈ after.head?, f.within u = none) ∧
      (i = h.children.length ∧ (h.push x).Extends m ∧ (∀ u ∈ after.head?, ¬h.Admits u) ∨
        i = 0 ∧ ∃ u v, after.head? = some u ∧ h.Admits u ∧ u.priority ≤ v.priority ∧ Node.Extends ⟨[v], [x]⟩ m) := by
  have hbefore := Token.notMem_of_first ho hpos hlist hfirst
  obtain ⟨us, after, h, hs, f, rfl, hb, hleave⟩ := exists_built hts ho hpos hlist hx
    (Node.mem_allTokens_of_mem_tokens ht) hbefore fun _ => False
  have hleave : ∀ u ∈ after.head?, f.within u = none := fun u hu => (hleave u hu).1
  obtain ⟨rfl, hparent⟩ := hb.of_owner hts ho hpos hlist hx hm hleave (fun _ h => h) ht
  have happended : Appended before t h hs := hb.placed.resolve_right fun h => by
    rcases hplain with hr | hr <;> simp [hr] at h
  exact ⟨us, after, h, hs, f, rfl, hb, rfl, happended, hleave, hparent⟩

/-- The run of an element whose parent has an earlier token. -/
theorem Spine.exists_built_of_parent (ht : t ∈ x.allTokens) (hparent : up = [] ∨ ∃ u ∈ before, u ∈ m.allTokens) :
    ∃ us after h hs f, rest = us ++ after ∧ Built (fun _ => True) before t us h hs f ∧ f.tree = x ∧
      i = h.children.length ∧ (h.push x).Extends m ∧ ∀ u ∈ after.head?, f.within u = none ∧ ¬h.Admits u := by
  have hbefore := Token.notMem_of_first ho hpos hlist hfirst
  obtain ⟨us, after, h, hs, f, rfl, hb, hleave⟩ := exists_built hts ho hpos hlist hx ht hbefore fun _ => True
  obtain ⟨rfl, hi, hgrown, hadmits⟩ := hb.of_parent hts ho hpos hlist hx hm hleave (fun _ => trivial) ht hbefore hparent
  exact ⟨us, after, h, hs, f, rfl, hb, rfl, hi, hgrown, fun u hu => ⟨(hleave u hu).1, hadmits u hu⟩⟩

end Split
end Run

/-- Nothing is below words. -/
theorem Node.children_of_atom {a : Address} {n : Node} (hn : (Spine.ofTokens ts).tree.at? a = some n)
    (hrole : n.role = .atom) : n.children = [] := by
  by_contra hne
  obtain ⟨c, hc⟩ := List.exists_mem_of_ne_nil _ hne
  obtain ⟨i, hi⟩ := List.getElem?_of_mem hc
  have hchild : (Spine.ofTokens ts).tree.at? (i :: a) = some c := by
    rw [Node.at?, hn]
    exact hi
  obtain ⟨t, hmem, ht, -, hfirst⟩ := Node.exists_first hts ho hpos hchild (by simp)
  obtain ⟨before, rest, hlist⟩ := List.append_of_mem hmem
  obtain ⟨w, hw, hword⟩ : ∃ w ∈ n.tokens, w.role = .atom := by
    cases hlast : n.tokens.getLast? with
    | none => simp [role, hlast] at hrole
    | some w => exact ⟨w, List.mem_of_getLast? hlast, by simpa [role, hlast] using hrole⟩
  have hwn := mem_allTokens_of_mem_tokens hw
  have hwts : w ∈ ts := Spine.mem_of_mem_ofTokens hts w (mem_allTokens_of_at? hn hwn)
  have hlt : w.span.start < t.span.start := Nat.lt_of_lt_of_le (hpos w hwts)
    (((Spine.headed_ofTokens hts ho).at? hn).leads w hw (Or.inl hword) c hc t ht)
  obtain ⟨us, after, h, hs, f, rfl, hb, -, -, hgrown, -⟩ :=
    Spine.exists_built_of_parent hts ho hpos hchild hn hlist hfirst ht
      (Or.inr ⟨w, Token.mem_of_start_lt ho hpos hlist hwts hlt, hwn⟩)
  -- The parent expected more when the child came.
  have htokens : n.tokens = h.tokens := hgrown.tokens_eq (by simp [hrole])
  have hmore := (hb.sound hts hlist).expecting h (by simp [Spine.on])
  rw [show h.role = .atom by simpa [role, htokens] using hrole] at hmore
  simp [Role.expectsMore] at hmore

end Element

/-! ### Two runs -/

/-- The runs of two neighbours that may change places: each can grow where the other one did, and what comes after one
    of them leaves the other one as well. The first one has only single elements on its right edge. -/
structure Spine.Crossing (ts : List Token) where
  before : List Token
  first : Run
  mid : List Token
  second : Run
  after : List Token
  /-- A token of the first element itself, which tells it from all others. -/
  key : Token
  /-- The child before the second element: the first one, or a link of the same chain that ends with it. -/
  beside : Node
  first_of : first.Of ts before (mid ++ second.head :: (second.tail ++ after))
  second_of : second.Of ts (before ++ first.head :: (first.tail ++ mid)) after
  single : ∀ n ∈ first.piece.above, n.children = []
  key_mem : key ∈ first.piece.tree.tokens
  admits_first : ∀ u ∈ first.tail, first.takes u → first.host.Admits u → second.host.Admits u
  admits_second : ∀ u ∈ second.tail, second.takes u → second.host.Admits u → first.host.Admits u
  leaves : ∀ u ∈ (mid ++ [first.head]).head?, second.piece.within u = none
  after_leaves : ∀ u ∈ after.head?, first.piece.within u = none ∧ ¬second.host.Admits u
  last : second.host.children.getLast? = some beside
  link : beside = first.piece.tree ∧
      (second.host.role = .operator → second.piece.tree.priority ≠ second.host.priority) ∨
    second.host.role = .operator ∧ beside.priority = second.host.priority ∧ key ∉ beside.tokens ∧
      beside.children.getLast? = some first.piece.tree

section Neighbors
variable {ts : List Token} (hts : ∀ t ∈ ts, t.Classified) (ho : ts.Pairwise Token.Before)
  (hpos : ∀ t ∈ ts, t.span.start < t.span.stop)
include hts ho hpos

variable {l up : Address} {j : Nat} {x y m v : Node} (hx : (Spine.ofTokens ts).tree.at? l = some x)
  (hy : (Spine.ofTokens ts).tree.at? ((j + 1) :: up) = some y) (hm : (Spine.ofTokens ts).tree.at? up = some m)
  (hv : (Spine.ofTokens ts).tree.at? (j :: up) = some v)
  (hl : l = j :: up ∨ ∃ i, l = i :: j :: up ∧ (Spine.ofTokens ts).tree.isChainLink (j :: up) = true ∧
    (Spine.ofTokens ts).tree.next? l = none)
include hx hy hm hv hl

omit hy in
/-- The first of two neighbours comes right before the second one, or it is the last element of the link that does. -/
theorem Spine.link_of_extends {p : Node} {k : Token} (hgrown : (p.push y).Extends m) (hlen : j + 1 = p.children.length)
    (hk : k ∈ x.tokens) (hpriority : p.role = .operator → y.priority ≠ p.priority) :
    p.children.getLast? = some v ∧ (v = x ∧ (p.role = .operator → y.priority ≠ p.priority) ∨
      p.role = .operator ∧ v.priority = p.priority ∧ k ∉ v.tokens ∧ v.children.getLast? = some x) := by
  have hchild : m.children[j]? = some v := by
    rw [Node.at?, hm] at hv
    exact hv
  have hlast : p.children.getLast? = some v := by
    obtain ⟨cs, hcs⟩ := hgrown.1
    rw [List.getLast?_eq_getElem?, ← hlen, Nat.add_sub_cancel, ← hchild, ← hcs]
    simp only [Node.push_children, List.append_assoc]
    rw [List.getElem?_append_left (by omega)]
  refine ⟨hlast, ?_⟩
  rcases hl with rfl | ⟨i, rfl, hlink, hnext⟩
  · exact Or.inl ⟨Option.some.inj (hv.symm.trans hx), hpriority⟩
  · have hlink : v.role = .operator ∧ v.priority = m.priority := by
      simpa [Node.isChainLink, hv, hm] using hlink
    have hmrole : m.role = .operator := by
      rw [(Node.classified_of_at? hts hm).operator_iff, ← hlink.2]
      exact (Node.classified_of_at? hts hv).operator_iff.mp hlink.1
    have htokens : m.tokens = p.tokens := hgrown.tokens_eq (by simp [hmrole])
    have hrole : p.role = .operator := by simpa [Node.role, htokens] using hmrole
    have hsame : m.priority = p.priority := by simp [Node.priority, htokens]
    refine Or.inr ⟨hrole, hlink.2.trans hsame, fun hkv => ?_, ?_⟩
    · have := congrArg List.length (Node.address_eq hts ho hpos hx hv hk hkv)
      simp at this
    · have hi : v.children[i]? = some x := by
        rw [Node.at?, hv] at hx
        exact hx
      have hnone : v.children[i + 1]? = none := by
        have hat : (ofTokens ts).tree.at? ((i + 1) :: j :: up) = v.children[i + 1]? := by
          rw [Node.at?, hv]
          rfl
        rw [Node.next?, hat] at hnext
        by_contra hne
        rw [if_pos (Option.isSome_iff_ne_none.mpr hne)] at hnext
        cases hnext
      have hlt := (List.getElem?_eq_some_iff.mp hi).1
      have hge := List.getElem?_eq_none_iff.mp hnone
      rw [List.getLast?_eq_getElem?, show v.children.length - 1 = i by omega, hi]

omit hv in
/-- The second of two neighbours comes after the run of the first one. -/
theorem Spine.Run.Of.exists_next {q : Run} {before rest : List Token} (hrun : q.Of ts before rest)
    (hq : q.piece.tree = x) :
    ∃ t mid after, rest = mid ++ t :: after ∧ ts = (before ++ q.head :: (q.tail ++ mid)) ++ t :: after ∧
      t ∈ y.allTokens ∧ (∀ u ∈ y.allTokens, u = t ∨ t.Before u) ∧
      ∃ u ∈ before ++ q.head :: (q.tail ++ mid), u ∈ m.allTokens := by
  have hbeside : l.Beside ((j + 1) :: up) := by
    refine ⟨j, up, rfl, ?_⟩
    rcases hl with rfl | ⟨i, rfl, -⟩
    · exact List.suffix_refl _
    · exact List.suffix_cons _ _
  have hbefore : x.Before y := (ordered_ofTokens hts ho).before_of_beside hbeside hx hy
  subst hq
  obtain ⟨t, hmem, ht, -, hfirst⟩ := Node.exists_first hts ho hpos hy (by simp)
  obtain ⟨mid, after, rfl⟩ := hrun.exists_rest hts ho hpos hmem fun u hu => hbefore u hu t ht
  refine ⟨t, mid, after, rfl, by simp [hrun.list], ht, hfirst, q.head, by simp, ?_⟩
  -- The first token of the first neighbour lies below the parent of the second one.
  have hs : q.head ∈ q.piece.tree.allTokens := (hrun.built.notMem_before ho hpos hrun.list).1
  obtain ⟨i, a, rfl, ha⟩ : ∃ i a, l = i :: a ∧ up <:+ i :: a := by
    rcases hl with rfl | ⟨i, rfl, -⟩
    · exact ⟨j, up, rfl, List.suffix_cons _ _⟩
    · exact ⟨i, j :: up, rfl, (List.suffix_cons _ _).trans (List.suffix_cons _ _)⟩
  obtain ⟨b, hb⟩ := ha
  rw [← hb, Node.at?_append, hm] at hx
  exact Node.mem_allTokens_of_at? hx hs

omit hts ho hpos hx hy in
/-- Neighbours below an operator are operands of operators that bind alike. -/
theorem Spine.exists_parent : ∃ i a n, l = i :: a ∧ (ofTokens ts).tree.at? a = some n ∧
    (m.role = .operator → n.role = .operator ∧ n.priority = m.priority) := by
  rcases hl with rfl | ⟨i, rfl, hlink, -⟩
  · exact ⟨j, up, m, rfl, hm, fun h => ⟨h, rfl⟩⟩
  · have hlink : v.role = .operator ∧ v.priority = m.priority := by
      simpa [Node.isChainLink, hv, hm] using hlink
    exact ⟨i, j :: up, v, rfl, hv, fun _ => hlink⟩

omit hts ho hpos hx hy hm hv hl in
/-- What comes after an operand is no tighter than the operator. -/
theorem Spine.Run.Of.exists_head_of_operand {q : Run} {before rest : List Token} {n : Node} {i : Nat}
    (hrun : q.Of ts before rest) (hne : rest ≠ []) (hopen : q.piece.tree.role ≠ .closer)
    (operator : n.role = .operator) (hn : n.Classified)
    (hparent : i = q.host.children.length ∧ (q.host.push q.piece.tree).Extends n ∧
        (∀ u ∈ rest.head?, ¬q.host.Admits u) ∨
      i = 0 ∧ ∃ u v, rest.head? = some u ∧ q.host.Admits u ∧ u.priority ≤ v.priority ∧
        Node.Extends ⟨[v], [q.piece.tree]⟩ n) :
    ∃ u, rest.head? = some u ∧ (u.role = .operator ∨ u.role = .closer) ∧ u.priority ≤ n.priority ∧
      q.host.priority ≤ n.priority := by
  rcases hparent with ⟨-, hgrown, hadmits⟩ | ⟨-, u, z, hu, hadmits, hle, hgrown⟩
  · obtain ⟨u, rest, rfl⟩ := List.exists_cons_of_ne_nil hne
    have hrole := role_of_within hopen (hrun.leaves u (by simp))
    have htokens : n.tokens = q.host.tokens := hgrown.tokens_eq (by simp [operator])
    have hpriority : n.priority = q.host.priority := by simp [Node.priority, htokens]
    have hawaits : q.host.awaits? = none := by
      have := hn.awaits?_eq_none (by simp [operator])
      simpa [Node.awaits?, htokens] using this
    refine ⟨u, rfl, hrole, Int.not_lt.mp fun hlt => ?_, Int.le_of_eq hpriority.symm⟩
    exact hadmits u (by simp) ⟨hrole, hpriority ▸ hlt, by simp [hawaits]⟩
  · have htokens : n.tokens = [z] := hgrown.tokens_eq (by simp [operator])
    have hpriority : n.priority = z.priority := by simp [Node.priority, htokens]
    exact ⟨u, hu, hadmits.1, hpriority ▸ hle, hpriority ▸ Int.le_trans (Int.le_of_lt hadmits.2.1) hle⟩

/-- Two operands cross. -/
theorem Spine.exists_crossing_of_operands (operator : m.role = .operator)
    (starts : x.role = .atom ∨ x.role = .opener) (unclosed : y.role ≠ .closer)
    (single : x.OnEdge fun n => n.children.length = 1) (left : x.Ends m.priority) (right : y.Ends m.priority) :
    ∃ c : Crossing ts, c.first.piece.tree = x ∧ c.second.piece.tree = y := by
  have hclassified : ∀ {a : Address} {n : Node}, (ofTokens ts).tree.at? a = some n → n.Classified :=
    Node.classified_of_at? hts
  obtain ⟨i, a, n, rfl, hn, hparents⟩ := exists_parent hm hv hl
  obtain ⟨hnrole, hnpriority⟩ := hparents operator
  obtain ⟨s, hsts, hsx, -, hfirst⟩ := Node.exists_first hts ho hpos hx (by simp)
  obtain ⟨hsx, hplain⟩ := Node.head_of_first hts ho hpos hx (by simp) (or_assoc.mp (Or.inl starts)) hsx hfirst
  obtain ⟨before, rest, hlist⟩ := List.append_of_mem hsts
  obtain ⟨us, rest, h, hs, f, rfl, hbuilt, rfl, hplace, hleaves, hparent⟩ :=
    exists_built_of_head hts ho hpos hx hn hlist hfirst hsx hplain
  have hopen : f.tree.role ≠ .closer := fun h => by rcases starts with hr | hr <;> simp [hr] at h
  obtain ⟨hcomplete, hedge⟩ := hbuilt.of_ends hts ho hpos hlist left
  have hrun : Run.Of ⟨s, us, fun _ => False, h, hs, f⟩ ts before rest := ⟨hlist, hbuilt, hplace, hcomplete, hleaves⟩
  obtain ⟨t, mid, after, rfl, hlist', ht, hfirst', hbelow⟩ := hrun.exists_next hts ho hpos hx hy hm hl rfl
  obtain ⟨vs, after, p, ps, g, rfl, hb, rfl, hlen, hgrown, hleave⟩ := exists_built_of_parent hts ho hpos hy hm hlist'
    hfirst' ht (Or.inr hbelow)
  have happended := hb.appended (List.ne_nil_of_length_pos (by omega))
  obtain ⟨hcomplete', hedge'⟩ := hb.of_ends hts ho hpos hlist' right
  have htokens : m.tokens = p.tokens := hgrown.tokens_eq (by simp [operator])
  have hpriority : m.priority = p.priority := by simp [Node.priority, htokens]
  have hp : p.Classified := fun u hu => hclassified hm u (htokens ▸ hu)
  have hprole : p.role = .operator := by simpa [Node.role, htokens] using operator
  obtain ⟨u, hu, hurole, hule, hhle⟩ := hrun.exists_head_of_operand (by simp) hopen hnrole (hclassified hn) hparent
  rw [hnpriority] at hule hhle
  have hmid : mid.head? = some u := by
    cases mid with
    | nil =>
      obtain rfl : t = u := by simpa using hu
      rcases happended.role with h | h <;> simp [h] at hurole
    | cons => exact hu
  obtain ⟨hlast, hlink⟩ := link_of_extends hts ho hpos hx hm hv hl hgrown hlen hsx
    (hb.priority_ne happended ((headed_ofTokens hts ho).at? hy) (hclassified hy) hp)
  have hsecond : Run.Of ⟨t, vs, fun _ => True, p, ps, g⟩ ts (before ++ s :: (us ++ mid)) after :=
    ⟨hlist', hb, happended, hcomplete', fun u hu => (hleave u hu).1⟩
  refine ⟨{
    before, mid, after, key := s, beside := v, first_of := hrun, second_of := hsecond, key_mem := hsx, last := hlast
    first := ⟨s, us, fun _ => False, h, hs, f⟩
    second := ⟨t, vs, fun _ => True, p, ps, g⟩
    link := hlink
    single := fun n hn => ?_
    admits_first := by simp
    admits_second := fun u hu _ hadmits => ?_
    leaves := fun u' hu' => ?_
    after_leaves := fun u hu => ⟨?_, (hleave u hu).2⟩ }, rfl, rfl⟩
  · obtain ⟨m, hlen⟩ := (hbuilt.of_edge hts ho hpos hlist single).2 n hn
    simpa using hlen
  · exact hadmits.of_le hp hprole (hts u (by simp [hlist', hu])) (hpriority ▸ hhle)
  · obtain rfl : u = u' := by simpa [hmid] using hu'
    have hmem : u ∈ ts := by
      rw [hlist']
      simp [List.mem_of_mem_head? hmid]
    exact within_of_le hb.piece hcomplete' (hts u hmem) hurole fun n hn => Int.le_trans hule (hedge' n hn)
  · have hmem : u ∈ ts := by
      rw [hlist']
      simp [List.mem_of_mem_head? hu]
    have hrole := role_of_within unclosed (hleave u hu).1
    have hle : u.priority ≤ p.priority := Int.not_lt.mp fun hlt =>
      (hleave u hu).2 ⟨hrole, hlt, by simp [hp.awaits?_eq_none (by simp [hprole])]⟩
    exact within_of_le hbuilt.piece hcomplete (hts u hmem) hrole fun n hn =>
      Int.le_trans (hpriority ▸ hle) (hedge n hn)

/-- Two pairs of brackets cross. -/
theorem Spine.exists_crossing_of_groups (left : x.isGroup = true) (right : y.isGroup = true) :
    ∃ c : Crossing ts, c.first.piece.tree = x ∧ c.second.piece.tree = y := by
  have hleft := Node.isGroup_role left
  have hright := Node.isGroup_role right
  obtain ⟨i, a, n, rfl, hn, -⟩ := exists_parent hm hv hl
  obtain ⟨s, hsts, hsx, -, hfirst⟩ := Node.exists_first hts ho hpos hx (by simp)
  obtain ⟨hsx, hplain⟩ := Node.head_of_first hts ho hpos hx (by simp) (Or.inr (Or.inr left)) hsx hfirst
  obtain ⟨before, rest, hlist⟩ := List.append_of_mem hsts
  obtain ⟨us, rest, h, hs, f, rfl, hb, rfl, happended, -, -⟩ :=
    exists_built_of_head hts ho hpos hx hn hlist hfirst hsx hplain
  have hrun := hb.run_of_closer hts hlist happended hleft
  obtain ⟨t, mid, after, rfl, hlist', ht, hfirst', -⟩ := hrun.exists_next hts ho hpos hx hy hm hl rfl
  obtain ⟨hty, hplain'⟩ := Node.head_of_first hts ho hpos hy (by simp) (Or.inr (Or.inr right)) ht hfirst'
  obtain ⟨vs, after, p, ps, g, rfl, hb', rfl, happended', -, hparent⟩ :=
    exists_built_of_head hts ho hpos hy hm hlist' hfirst' hty hplain'
  have hsecond := hb'.run_of_closer hts hlist' happended' hright
  obtain ⟨hlen, hgrown, hadmits⟩ := hparent.resolve_right fun h => absurd h.1 (by simp)
  have hp : p.Classified := (hb'.sound hts hlist').above p (by simp [on])
  obtain ⟨hlast, hlink⟩ := link_of_extends hts ho hpos hx hm hv hl hgrown hlen hsx
    ((Node.classified_of_at? hts hy).priority_ne hp (by simp [hright]))
  exact ⟨{
    before, mid, after, key := s, beside := v, first_of := hrun, second_of := hsecond, key_mem := hsx, last := hlast
    first := ⟨s, us, fun _ => False, h, hs, ⟨f.tree, []⟩⟩
    second := ⟨t, vs, fun _ => False, p, ps, ⟨g.tree, []⟩⟩
    link := hlink
    single := by simp
    admits_first := by simp
    admits_second := by simp
    leaves := fun u _ => within_of_closer hright u
    after_leaves := fun u hu => ⟨within_of_closer hleft u, hadmits u hu⟩ }, rfl, rfl⟩

omit hl in
/-- Two statements cross. -/
theorem Spine.exists_crossing_of_stops (siblings : l = j :: up) (left : x.role = .closer) (right : y.role = .closer)
    (inside : m.tokens = [] ∨ m.span.start < x.bound.start)
    (first : ∃ t ∈ x.allTokens, t.span.start = x.bound.start ∧ (t.role = .atom ∨ t.role = .opener)) :
    ∃ c : Crossing ts, c.first.piece.tree = x ∧ c.second.piece.tree = y := by
  subst siblings
  obtain ⟨s, hsts, hs, hstart, hfirst⟩ := Node.exists_first hts ho hpos hx (by simp)
  obtain ⟨before, rest, hlist⟩ := List.append_of_mem hsts
  have hplain : s.role = .atom ∨ s.role = .opener := by
    obtain ⟨t, ht, htstart, hplain⟩ := first
    rcases hfirst t ht with rfl | hbefore
    · exact hplain
    · have := hpos s hsts
      unfold Token.Before at hbefore
      omega
  have hparent : up = [] ∨ ∃ u ∈ before, u ∈ m.allTokens := by
    cases htokens : m.tokens with
    | nil =>
      refine Or.inl ?_
      by_contra hne
      exact ((ordered_ofTokens hts ho).at? hm).2 hne htokens
    | cons u us =>
      have hu : u ∈ m.allTokens := Node.mem_allTokens_of_mem_tokens (by simp [htokens])
      have hspan : u.span.start < s.span.start := by
        have := inside.resolve_left (by simp [htokens])
        simpa [Node.span, htokens, hstart] using this
      have huts := mem_of_mem_ofTokens hts u (Node.mem_allTokens_of_at? hm hu)
      exact Or.inr ⟨u, Token.mem_of_start_lt ho hpos hlist huts hspan, hu⟩
  obtain ⟨us, rest, h, hs', f, rfl, hb, rfl, -, hgrown, hleave⟩ := exists_built_of_parent hts ho hpos hx hm hlist hfirst
    hs hparent
  have happended := hb.placed.resolve_right fun h => by rcases hplain with hr | hr <;> simp [hr] at h
  have hrun := hb.run_of_closer hts hlist happended left
  obtain ⟨t, mid, after, rfl, hlist', ht, hfirst', hbelow⟩ := hrun.exists_next hts ho hpos hx hy hm (Or.inl rfl) rfl
  obtain ⟨vs, after, p, ps, g, rfl, hb', rfl, hlen, hgrown', hleave'⟩ := exists_built_of_parent hts ho hpos hy hm hlist'
    hfirst' ht (Or.inr hbelow)
  have hsecond := hb'.run_of_closer hts hlist' (hb'.appended (List.ne_nil_of_length_pos (by omega))) right
  -- Both statements are children of one element, which admits the same tokens to either.
  have htokens : h.tokens = p.tokens := Node.Extends.tokens_unique (m := h.push f.tree) (k := p.push g.tree) hgrown
    hgrown' ((hb.sound hts hlist).expecting h (by simp [on])) ((hb'.sound hts hlist').expecting p (by simp [on]))
  have hadmits : ∀ u, h.Admits u ↔ p.Admits u := fun u => by
    simp [Node.Admits, Node.priority, Node.awaits?, htokens]
  have hp : p.Classified := (hb'.sound hts hlist').above p (by simp [on])
  obtain ⟨k, hk⟩ := List.exists_mem_of_ne_nil f.tree.tokens fun hnil => by simp [Node.role, hnil] at left
  obtain ⟨hlast, hlink⟩ := link_of_extends hts ho hpos hx hm hv (Or.inl rfl) hgrown' hlen hk
    ((Node.classified_of_at? hts hy).priority_ne hp (by simp [right]))
  exact ⟨{
    before, mid, after, key := k, beside := v, first_of := hrun, second_of := hsecond, key_mem := hk, last := hlast
    first := ⟨s, us, fun _ => True, h, hs', ⟨f.tree, []⟩⟩
    second := ⟨t, vs, fun _ => True, p, ps, ⟨g.tree, []⟩⟩
    link := hlink
    single := by simp
    admits_first := fun u _ _ => (hadmits u).mp
    admits_second := fun u _ _ => (hadmits u).mpr
    leaves := fun u _ => within_of_closer right u
    after_leaves := fun u hu => ⟨within_of_closer left u, (hleave' u hu).2⟩ }, rfl, rfl⟩

/-- Neighbours that can change places cross. -/
theorem Spine.exists_crossing (h : m.Interchange x y (l.length = up.length + 1)) :
    ∃ c : Crossing ts, c.first.piece.tree = x ∧ c.second.piece.tree = y := by
  cases h with
  | operands operator starts unclosed single left right =>
    exact exists_crossing_of_operands hts ho hpos hx hy hm hv hl operator starts unclosed single left right
  | groups left right => exact exists_crossing_of_groups hts ho hpos hx hy hm hv hl left right
  | stops siblings left right inside first =>
    have hl : l = j :: up := hl.resolve_right fun ⟨i, hl, _⟩ => by simp [hl] at siblings
    exact exists_crossing_of_stops hts ho hpos hx hy hm hv hl left right inside first

end Neighbors
end SiblingSwap
