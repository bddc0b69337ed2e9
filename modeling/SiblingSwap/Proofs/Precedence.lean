import SiblingSwap.Proofs.Grammar
import SiblingSwap.Proofs.Spine

/-! Reading a derivation of the grammar builds its tree. While an expression is read, the elements between the block it
    belongs to and the focus are the operators on the right edge of the tree read so far (`chainAbove`): each binds more
    tightly than the one above it, so an operator that climbs over those that bind as tightly as it does comes to rest
    where the reference puts it. -/

namespace SiblingSwap
namespace Grammar

/-! ### The right edge of an expression -/

/-- The operators above the last operand of an expression, innermost first, each with its left operand only. -/
def chainAbove (first : Node) (rest : List (Token × Node)) : List Node :=
  match _h : splitLoosest rest with
  | none => []
  | some (before, y, after) => chainAbove y.2 after ++ [⟨[y.1], [chainNode first before]⟩]
termination_by rest.length
decreasing_by exact (length_lt_of_splitLoosest _h).2

def chainLast (first : Node) (rest : List (Token × Node)) : Node := (rest.getLast?.map (·.2)).getD first

theorem chainAbove_nil (first : Node) : chainAbove first [] = [] := by
  rw [chainAbove]
  rfl

theorem chainAbove_append (first : Node) (before : List (Token × Node)) (y : Token × Node)
    (after : List (Token × Node)) (hbefore : ∀ x ∈ before, y.1.priority ≤ x.1.priority)
    (hafter : ∀ x ∈ after, y.1.priority < x.1.priority) :
    chainAbove first (before ++ y :: after) = chainAbove y.2 after ++ [⟨[y.1], [chainNode first before]⟩] := by
  rw [chainAbove]
  split
  · next h => simp [splitLoosest_append hbefore hafter] at h
  · next h =>
    rw [splitLoosest_append hbefore hafter] at h
    simp only [Option.some.injEq, Prod.mk.injEq] at h
    obtain ⟨rfl, rfl, rfl⟩ := h
    rfl

theorem chainLast_append (first : Node) (before after : List (Token × Node)) (y : Token × Node) :
    chainLast first (before ++ y :: after) = chainLast y.2 after := by
  cases h : after.getLast? <;> simp [chainLast, List.getLast?_append, List.getLast?_cons, h]

/-- An induction over expressions from the most loosely binding operator inwards. -/
theorem chain_induction {motive : Node → List (Token × Node) → Prop} (single : ∀ first, motive first [])
    (split : ∀ first before y after, (∀ x ∈ before, y.1.priority ≤ x.1.priority) →
      (∀ x ∈ after, y.1.priority < x.1.priority) → motive y.2 after → motive first (before ++ y :: after))
    (first : Node) (rest : List (Token × Node)) : motive first rest := by
  fun_induction chainAbove first rest with
  | case1 first rest h =>
    rw [splitLoosest_eq_none.mp h]
    exact single first
  | case2 first rest before y after h ih =>
    obtain ⟨hrest, hbefore, hafter⟩ := splitLoosest_eq_some h
    rw [hrest]
    exact split first before y after hbefore hafter ih

theorem under_chainAbove (first : Node) (rest : List (Token × Node)) :
    (chainLast first rest).under (chainAbove first rest) = chainNode first rest := by
  induction first, rest using chain_induction with
  | single first => rw [chainAbove_nil, chainNode_nil]; rfl
  | split first before y after hbefore hafter ih =>
    rw [chainLast_append, chainAbove_append first before y after hbefore hafter, chainNode_append hbefore hafter,
      Node.under_append, ih]
    rfl

theorem mem_chainAbove {first : Node} {rest : List (Token × Node)} {q : Node} (h : q ∈ chainAbove first rest) :
    ∃ x ∈ rest, q.tokens = [x.1] := by
  induction first, rest using chain_induction with
  | single first => simp [chainAbove_nil] at h
  | split first before y after hbefore hafter ih =>
    rw [chainAbove_append first before y after hbefore hafter] at h
    rcases List.mem_append.mp h with h | h
    · obtain ⟨x, hx, hq⟩ := ih h
      exact ⟨x, by simp [hx], hq⟩
    · exact ⟨y, by simp, by rw [List.mem_singleton.mp h]⟩

/-- Where an operator that comes after an expression finds its place: it takes over all that binds as tightly as it,
    and what is left above binds more loosely. -/
theorem chainAbove_concat (first : Node) (rest : List (Token × Node)) (op : Token) (operand : Node) :
    ∃ qs gs, chainAbove first rest = qs ++ gs ∧ (∀ q ∈ qs, op.priority ≤ q.priority) ∧
      (∀ g ∈ gs.head?, g.priority < op.priority) ∧
      chainAbove first (rest ++ [(op, operand)]) = ⟨[op], [(chainLast first rest).under qs]⟩ :: gs := by
  induction first, rest using chain_induction with
  | single first =>
    refine ⟨[], [], chainAbove_nil first, by simp, by simp, ?_⟩
    have hnew := chainAbove_append first [] (op, operand) [] (by simp) (by simp)
    rw [chainAbove_nil, chainNode_nil] at hnew
    exact hnew
  | split first before y after hbefore hafter ih =>
    by_cases hle : op.priority ≤ y.1.priority
    · have hall : ∀ x ∈ before ++ y :: after, op.priority ≤ x.1.priority := by
        intro x hx
        rcases List.mem_append.mp hx with hx | hx
        · exact Int.le_trans hle (hbefore x hx)
        · rcases List.mem_cons.mp hx with rfl | hx
          · exact hle
          · exact Int.le_trans hle (Int.le_of_lt (hafter x hx))
      refine ⟨chainAbove first (before ++ y :: after), [], by simp, fun q hq => ?_, by simp, ?_⟩
      · obtain ⟨x, hx, htokens⟩ := mem_chainAbove hq
        simpa [Node.priority, htokens] using hall x hx
      · have hnew := chainAbove_append first _ (op, operand) [] hall (by simp)
        rw [chainAbove_nil] at hnew
        rw [hnew, under_chainAbove]
        rfl
    · obtain ⟨qs, gs, habove, hqs, hgs, hnew⟩ := ih
      have hafter' : ∀ x ∈ after ++ [(op, operand)], y.1.priority < x.1.priority := by
        refine List.forall_mem_append.mpr ⟨hafter, ?_⟩
        simpa using Int.not_le.mp hle
      refine ⟨qs, gs ++ [⟨[y.1], [chainNode first before]⟩], ?_, hqs, ?_, ?_⟩
      · rw [chainAbove_append first before y after hbefore hafter, habove, List.append_assoc]
      · intro g hg
        cases gs with
        | nil =>
          have : g = ⟨[y.1], [chainNode first before]⟩ := by simpa using hg.symm
          rw [this]
          exact Int.not_le.mp hle
        | cons g' gs => exact hgs g hg
      · rw [List.append_assoc, List.cons_append, chainAbove_append first before y _ hbefore hafter', hnew,
          chainLast_append]
        rfl

end Grammar

/-! ### Operators after a complete element -/

namespace Spine
variable {n p : Node} {qs ps : List Node}

def feed (s : Spine) (ts : List Token) : Spine := ts.foldl add s

@[simp]
theorem feed_nil (s : Spine) : s.feed [] = s := rfl

@[simp]
theorem feed_cons (s : Spine) (t : Token) (ts : List Token) : s.feed (t :: ts) = (s.add t).feed ts := rfl

@[simp]
theorem feed_append (s : Spine) (ts us : List Token) : s.feed (ts ++ us) = (s.feed ts).feed us := List.foldl_append

theorem climbFrom_of_lt {priority : Int} (h : n.priority < priority) : climbFrom priority n ps = ⟨n, ps⟩ := by
  cases ps with
  | nil => rfl
  | cons p ps => rw [climbFrom, if_neg (Int.not_le.mpr h)]

theorem climbFrom_append {priority : Int} (hn : priority ≤ n.priority) (hqs : ∀ q ∈ qs, priority ≤ q.priority)
    (hp : p.priority < priority) : climbFrom priority n (qs ++ p :: ps) = ⟨p.push (n.under qs), ps⟩ := by
  induction qs generalizing n with
  | nil =>
    rw [List.nil_append, climbFrom, if_pos hn]
    exact climbFrom_of_lt hp
  | cons q qs ih =>
    rw [List.cons_append, climbFrom, if_pos hn]
    exact ih (n := q.push n) (hqs q (by simp)) fun r hr => hqs r (by simp [hr])

/-- An operator after a complete element takes over all below the first ancestor that binds more loosely. -/
theorem addOperator_append {t : Token} (hn : ¬n.role.expectsMore) (hqs : ∀ q ∈ qs, t.priority ≤ q.priority)
    (hp : p.priority < t.priority) :
    (⟨n, qs ++ p :: ps⟩ : Spine).addOperator t = ⟨⟨[t], [n.under qs]⟩, p :: ps⟩ := by
  have hplace : (⟨n, qs ++ p :: ps⟩ : Spine).host.climb t.priority = ⟨p.push (n.under qs), ps⟩ := by
    rw [host, if_neg hn]
    cases qs with
    | nil => exact climbFrom_of_lt hp
    | cons q qs => exact climbFrom_append (n := q.push n) (hqs q (by simp)) (fun r hr => hqs r (by simp [hr])) hp
  rw [addOperator, hplace]
  simp [wrap]

theorem climbs_append (hn : n.awaits? = none) (hqs : ∀ q ∈ qs, q.awaits? = none) :
    Climbs ⟨n, qs ++ p :: ps⟩ ⟨p.push (n.under qs), ps⟩ := by
  induction qs generalizing n with
  | nil => exact .up hn (.refl _)
  | cons q qs ih => exact .up hn (ih (n := q.push n) (hqs q (by simp)) fun r hr => hqs r (by simp [hr]))

theorem add_of_operator {s : Spine} {t : Token} (ht : t.role = .operator) : s.add t = s.addOperator t := by
  simp [add, ht]

/-- The end of a statement is an operator for a complete focus: no element waits for it. -/
theorem add_of_stop {s : Spine} {t : Token} (ht : t.Classified) (htext : t.text = [';'] ∨ t.text = ['\n'])
    (hs : ¬s.focus.role.expectsMore) : s.add t = s.addOperator t := by
  have hreads := reads_add s ht
  generalize s.add t = s' at hreads ⊢
  cases hreads with
  | drop line more => exact absurd more hs
  | join role | append role => simp [(ht.of_stop htext).1] at role
  | close role line waiting =>
    obtain ⟨u, -, hu⟩ := Option.bind_eq_some_iff.mp (climbs_waiting? waiting).2
    rcases closerOf?_eq_some hu with ⟨-, h⟩ | ⟨-, h⟩ | ⟨-, h⟩ <;> rw [h] at htext <;> simp at htext
  | wrap => rfl

/-- The bracket that is awaited closes its element, with all that was read since below it. -/
theorem add_of_closing {s w : Spine} {t : Token} (ht : t.Classified) (hclimb : Climbs s w)
    (hw : w.focus.awaits? = some t.text) : s.add t = w.join t := by
  obtain ⟨u, -, hu⟩ := Option.bind_eq_some_iff.mp hw
  obtain ⟨hrole, hline⟩ := ht.of_closing hu
  have hwaiting : s.waiting? = some (t.text, w) := by
    rw [← hclimb.waiting?_eq]
    obtain ⟨n, _ | ⟨p, ps⟩⟩ := w <;> simp_all [waiting?, waitingFrom]
  simp [add, hrole, addCloser, hline, hwaiting]

end Spine

/-! ### Reading derivations -/

namespace Grammar

theorem feed_breaks (breaks : List Break) {s : Spine} (hs : s.focus.role.expectsMore) :
    s.feed (breaks.map (·.token)) = s := by
  induction breaks with
  | nil => rfl
  | cons b bs ih =>
    have hadd : s.add b.token = s := by
      simp [Spine.add, (b.classified.of_stop (Or.inr b.line)).1, Spine.addCloser, b.line, hs]
    rw [List.map_cons, Spine.feed_cons, hadd, ih]

/-- Words make one element with a word or opener that comes after them. -/
theorem feed_run (ws : List Word) {t : Token} (ht : t.role = .atom ∨ t.role = .opener) {s : Spine}
    (hs : s.focus.role ≠ .atom) :
    s.feed (ws.map (·.token) ++ [t]) = ⟨⟨ws.map (·.token) ++ [t], []⟩, s.host.focus :: s.host.above⟩ := by
  have hadd : ∀ s : Spine, s.add t = s.addAtom t := by
    intro s
    rcases ht with ht | ht <;> simp [Spine.add, ht]
  induction ws using List.reverseRecOn generalizing t with
  | nil =>
    rw [List.map_nil, List.nil_append, Spine.feed_cons, hadd, Spine.addAtom, if_neg hs]
    rfl
  | append_singleton ws w ih =>
    have hw : ∀ s : Spine, s.add w.token = s.addAtom w.token := by simp [Spine.add, w.role]
    rw [Spine.feed_append, List.map_append, List.map_cons, List.map_nil, ih (Or.inl w.role) hw, Spine.feed_cons, hadd,
      Spine.addAtom, if_pos (by simp [Node.role, w.role])]
    rfl

theorem Term.getLast?_node (t : Term) :
    ∃ u, t.node.tokens.getLast? = some u ∧ u.Classified ∧ (u.role = .atom ∨ u.role = .closer) := by
  cases t with
  | words w ws =>
    obtain ⟨v, hv⟩ : ∃ v, (w :: ws).getLast? = some v := ⟨_, List.getLast?_eq_some_getLast (by simp)⟩
    refine ⟨v.token, ?_, v.classified, Or.inl v.role⟩
    simp [Term.node, ← List.map_cons, hv]
  | group ws b breaks body =>
    refine ⟨b.closing, ?_, b.closing_classified, Or.inr (b.closing_classified.of_closing b.matching).1⟩
    simp [Term.node]

theorem Term.not_expectsMore (t : Term) : ¬t.node.role.expectsMore := by
  obtain ⟨u, hu, -, hrole⟩ := t.getLast?_node
  rcases hrole with h | h <;> simp [Node.role, hu, h, Role.expectsMore]

theorem Term.awaits?_node (t : Term) : t.node.awaits? = none := by
  obtain ⟨u, hu, hclassified, hrole⟩ := t.getLast?_node
  simp only [Node.awaits?, hu, Option.bind_some]
  exact hclassified.closerOf?_eq_none (by rcases hrole with h | h <;> simp [h])

theorem Expr.chainLast_operands (e : Expr) : ∃ t : Term, chainLast e.operands.1 e.operands.2 = t.node := by
  cases e with
  | term t => exact ⟨t, rfl⟩
  | chain e op breaks t => exact ⟨t, by rw [Expr.operands, chainLast_append]; rfl⟩

theorem Expr.of_mem_operands : (e : Expr) → ∀ x ∈ e.operands.2, x.1.Classified ∧ x.1.role = .operator
  | .term t, x, hx => by simp [Expr.operands] at hx
  | .chain e op breaks t, x, hx => by
    rw [Expr.operands] at hx
    rcases List.mem_append.mp hx with hx | hx
    · exact e.of_mem_operands x hx
    · rw [List.mem_singleton.mp hx]
      exact ⟨op.classified, op.role⟩

theorem Expr.of_mem_chainAbove (e : Expr) {q : Node} (hq : q ∈ chainAbove e.operands.1 e.operands.2) :
    q.awaits? = none ∧ 3 < q.priority := by
  obtain ⟨x, hx, htokens⟩ := mem_chainAbove hq
  obtain ⟨hclassified, hrole⟩ := e.of_mem_operands x hx
  constructor
  · simp only [Node.awaits?, htokens, List.getLast?_singleton, Option.bind_some]
    exact hclassified.closerOf?_eq_none (by simp [hrole])
  · simpa [Node.priority, htokens] using hclassified.lt_priority_of_operator hrole

mutual

/-- A term becomes the new last child of the host. -/
theorem Term.feed (t : Term) (s : Spine) (hs : s.focus.role ≠ .atom) :
    s.feed t.tokens = ⟨t.node, s.host.focus :: s.host.above⟩ := by
  match t with
  | .words w ws =>
    obtain ⟨us, u, hu⟩ : ∃ us u, w :: ws = us ++ [u] := ⟨_, _, (List.dropLast_concat_getLast (by simp)).symm⟩
    have htokens : w.token :: ws.map (·.token) = us.map (·.token) ++ [u.token] := by
      simpa using congrArg (List.map (·.token)) hu
    rw [Term.tokens, Term.node, htokens]
    exact feed_run us (Or.inl u.role) hs
  | .group ws b breaks body =>
    obtain ⟨hrole, hpriority⟩ := b.opening_classified.of_bracket b.matching
    -- The open bracket hosts its block, and still waits at the end of it.
    let o : Spine := ⟨⟨ws.map (·.token) ++ [b.opening], []⟩, s.host.focus :: s.host.above⟩
    have ho : o.focus.role = .opener := by simp [o, Node.role, hrole]
    have hmore : o.focus.role.expectsMore := by simp [ho, Role.expectsMore]
    have hhost : o.host = o := if_pos hmore
    have hopen : s.feed (ws.map (·.token) ++ [b.opening]) = o := feed_run ws (Or.inr hrole) hs
    have hbody := Block.feed body o (by simp [ho]) (by rw [hhost]; exact .refl o) (by rwa [hhost])
      (by simp [hhost, o, Node.priority, hpriority])
    rw [hhost] at hbody
    have hclose := Spine.add_of_closing b.closing_classified hbody (by simp [o, Node.awaits?, b.matching])
    rw [Term.tokens, List.append_cons, Spine.feed_append, hopen, Spine.feed_append, Spine.feed_append,
      feed_breaks breaks hmore, Spine.feed_cons, hclose]
    simp [Spine.join, Node.absorb, Term.node, o]

/-- An expression becomes the new last child of a host that binds most loosely; its right edge is on the spine. -/
theorem Expr.feed (e : Expr) (s : Spine) (hs : s.focus.role ≠ .atom) (hp : s.host.focus.priority ≤ 0) :
    s.feed e.tokens = ⟨chainLast e.operands.1 e.operands.2,
      chainAbove e.operands.1 e.operands.2 ++ s.host.focus :: s.host.above⟩ := by
  match e with
  | .term t =>
    rw [Expr.tokens, Term.feed t s hs]
    simp [Expr.operands, chainAbove_nil, chainLast]
  | .chain e op breaks t =>
    obtain ⟨qs, gs, habove, hqs, hgs, hnew⟩ := chainAbove_concat e.operands.1 e.operands.2 op.token t.node
    obtain ⟨u, hu⟩ := e.chainLast_operands
    -- What is left above the operator binds more loosely: the rest of the right edge or, if that is empty, the host.
    obtain ⟨p, ps, hps, hpriority⟩ :
        ∃ p ps, gs ++ s.host.focus :: s.host.above = p :: ps ∧ p.priority < op.token.priority := by
      cases gs with
      | nil => exact ⟨_, _, rfl, by have := op.classified.lt_priority_of_operator op.role; omega⟩
      | cons g gs => exact ⟨g, _, rfl, hgs g rfl⟩
    rw [Expr.tokens, Spine.feed_append, Expr.feed e s hs hp, Spine.feed_cons, Spine.add_of_operator op.role, habove,
      List.append_assoc, hps, Spine.addOperator_append (hu ▸ u.not_expectsMore) hqs hpriority]
    have hmore : (⟨[op.token], [(chainLast e.operands.1 e.operands.2).under qs]⟩ : Node).role.expectsMore := by
      simp [Node.role, op.role, Role.expectsMore]
    rw [Spine.feed_append, feed_breaks breaks hmore, Term.feed t _ (by simp [Node.role, op.role]), Spine.host,
      if_pos hmore]
    rw [Expr.operands, hnew, chainLast_append, List.cons_append, hps]
    rfl

/-- A block adds its statements to a host that binds most loosely. -/
theorem Block.feed (b : Block) (s : Spine) (hs : s.focus.role ≠ .atom) (hclimb : Spine.Climbs s s.host)
    (hmore : s.host.focus.role.expectsMore) (hp : s.host.focus.priority ≤ 0) :
    Spine.Climbs (s.feed b.tokens) ⟨⟨s.host.focus.tokens, s.host.focus.children ++ b.nodes⟩, s.host.above⟩ := by
  match b with
  | .empty => simpa [Block.tokens, Block.nodes] using hclimb
  | .last e =>
    obtain ⟨t, ht⟩ := e.chainLast_operands
    rw [Block.tokens, Expr.feed e s hs hp, Block.nodes, ← under_chainAbove]
    exact Spine.climbs_append (ht ▸ t.awaits?_node) fun q hq => (e.of_mem_chainAbove hq).1
  | .statement e stop rest =>
    obtain ⟨t, ht⟩ := e.chainLast_operands
    obtain ⟨hrole, hpriority⟩ := stop.classified.of_stop stop.ending
    -- The end of the statement climbs over its whole right edge, and is complete at once.
    let ended : Node := ⟨[stop.token], [chainNode e.operands.1 e.operands.2]⟩
    let s' : Spine := ⟨ended, s.host.focus :: s.host.above⟩
    have hcomplete : ¬(chainLast e.operands.1 e.operands.2).role.expectsMore := ht ▸ t.not_expectsMore
    have hread : (s.feed e.tokens).add stop.token = s' := by
      rw [Expr.feed e s hs hp, Spine.add_of_stop stop.classified stop.ending hcomplete,
        Spine.addOperator_append hcomplete, under_chainAbove]
      · intro q hq
        have := (e.of_mem_chainAbove hq).2
        omega
      · omega
    have hended : ended.role = .closer := by simp [ended, Node.role, hrole]
    have hhost : s'.host = ⟨s.host.focus.push ended, s.host.above⟩ := by
      rw [Spine.host, if_neg (by simp [s', hended, Role.expectsMore])]
      rfl
    have hfree : ended.awaits? = none := stop.classified.closerOf?_eq_none (by simp [hrole])
    have hrest := Block.feed rest s' (by simp [s', hended]) (by rw [hhost]; exact .up hfree (.refl _))
      (by rwa [hhost]) (by rwa [hhost])
    rw [hhost] at hrest
    rw [Block.tokens, Spine.feed_append, Spine.feed_cons, hread, Block.nodes]
    simpa [ended] using hrest

end

mutual

theorem Term.classified_of_mem (t : Term) : ∀ u ∈ t.tokens, u.Classified := by
  match t with
  | .words w ws =>
    intro u hu
    rcases List.mem_cons.mp hu with rfl | hu
    · exact w.classified
    · obtain ⟨v, -, rfl⟩ := List.mem_map.mp hu
      exact v.classified
  | .group ws b breaks body =>
    intro u hu
    simp only [Term.tokens, List.mem_append, List.mem_cons, List.mem_map, List.not_mem_nil, or_false] at hu
    rcases hu with ⟨v, -, rfl⟩ | rfl | (⟨v, -, rfl⟩ | hu) | rfl
    · exact v.classified
    · exact b.opening_classified
    · exact v.classified
    · exact Block.classified_of_mem body u hu
    · exact b.closing_classified

theorem Expr.classified_of_mem (e : Expr) : ∀ u ∈ e.tokens, u.Classified := by
  match e with
  | .term t => exact Term.classified_of_mem t
  | .chain e op breaks t =>
    intro u hu
    simp only [Expr.tokens, List.mem_append, List.mem_cons, List.mem_map] at hu
    rcases hu with hu | rfl | ⟨v, -, rfl⟩ | hu
    · exact Expr.classified_of_mem e u hu
    · exact op.classified
    · exact v.classified
    · exact Term.classified_of_mem t u hu

theorem Block.classified_of_mem (b : Block) : ∀ u ∈ b.tokens, u.Classified := by
  match b with
  | .empty => simp [Block.tokens]
  | .last e => exact Expr.classified_of_mem e
  | .statement e stop rest =>
    intro u hu
    simp only [Block.tokens, List.mem_append, List.mem_cons] at hu
    rcases hu with hu | rfl | hu
    · exact Expr.classified_of_mem e u hu
    · exact stop.classified
    · exact Block.classified_of_mem rest u hu

end

theorem Block.tree_tokens (b : Block) : Node.ofTokens b.tokens = ⟨[], b.nodes⟩ := by
  rw [Node.ofTokens_eq b.classified_of_mem]
  exact (Block.feed b .empty (by decide) (.refl _) (by decide) (by decide)).tree_eq.symm

/-- The tree of a derivation: below the root are the statements of the block, each of them split at the last of its most
    loosely binding operators, and no bracket is left open. -/
theorem Block.ofTokens_tokens (b : Block) :
    Node.ofTokens b.tokens = ⟨[], b.nodes⟩ ∧ (Draft.ofTokens b.tokens).awaited.length = 0 := by
  have hclimb := Block.feed b .empty (by decide) (.refl _) (by decide) (by decide)
  rw [Node.ofTokens_eq b.classified_of_mem, Draft.ofTokens_eq b.classified_of_mem]
  exact ⟨hclimb.tree_eq.symm, congrArg List.length hclimb.awaited_eq.symm⟩

end Grammar
end SiblingSwap
