import SiblingSwap.Proofs.Replay
import SiblingSwap.Proofs.Row
import SiblingSwap.Proofs.Traversal

/-! Where the cursor lands. At the end of an element that ends with a token of its own, that element is found, since all
    that the walk meets before it ends earlier. To the left of it is the element it stands in line with. -/

namespace SiblingSwap
namespace Node
variable {tree n y x : Node} {a : Address} {pos : Nat} {e : Token}

/-! ### The walk to an element -/

theorem walk_skip {p : Node} {i : Nat} {cs ds : List Node} {outer : List Visit}
    (h : ∀ c ∈ cs, ∀ b outer, walk pos (.enter b c :: outer) = walk pos outer) :
    walk pos (⟨p, a, i, cs ++ ds⟩ :: outer) = walk pos (⟨p, a, i + cs.length, ds⟩ :: outer) := by
  induction cs generalizing i with
  | nil => rfl
  | cons c cs ih =>
    rw [List.cons_append, walk, h c (by simp), ih fun d hd => h d (by simp [hd]), List.length_cons,
      Nat.add_right_comm, Nat.add_assoc]

/-- The walk passes by all that ends before the place or starts after it. -/
theorem walk_of_apart (hpos : 0 < pos)
    (h : (∀ u ∈ n.allTokens, u.span.stop < pos) ∨ ∀ u ∈ n.allTokens, pos < u.span.start) (outer : List Visit) :
    walk pos (.enter a n :: outer) = walk pos outer := by
  induction n using children_induction generalizing a outer with
  | step n ih =>
    have hspan : n.span.contains pos = false := by
      cases htokens : n.tokens with
      | nil => simp [span, Span.contains, htokens, Nat.ne_of_gt hpos]
      | cons t ts =>
        obtain ⟨e, he⟩ := Option.isSome_iff_exists.mp (List.getLast?_isSome.mpr (List.cons_ne_nil t ts))
        have hmem : ∀ u ∈ t :: ts, u ∈ n.allTokens := fun u hu => mem_allTokens_of_mem_tokens (htokens ▸ hu)
        rcases h with h | h
        · have := h e (hmem e (List.mem_of_getLast? he))
          simp [span, Span.contains, htokens, he, this]
        · have := h t (hmem t (by simp))
          simp [span, Span.contains, htokens, this]
    have hskip : ∀ c ∈ n.children, ∀ b outer, walk pos (.enter b c :: outer) = walk pos outer := fun c hc b outer =>
      ih c hc (h.imp (fun h u hu => h u (mem_allTokens_of_child hc hu)) fun h u hu =>
        h u (mem_allTokens_of_child hc hu)) outer
    rw [Visit.enter, ← List.append_nil n.children, walk_skip hskip, walk_of_not_contains hspan]

/-- The walk goes down to an element when all to the left of the way ends before the place. -/
theorem exists_walk_down (hordered : tree.Ordered) (hpos : 0 < pos) (he : e ∈ n.allTokens)
    (hbefore : ∀ u ∈ tree.allTokens, u.Before e → u.span.stop < pos) (hn : tree.at? a = some n) :
    ∃ outer, walk pos [.enter [] tree] = walk pos (.enter a n :: outer) := by
  induction a generalizing n with
  | nil =>
    obtain rfl : tree = n := Option.some.inj hn
    exact ⟨[], rfl⟩
  | cons i up ih =>
    obtain ⟨p, hp, hi⟩ := Option.bind_eq_some_iff.mp hn
    obtain ⟨outer, hwalk⟩ := ih (mem_allTokens_of_child (List.mem_of_getElem? hi) he) hp
    obtain ⟨cs, ds, hsplit, rfl⟩ : ∃ cs ds, p.children = cs ++ n :: ds ∧ i = cs.length := by
      obtain ⟨hlt, hget⟩ := List.getElem?_eq_some_iff.mp hi
      refine ⟨p.children.take i, p.children.drop (i + 1), ?_, by simp [Nat.min_eq_left (Nat.le_of_lt hlt)]⟩
      rw [← hget, List.getElem_cons_drop, List.take_append_drop]
    have hsiblings := (hordered.at? hp).1.siblings
    rw [hsplit] at hsiblings
    have hskip : ∀ c ∈ cs, ∀ b outer, walk pos (.enter b c :: outer) = walk pos outer := by
      intro c hc b outer
      refine walk_of_apart hpos (Or.inl fun u hu => ?_) outer
      have hcn : c.Before n := (List.pairwise_append.mp hsiblings).2.2 c hc n (by simp)
      exact hbefore u (mem_allTokens_of_at? hp (mem_allTokens_of_child (by simp [hsplit, hc]) hu)) (hcn u hu e he)
    refine ⟨⟨p, up, cs.length + 1, ds⟩ :: outer, ?_⟩
    rw [hwalk, Visit.enter, hsplit, walk_skip hskip, walk, Nat.zero_add]

/-- An element reaches over the ends of its tokens. -/
theorem Ordered.contains_stop (hordered : n.Ordered) (hroom : ∀ u ∈ n.tokens, u.span.start < u.span.stop)
    (he : e ∈ n.tokens) : n.span.contains e.span.stop = true := by
  have hown := hordered.own
  obtain ⟨t, ts, htokens⟩ := List.exists_cons_of_ne_nil (List.ne_nil_of_mem he)
  obtain ⟨k, hk⟩ := Option.isSome_iff_exists.mp (List.getLast?_isSome.mpr (List.ne_nil_of_mem he))
  rw [htokens] at hown hroom he hk
  obtain ⟨hstart, hstop⟩ := Token.between_of_run hown hroom hk he
  have := hroom e he
  simp only [span, htokens, hk, Span.contains, List.head?_cons, Option.map_some, Option.getD_some, Bool.and_eq_true,
    decide_eq_true_eq]
  omega

/-- At the end of one of its own tokens an element is found, when what is below it ends before the token or starts after
    it. -/
theorem locate?_of_own (hordered : tree.Ordered) (hroom : ∀ u ∈ tree.allTokens, u.span.start < u.span.stop)
    (hn : tree.at? a = some n) (hne : a ≠ []) (he : e ∈ n.tokens)
    (hbelow : ∀ c ∈ n.children, (∀ u ∈ c.allTokens, u.Before e) ∨ ∀ u ∈ c.allTokens, e.span.stop < u.span.start) :
    tree.locate? e.span.stop = some a := by
  have hmem : ∀ {u : Token}, u ∈ n.tokens → u ∈ tree.allTokens := fun hu =>
    mem_allTokens_of_at? hn (mem_allTokens_of_mem_tokens hu)
  have hroomE : e.span.start < e.span.stop := hroom e (hmem he)
  have hpos : 0 < e.span.stop := Nat.zero_lt_of_lt hroomE
  have hbefore : ∀ u : Token, u.Before e → u.span.stop < e.span.stop := fun u hu => Nat.lt_of_le_of_lt hu hroomE
  obtain ⟨outer, hwalk⟩ := exists_walk_down hordered hpos (mem_allTokens_of_mem_tokens he) (fun u _ => hbefore u) hn
  have hskip : ∀ c ∈ n.children, ∀ b outer,
      walk e.span.stop (.enter b c :: outer) = walk e.span.stop outer := by
    intro c hc b outer
    exact walk_of_apart hpos ((hbelow c hc).imp_left fun h u hu => hbefore u (h u hu)) outer
  rw [locate?, hwalk, Visit.enter, ← List.append_nil n.children, walk_skip hskip]
  exact walk_of_contains hne ((hordered.at? hn).1.contains_stop (fun u hu => hroom u (hmem hu)) he)

/-! ### The element to the left -/

theorem Lines.exists_neighbors (h : n.Lines y x) (hn : tree.at? a = some n) :
    ∃ i l, tree.at? (i :: a) = some x ∧ tree.leftNeighbors (i :: a) = ⟨some l, some (i :: a)⟩ ∧
      tree.at? l = some y := by
  obtain ⟨cs, v, ds, hchildren, hlink⟩ := h
  have hx : tree.at? ((cs.length + 1) :: a) = some x := by simp [at?, hn, hchildren]
  have hv : tree.at? (cs.length :: a) = some v := by simp [at?, hn, hchildren]
  refine ⟨cs.length + 1, ?_⟩
  have hprev : tree.prev? ((cs.length + 1) :: a) = some (cs.length :: a) := by simp [prev?, hv]
  unfold leftNeighbors
  simp only [hprev, hn, hv]
  rcases hlink with ⟨rfl, hpriority⟩ | ⟨hrole, hpriority, hlast⟩
  · rw [if_neg fun h => hpriority h.1 h.2]
    exact ⟨_, hx, rfl, hv⟩
  · rw [if_pos ⟨hrole, hpriority⟩]
    obtain ⟨ks, hks⟩ := List.getLast?_eq_some_iff.mp hlast
    refine ⟨ks.length :: cs.length :: a, hx, ?_, by rw [at?, hv]; simp [hks]⟩
    obtain ⟨vs, es⟩ := v
    obtain rfl : es = ks ++ [y] := hks
    rw [lastChild?, hv]
    cases ks <;> simp

theorem leftNeighbors_of_first {k : Nat} : tree.leftNeighbors (List.replicate k 0 ++ a) = tree.leftNeighbors a := by
  induction k with
  | zero => rfl
  | succ k ih => exact ih

end Node

theorem Address.below_of_single {ps : List Node} (h : ∀ p ∈ ps, p.children = []) :
    Address.below ps = List.replicate ps.length 0 :=
  List.eq_replicate_iff.mpr ⟨by simp [Address.below], by simpa [Address.below] using h⟩

/-- Back from the end of an element that has only single elements on its right edge, it makes a pair with the one it
    stands in line with. -/
theorem Spine.Built.exists_pairAt {w : Token → Prop} {ts before us rest : List Token} {t : Token} {p n y : Node}
    {ps : List Node} {f : Spine} {a : Address} (hb : Built w before t us p ps f)
    (hts : ∀ t ∈ ts, t.Classified) (ho : ts.Pairwise Token.Before) (hpos : ∀ t ∈ ts, t.span.start < t.span.stop)
    (hlist : ts = before ++ t :: (us ++ rest)) (hsingle : ∀ q ∈ f.above, q.children = [])
    (hn : (ofTokens ts).tree.at? a = some n) (hlines : n.Lines y f.tree) :
    ∃ e, f.focus.tokens.getLast? = some e ∧
      (ofTokens ts).tree.pairAt e.span.stop .backward = Node.elementPair y f.tree := by
  obtain ⟨i, l, hx, hneighbors, hy⟩ := hlines.exists_neighbors hn
  obtain ⟨e, he, hlast, -⟩ := hb.exists_last hts ho hpos hlist
  have hfocus : (ofTokens ts).tree.at? (List.replicate f.above.length 0 ++ i :: a) = some f.focus := by
    rw [Node.at?_append, hx, ← Address.below_of_single hsingle]
    exact Node.at?_under f.focus f.above
  have hordered := ordered_ofTokens hts ho
  have hbelow : ∀ c ∈ f.focus.children, ∀ u ∈ c.allTokens, u.Before e := by
    intro c hc u hu
    have hmem := Node.mem_allTokens_of_at? (Node.at?_under f.focus f.above) (Node.mem_allTokens_of_child hc hu)
    refine (hlast u hmem).resolve_left fun heq => ?_
    -- The last token is the focus's own, so no child has it.
    obtain ⟨k, hk⟩ := List.getElem?_of_mem hc
    have hchild : (ofTokens ts).tree.at? (k :: (List.replicate f.above.length 0 ++ i :: a)) = some c := by
      rw [Node.at?, hfocus]
      exact hk
    have hsuffix := Node.suffix_of_mem_tokens hts ho hpos hfocus hchild (List.mem_of_getLast? he) (heq ▸ hu)
    exact absurd hsuffix.length_le (by simp)
  have hlocate := Node.locate?_of_own hordered (fun u hu => hpos u (mem_of_mem_ofTokens hts u hu)) hfocus (by simp)
    (List.mem_of_getLast? he) fun c hc => Or.inl (hbelow c hc)
  refine ⟨e, he, ?_⟩
  simp [Node.pairAt, hlocate, Node.neighbors, Node.leftNeighbors_of_first, hneighbors, hx, hy]

/-! ### Words of the first element -/

namespace Node
variable {n : Node} {i : Nat} {v w : Token}

/-- Back from the end of a token, it makes a pair with the one before it. -/
theorem tokenPair_backward (hordered : n.Ordered) (hroom : ∀ u ∈ n.tokens, u.span.start < u.span.stop)
    (hv : n.tokens[i]? = some v) (hw : n.tokens[i + 1]? = some w) :
    n.tokenPair w.span.stop .backward = .ok ⟨v.span, w.span⟩ := by
  obtain ⟨hlt, hget⟩ := List.getElem?_eq_some_iff.mp hw
  have hroomW := hroom w (List.mem_of_getElem? hw)
  have hfind : n.tokens.findIdx (·.span.contains w.span.stop) = i + 1 := by
    refine (List.findIdx_eq hlt).mpr ⟨?_, fun j hj => ?_⟩
    · simp [hget, Span.contains, Nat.le_of_lt hroomW]
    · have hbefore : n.tokens[j].span.stop ≤ w.span.start :=
        hget ▸ List.pairwise_iff_getElem.mp hordered.own j (i + 1) (Nat.lt_trans hj hlt) hlt hj
      simp [Span.contains, Nat.lt_of_le_of_lt hbefore hroomW]
  have htoken : n.tokenAt? w.span.stop = some (i + 1, w) := by simp [tokenAt?, hfind, hw]
  simp [tokenPair, htoken, hv]

section Words
variable {ts : List Token} (hts : ∀ t ∈ ts, t.Classified) (ho : ts.Pairwise Token.Before)
  (hpos : ∀ t ∈ ts, t.span.start < t.span.stop)
include hts ho hpos

/-- What is below an element starts after each of its words, and not right after it. -/
theorem lt_start_of_word {a : Address} (hn : (Spine.ofTokens ts).tree.at? a = some n) (hw : n.tokens[i]? = some w)
    (hword : w.role = .atom) : ∀ c ∈ n.children, ∀ u ∈ c.allTokens, w.span.stop < u.span.start := by
  intro c hc u hu
  have hheaded := (Spine.headed_ofTokens hts ho).at? hn
  have hroom : ∀ t ∈ n.tokens, t.span.start < t.span.stop := fun t ht =>
    hpos t (Spine.mem_of_mem_ofTokens hts t (mem_allTokens_of_at? hn (mem_allTokens_of_mem_tokens ht)))
  cases hz : n.tokens[i + 1]? with
  | none =>
    have hlast : n.tokens.getLast? = some w := by
      obtain ⟨hlt, -⟩ := List.getElem?_eq_some_iff.mp hw
      have hge := List.getElem?_eq_none_iff.mp hz
      rw [List.getLast?_eq_getElem?, show n.tokens.length - 1 = i by omega, hw]
    have hnil := children_of_atom hts ho hpos hn (by simp [role, hlast, hword])
    simp [hnil] at hc
  | some z =>
    -- The next token is a word or an opener, and it comes before all that is below.
    obtain ⟨hlt, hgetz⟩ := List.getElem?_eq_some_iff.mp hz
    obtain ⟨_, hgetw⟩ := List.getElem?_eq_some_iff.mp hw
    have hfollows : w.Follows z := hgetw ▸ hgetz ▸ List.isChain_iff_getElem.mp hheaded.run i hlt
    have hplain : z.role = .atom ∨ z.role = .opener := by
      rcases hfollows with ⟨-, h⟩ | hcloser
      · exact h
      · have hw' := Spine.mem_of_mem_ofTokens hts w
          (mem_allTokens_of_at? hn (mem_allTokens_of_mem_tokens (List.mem_of_getElem? hw)))
        simp [((hts w hw').of_bracket hcloser).1] at hword
    have hwz : w.span.stop ≤ z.span.start := hgetw ▸ hgetz ▸
      List.pairwise_iff_getElem.mp ((Spine.ordered_ofTokens hts ho).at? hn).1.own i (i + 1) (by omega) hlt (by omega)
    have hzu : z.span.stop ≤ u.span.start := hheaded.leads z (List.mem_of_getElem? hz) hplain c hc u hu
    have := hroom z (List.mem_of_getElem? hz)
    omega

/-- Back from the end of a word in the first element, it makes a pair with the token before it. -/
theorem pairAt_word (hn : (Spine.ofTokens ts).tree.at? [0] = some n) (hv : n.tokens[i]? = some v)
    (hw : n.tokens[i + 1]? = some w) (hword : w.role = .atom) :
    (Spine.ofTokens ts).tree.pairAt w.span.stop .backward = .ok ⟨v.span, w.span⟩ := by
  have hordered := Spine.ordered_ofTokens hts ho
  have hroom : ∀ u ∈ (Spine.ofTokens ts).tree.allTokens, u.span.start < u.span.stop := fun u hu =>
    hpos u (Spine.mem_of_mem_ofTokens hts u hu)
  have hlocate := locate?_of_own hordered hroom hn (by simp) (List.mem_of_getElem? hw) fun c hc =>
    Or.inr (lt_start_of_word hts ho hpos hn hw hword c hc)
  have hpair := tokenPair_backward (hordered.at? hn).1
    (fun u hu => hroom u (mem_allTokens_of_at? hn (mem_allTokens_of_mem_tokens hu))) hv hw
  have hneighbors : (Spine.ofTokens ts).tree.leftNeighbors [0] = ⟨none, some []⟩ := rfl
  simp [pairAt, hlocate, neighbors, hneighbors, hn, hpair]

end Words
end Node
end SiblingSwap
