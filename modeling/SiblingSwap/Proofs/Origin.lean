import SiblingSwap.Proofs.Enclosure
import SiblingSwap.Proofs.Kept

/-! Where an element comes from. The first token of an element starts a piece of the spine, the tokens that follow make
    it grow, and when one of them leaves it, the piece is the element for good. So the tokens of an element stand in
    one run of the tokens that were read, and reading the run is what builds the element. -/

namespace SiblingSwap

/-! ### Tokens of a piece -/

namespace Spine
variable {f g q s w : Spine} {t : Token} {p : Node} {ps : List Node}

theorem ofTokens_append (ts us : List Token) : ofTokens (ts ++ us) = (ofTokens ts).feed us := List.foldl_append

theorem mem_of_mem_feed {ts : List Token} (hs : Sound s) (hts : ∀ t ∈ ts, t.Classified) {u : Token}
    (hu : u ∈ (s.feed ts).tree.allTokens) : u ∈ s.tree.allTokens ∨ u ∈ ts := by
  induction ts generalizing s with
  | nil => exact Or.inl hu
  | cons t ts ih =>
    have ht := hts t (by simp)
    have hread := reads_add s ht
    rcases ih (hread.sound hs ht) (fun v hv => hts v (by simp [hv])) hu with hu | hu
    · rcases hread.allTokens_perm hs ht with heq | hperm
      · exact Or.inl (heq ▸ hu)
      · rcases List.mem_cons.mp (hperm.mem_iff.mp hu) with rfl | hu
        · exact Or.inr (by simp)
        · exact Or.inl hu
    · exact Or.inr (by simp [hu])

theorem looser?_tree {priority : Int} {n : Node} {qs : List Node} (h : looser? priority n qs = some w) :
    w.tree = n.under qs := by
  induction qs generalizing n with
  | nil =>
    simp only [looser?] at h
    split at h
    · cases h
    · exact Option.some.inj h ▸ rfl
  | cons q qs ih =>
    simp only [looser?] at h
    split at h
    · exact ih h
    · exact Option.some.inj h ▸ rfl

/-- What a token does inside a piece: nothing, or one of three things to one of its elements. -/
theorem within_cases (h : f.within t = some g) :
    g = f ∨ ∃ w : Spine, w.tree = f.tree ∧ (g = w.join t ∨ g = w.append t ∨ g = w.wrap t) := by
  have hplace : ∀ {q : Spine}, q.tree = f.tree → q.place? t = some g →
      ∃ w : Spine, w.tree = f.tree ∧ (g = w.join t ∨ g = w.append t ∨ g = w.wrap t) := by
    intro q hq hg
    obtain ⟨w, hw, rfl⟩ := Option.map_eq_some_iff.mp hg
    exact ⟨w, (looser?_tree hw).trans hq, Or.inr (Or.inr rfl)⟩
  unfold within at h
  split at h
  · exact Or.inl (Option.some.inj h).symm
  refine Or.inr ?_
  split at h
  · exact ⟨f, rfl, Or.inl (Option.some.inj h).symm⟩
  obtain ⟨q, hq, hg⟩ := Option.bind_eq_some_iff.mp h
  have hq : q.tree = f.tree := by
    unfold host? at hq
    split at hq
    · exact Option.some.inj hq ▸ rfl
    · obtain ⟨n, _ | ⟨p, ps⟩⟩ := f
      · cases hq
      · exact Option.some.inj hq ▸ rfl
  unfold after at hg
  split at hg
  · exact ⟨q, hq, Or.inr (Or.inl (Option.some.inj hg).symm)⟩
  · exact ⟨q, hq, Or.inr (Or.inl (Option.some.inj hg).symm)⟩
  · exact hplace hq hg
  · split at hg
    · next closer w hw =>
      split at hg
      · exact ⟨w, (climbs_waiting? hw).1.tree_eq.trans hq, Or.inl (Option.some.inj hg).symm⟩
      · exact hplace hq hg
    · exact hplace hq hg

theorem within_allTokens (h : f.within t = some g) :
    g.tree = f.tree ∨ g.tree.allTokens.Perm (t :: f.tree.allTokens) := by
  rcases within_cases h with rfl | ⟨w, hw, rfl | rfl | rfl⟩
  · exact Or.inl rfl
  · exact Or.inr (hw ▸ Node.allTokens_under_perm (w.focus.allTokens_absorb_perm t) w.above)
  · exact Or.inr (hw ▸ Node.allTokens_under_perm (w.focus.allTokens_addChild_perm t) w.above)
  · exact Or.inr (hw ▸ Node.allTokens_under_perm (w.focus.allTokens_wrapLast_perm t) w.above)

/-- The uppermost element of a piece keeps its tokens. -/
theorem within_tokens (h : f.within t = some g) : f.tree.tokens <+: g.tree.tokens := by
  rcases within_cases h with rfl | ⟨w, hw, rfl | rfl | rfl⟩
  · exact List.prefix_refl _
  · rw [← hw]
    obtain ⟨n, _ | ⟨p, ps⟩⟩ := w
    · exact List.prefix_append _ _
    · rw [show (join t ⟨n, p :: ps⟩).tree.tokens = _ from tokens_under_cons _ (p.push n) p ps rfl]
      exact List.prefix_refl _
  · rw [← hw, show (w.append t).tree.tokens = w.tree.tokens from tokens_under_cons _ w.focus w.focus w.above rfl]
  · rw [← hw, show (w.wrap t).tree.tokens = w.tree.tokens from tokens_under_cons _ w.focus ⟨_, _⟩ w.above rfl]

namespace Grows
variable {v : Token → Prop} {ts : List Token}

theorem mem_allTokens (h : Grows v f ts g) :
    (∀ u ∈ f.tree.allTokens, u ∈ g.tree.allTokens) ∧ ∀ u ∈ g.tree.allTokens, u ∈ f.tree.allTokens ∨ u ∈ ts := by
  induction h with
  | nil => exact ⟨fun u hu => hu, fun u hu => Or.inl hu⟩
  | @within f f' g t ts inside _ ih =>
    obtain ⟨hkeep, honly⟩ := ih
    rcases within_allTokens inside with heq | hperm
    · rw [heq] at hkeep honly
      exact ⟨hkeep, fun u hu => (honly u hu).imp_right (List.mem_cons_of_mem t)⟩
    · refine ⟨fun u hu => hkeep u (hperm.mem_iff.mpr (List.mem_cons_of_mem t hu)), fun u hu => ?_⟩
      rcases honly u hu with hu | hu
      · rcases List.mem_cons.mp (hperm.mem_iff.mp hu) with rfl | hu
        · exact Or.inr (by simp)
        · exact Or.inl hu
      · exact Or.inr (by simp [hu])
  | @wrap f g t ts _ _ _ ih =>
    obtain ⟨hkeep, honly⟩ := ih
    have hwrap : ∀ u, u ∈ (Spine.tree ⟨⟨[t], [f.tree]⟩, []⟩).allTokens ↔ u = t ∨ u ∈ f.tree.allTokens := by
      intro u
      exact Node.mem_allTokens.trans (by simp [Spine.tree, Node.under])
    refine ⟨fun u hu => hkeep u ((hwrap u).mpr (Or.inr hu)), fun u hu => ?_⟩
    rcases honly u hu with hu | hu
    · rcases (hwrap u).mp hu with rfl | hu
      · exact Or.inr (by simp)
      · exact Or.inl hu
    · exact Or.inr (by simp [hu])

/-- The uppermost element of a piece is the one it started with, or comes from a token that adopted the piece. -/
theorem head?_tokens (h : Grows v f ts g) {x : Token} (hx : f.tree.tokens.head? = some x) :
    ∃ y, g.tree.tokens.head? = some y ∧ (y = x ∨ v y) := by
  have keep : ∀ {l l' : List Token} {z : Token}, l <+: l' → l.head? = some z → l'.head? = some z := by
    rintro l l' z ⟨k, rfl⟩ hz
    rw [List.head?_append, hz]
    rfl
  induction h generalizing x with
  | nil => exact ⟨x, hx, Or.inl rfl⟩
  | within inside _ ih => exact ih (keep (within_tokens inside) hx)
  | @wrap f g t ts _ allowed _ ih =>
    obtain ⟨y, hy, hyt | hv⟩ := ih (x := t) rfl
    · exact ⟨y, hy, Or.inr (hyt ▸ allowed)⟩
    · exact ⟨y, hy, Or.inr hv⟩

end Grows

/-- Only the root has no token. -/
theorem filled_of_ordered (h : (p.under ps).Ordered) (hnil : p.tokens = []) : ps = [] := by
  cases ps with
  | nil => rfl
  | cons q qs => exact absurd hnil ((Node.Ordered.of_under (n := q.push p) h).filled p (by simp))

/-! ### The latest token -/

theorem Reads.getLast?_focus {s' : Spine} (h : Reads s t s') : s' = s ∧ s.focus.role.expectsMore ∨
    s'.focus.tokens.getLast? = some t := by
  cases h with
  | drop _ more => exact Or.inl ⟨rfl, more⟩
  | join => exact Or.inr (by simp [Spine.join, Node.absorb])
  | append => exact Or.inr rfl
  | close => exact Or.inr (by simp [Spine.join, Node.absorb])
  | wrap => exact Or.inr rfl

/-- The focus has the latest token. It was read last, unless line breaks were dropped after it. -/
theorem latest_ofTokens {ts : List Token} (hts : ∀ t ∈ ts, t.Classified) (ho : ts.Pairwise Token.Before) :
    (ofTokens ts).tree.allTokens = [] ∨ ∃ e, (ofTokens ts).focus.tokens.getLast? = some e ∧
      (∀ u ∈ (ofTokens ts).tree.allTokens, u = e ∨ u.Before e) ∧
      (¬(ofTokens ts).focus.role.expectsMore → ts.getLast? = some e) := by
  refine ofTokens_induction_inOrder (P := fun ts s => s.tree.allTokens = [] ∨ ∃ e, s.focus.tokens.getLast? = some e ∧
    (∀ u ∈ s.tree.allTokens, u = e ∨ u.Before e) ∧ (¬s.focus.role.expectsMore → ts.getLast? = some e))
    (Or.inl rfl) ?_ hts ho
  intro ts t _ ht hs hlate ih
  rcases (reads_add (ofTokens ts) ht).getLast?_focus with ⟨heq, hmore⟩ | hlast
  · rw [heq]
    refine ih.imp_right ?_
    rintro ⟨e, he, hbefore, -⟩
    exact ⟨e, he, hbefore, fun h => absurd hmore h⟩
  · refine Or.inr ⟨t, hlast, fun u hu => ?_, fun _ => by simp⟩
    have hsingle : ∀ v ∈ [t], v.Classified := by simpa using ht
    rcases mem_of_mem_feed hs hsingle hu with hu | hu
    · exact Or.inr (hlate u hu)
    · exact Or.inl (List.mem_singleton.mp hu)

/-! ### Addresses that move -/

/-- Later tokens leave everyone who was there in place, up to a renaming of the addresses. -/
theorem exists_move {ts : List Token} (hs : Sound s) (hts : ∀ t ∈ ts, t.Classified) :
    ∃ move : Address → Address, (∀ a b, move a <:+ move b ↔ a <:+ b) ∧
      ∀ a us, s.tree.tokensAt? a = some us → ∃ vs, (s.feed ts).tree.tokensAt? (move a) = some vs ∧ us <+: vs := by
  induction ts generalizing s with
  | nil => exact ⟨id, fun _ _ => Iff.rfl, fun a us hus => ⟨us, hus, List.prefix_refl _⟩⟩
  | cons t ts ih =>
    have ht := hts t (by simp)
    obtain ⟨move, hmove, hkept⟩ := ih ((reads_add s ht).sound hs ht) fun u hu => hts u (by simp [hu])
    cases hdrop : s.toDraft.drops t with
    | true =>
      have hdrop : t.text = ['\n'] ∧ s.focus.role.expectsMore = true := by
        simpa [Draft.drops, focused_toDraft] using hdrop
      have hadd : s.add t = s := by
        simp [add, (ht.of_stop (Or.inr hdrop.1)).1, addCloser, hdrop]
      rw [hadd] at hkept
      exact ⟨move, hmove, by rw [feed_cons, hadd]; exact hkept⟩
    | false =>
      have hset := settles_add hs ht hdrop
      refine ⟨move ∘ s.toDraft.move t, fun a b => (hmove _ _).trans (hset.suffix_iff a b), fun a us hus => ?_⟩
      obtain ⟨vs, hvs, hprefix⟩ := hkept _ _ (hset.kept a us hus)
      refine ⟨vs, hvs, List.IsPrefix.trans ?_ hprefix⟩
      split
      · exact List.prefix_append _ _
      · exact List.prefix_refl _

end Spine

/-! ### The place of a token -/

section Read
variable {ts : List Token} (hts : ∀ t ∈ ts, t.Classified) (ho : ts.Pairwise Token.Before)
  (hpos : ∀ t ∈ ts, t.span.start < t.span.stop)
include hts ho hpos

theorem Node.address_eq {a b : Address} {n m : Node} {t : Token} (hn : (Spine.ofTokens ts).tree.at? a = some n)
    (hm : (Spine.ofTokens ts).tree.at? b = some m) (ht : t ∈ n.tokens) (ht' : t ∈ m.tokens) : a = b := by
  have hgrouped := Grouped.ofTokens hts
  obtain ⟨k, hk, ha⟩ := hgrouped.exists_place hn ht
  obtain ⟨k', hk', hb⟩ := hgrouped.exists_place hm ht'
  obtain rfl := Token.index_eq ho hpos hk hk'
  simpa using ha.symm.trans hb

/-- Who has a token that is below an element is below the element. -/
theorem Node.suffix_of_mem_tokens {a b : Address} {n m : Node} {t : Token}
    (hn : (Spine.ofTokens ts).tree.at? a = some n) (hm : (Spine.ofTokens ts).tree.at? b = some m)
    (ht : t ∈ n.tokens) (ht' : t ∈ m.allTokens) : b <:+ a := by
  obtain ⟨x, k, hk, htk⟩ := exists_at?_of_mem_allTokens m ht'
  have hat : (Spine.ofTokens ts).tree.at? (x ++ b) = some k := by rw [at?_append, hm]; exact hk
  rw [address_eq hts ho hpos hn hat ht htk]
  exact List.suffix_append x b

/-- Of two elements with a token in common, one is below the other. -/
theorem Node.suffix_or_suffix {a b : Address} {n m : Node} {t : Token}
    (hn : (Spine.ofTokens ts).tree.at? a = some n) (hm : (Spine.ofTokens ts).tree.at? b = some m)
    (ht : t ∈ n.allTokens) (ht' : t ∈ m.allTokens) : a <:+ b ∨ b <:+ a := by
  obtain ⟨x, k, hk, htk⟩ := exists_at?_of_mem_allTokens n ht
  have hat : (Spine.ofTokens ts).tree.at? (x ++ a) = some k := by rw [at?_append, hn]; exact hk
  exact List.suffix_or_suffix_of_suffix (List.suffix_append x a) (suffix_of_mem_tokens hts ho hpos hat hm htk ht')

/-! ### The first token of an element -/

/-- The token is a word or an opener that becomes a child of its own below `p`. -/
structure Spine.Appended (before : List Token) (t : Token) (p : Node) (ps : List Node) : Prop where
  role : t.role = .atom ∨ t.role = .opener
  focus : (ofTokens before).focus.role ≠ .atom
  host : p = (ofTokens before).host.focus
  above : ps = (ofTokens before).host.above

section First
variable {before rest : List Token} {t : Token} (hlist : ts = before ++ t :: rest) {r : Address} {y : Node}
  (hy : (Spine.ofTokens ts).tree.at? r = some y) (ht : t ∈ y.allTokens) (hfirst : ∀ u ∈ before, u ∉ y.allTokens)
include hlist hy ht hfirst

/-- When the first token of an element has been read, nothing that was there is below the one who has it. -/
theorem Spine.notMem_of_first {a b : Address} {us vs : List Token}
    (ha : ((Spine.ofTokens before).add t).tree.tokensAt? a = some us) (hus : t ∈ us) (hab : a <:+ b)
    (hb : ((Spine.ofTokens before).add t).tree.tokensAt? b = some vs) : ∀ u ∈ vs, u ∉ before := by
  intro u hu hbefore
  have hinit : ∀ v ∈ before, v.Classified := fun v hv => hts v (by simp [hlist, hv])
  have hcl : t.Classified := hts t (by simp [hlist])
  have hsound := (reads_add _ hcl).sound (sound_ofTokens hinit) hcl
  have hrest : ∀ v ∈ rest, v.Classified := fun v hv => hts v (by simp [hlist, hv])
  obtain ⟨move, hmove, hkept⟩ := exists_move hsound hrest
  have hfeed : (((ofTokens before).add t).feed rest) = ofTokens ts := by
    rw [hlist, ofTokens_append, feed_cons]
  rw [hfeed] at hkept
  obtain ⟨us', hus', husPrefix⟩ := hkept a us ha
  obtain ⟨vs', hvs', hvsPrefix⟩ := hkept b vs hb
  obtain ⟨n, hn, rfl⟩ := Option.map_eq_some_iff.mp hus'
  obtain ⟨m, hm, rfl⟩ := Option.map_eq_some_iff.mp hvs'
  have hsuffix := Node.suffix_of_mem_tokens hts ho hpos hn hy (husPrefix.subset hus) ht
  obtain ⟨x, hx⟩ := hsuffix.trans ((hmove a b).mpr hab)
  rw [← hx, Node.at?_append, hy] at hm
  exact hfirst u hbefore (Node.mem_allTokens_of_at? hm (Node.mem_allTokens_of_mem_tokens (hvsPrefix.subset hu)))

/-- The first token of an element starts a piece of its own. -/
theorem Spine.exists_add_first : ∃ p ps, (Spine.ofTokens before).add t = Spine.on ⟨.leaf t, []⟩ (p :: ps) ∧
    (∀ u ∈ p.allTokens, u ∈ before) ∧
    (Spine.Appended before t p ps ∨ (t.role = .operator ∨ t.role = .closer) ∧ p.children = []) := by
  have hinit : ∀ v ∈ before, v.Classified := fun v hv => hts v (by simp [hlist, hv])
  have hcl : t.Classified := hts t (by simp [hlist])
  have hs := sound_ofTokens hinit
  have hread := reads_add (ofTokens before) hcl
  have hnew := @Spine.notMem_of_first ts hts ho hpos before rest t hlist r y hy ht hfirst
  have hold : ∀ {w : Spine}, Climbs (ofTokens before) w → ∀ u ∈ w.focus.allTokens, u ∈ before := fun hc u hu =>
    mem_of_mem_ofTokens hinit u (hc.tree_eq ▸ Node.mem_allTokens_under hu)
  -- Whoever a token joins has other tokens, and they were there before.
  have hjoin : ∀ {w : Spine}, Climbs (ofTokens before) w → w.focus.tokens ≠ [] →
      (ofTokens before).add t ≠ w.join t := by
    intro w hc hne hadd
    obtain ⟨u, hu⟩ := List.exists_mem_of_ne_nil _ hne
    have hat := tokensAt?_address (w.join t)
    rw [← hadd] at hat
    refine hnew hat ?_ (List.suffix_refl _) hat u ?_ (hold hc u (Node.mem_allTokens_of_mem_tokens hu))
    · rw [hadd]
      simp [join, Node.absorb]
    · rw [hadd]
      simp [join, Node.absorb, hu]
  generalize hs' : (ofTokens before).add t = s' at hread
  cases hread with
  | drop =>
    -- A token that is dropped is found nowhere.
    have hmem : t ∈ (ofTokens ts).tree.allTokens := Node.mem_allTokens_of_at? hy ht
    have hfeed : (ofTokens before).feed rest = ofTokens ts := by
      rw [hlist, ofTokens_append, feed_cons, hs']
    rw [← hfeed] at hmem
    rw [hlist] at ho
    obtain ⟨-, hrest, hbefore⟩ := List.pairwise_append.mp ho
    have hself : ¬t.Before t := Nat.not_le.mpr (hpos t (by simp [hlist]))
    rcases mem_of_mem_feed hs (fun v hv => hts v (by simp [hlist, hv])) hmem with h | h
    · exact absurd (hbefore t (mem_of_mem_ofTokens hinit t h) t (by simp)) hself
    · exact absurd ((List.pairwise_cons.mp hrest).1 t h) hself
  | join role focus =>
    refine absurd hs' (hjoin (.refl _) fun hnil => ?_)
    simp [Node.role, hnil] at focus
  | append role focus => exact ⟨_, _, rfl, hold hs.climbs_host, Or.inl ⟨role, focus, rfl, rfl⟩⟩
  | close role line waiting =>
    obtain ⟨hclimb, hawaits⟩ := climbs_waiting? waiting
    refine absurd hs' (hjoin hclimb fun hnil => ?_)
    simp [Node.awaits?, hnil] at hawaits
  | wrap role kept other =>
    obtain ⟨-, hclimb, -⟩ := hs.climbs_operator hcl role
    have hw : (ofTokens before).addOperator t = ((ofTokens before).host.climb t.priority).wrap t := rfl
    rw [hw] at hs' ⊢
    generalize (ofTokens before).host.climb t.priority = w at hclimb hs'
    rcases List.eq_nil_or_concat' w.focus.children with hnil | ⟨cs, c, hcs⟩
    · refine ⟨⟨w.focus.tokens, w.focus.children⟩, w.above, by simp [wrap, on, hnil, Node.leaf], ?_, Or.inr ⟨role, hnil⟩⟩
      rw [Node.mk_tokens_children]
      exact hold hclimb
    · have hordered : w.focus.Ordered := by
        have := ordered_ofTokens hinit (List.pairwise_append.mp (hlist ▸ ho)).1
        exact (hclimb.tree_eq ▸ this : w.tree.Ordered).of_under
      obtain ⟨u, hu⟩ := List.exists_mem_of_ne_nil _ (hordered.filled c (by simp [hcs]))
      have hat : (w.wrap t).tree.at? (w.wrap t).address = some ⟨[t], [c]⟩ :=
        (Node.at?_under (w.wrap t).focus (w.wrap t).above).trans (by simp [wrap, hcs])
      have hchild : (w.wrap t).tree.tokensAt? (0 :: (w.wrap t).address) = some c.tokens := by
        simp [Node.tokensAt?, Node.at?, hat]
      have hslot : (w.wrap t).tree.tokensAt? (w.wrap t).address = some [t] := by
        simp [Node.tokensAt?, hat]
      rw [← hs'] at hchild hslot
      exact absurd (hold hclimb u (Node.mem_allTokens_of_child (by simp [hcs]) (Node.mem_allTokens_of_mem_tokens hu)))
        (hnew hslot (by simp) (List.suffix_cons _ _) hchild u hu)

/-- A run of tokens that builds a piece below `p`, from the first one on. -/
structure Spine.Built (w : Token → Prop) (before : List Token) (t : Token) (us : List Token) (p : Node)
    (ps : List Node) (g : Spine) : Prop where
  start : (ofTokens before).add t = on ⟨.leaf t, []⟩ (p :: ps)
  earlier : ∀ u ∈ p.allTokens, u ∈ before
  placed : Appended before t p ps ∨ (t.role = .operator ∨ t.role = .closer) ∧ p.children = []
  filled : p.tokens = [] → ps = []
  grows : Grows (fun v => w v ∧ p.Admits v) ⟨.leaf t, []⟩ us g
  result : ofTokens (before ++ t :: us) = g.on (p :: ps)
  piece : g.Piece

theorem Spine.exists_built (w : Token → Prop) : ∃ us vs p ps g, rest = us ++ vs ∧ Built w before t us p ps g ∧
    ∀ u ∈ vs.head?, g.within u = none ∧ (p.Admits u → ¬w u) := by
  obtain ⟨p, ps, hadd, hearlier, hplaced⟩ := exists_add_first hts ho hpos hlist hy ht hfirst
  have hsub : (before ++ [t]).Sublist ts := by
    rw [hlist]
    simp
  have hinit : ∀ v ∈ before ++ [t], v.Classified := fun v hv => hts v (hsub.subset hv)
  have hrest : ∀ v ∈ rest, v.Classified := fun v hv => hts v (by simp [hlist, hv])
  have hstate : ofTokens (before ++ [t]) = on ⟨.leaf t, []⟩ (p :: ps) := by
    rw [ofTokens_concat, hadd]
  have hordered : (ofTokens (before ++ [t])).tree.Ordered := ordered_ofTokens hinit (ho.sublist hsub)
  have hsound := sound_ofTokens hinit
  rw [hstate] at hsound hordered
  have hfilled : p.tokens = [] → ps = [] := (filled_of_ordered (p := p.push (.leaf t)) hordered ·)
  obtain ⟨us, vs, g, rfl, hgrows, hfeed, hpiece, hleave⟩ := exists_grows w (piece_single (hts t (by simp [hlist])) [])
    hsound hfilled hrest
  refine ⟨us, vs, p, ps, g, rfl, ⟨hadd, hearlier, hplaced, hfilled, hgrows, ?_, hpiece⟩, hleave⟩
  rw [ofTokens_append, feed_cons, hadd]
  exact hfeed

end First

/-! ### The element that was built -/

section Built
variable {before us vs : List Token} {t : Token} (hlist : ts = before ++ t :: (us ++ vs)) {w : Token → Prop} {p : Node}
  {ps : List Node} {g : Spine} (hb : Spine.Built w before t us p ps g)
include hlist hb

omit ho hpos in
theorem Spine.Built.sound : Spine.Sound (g.on (p :: ps)) := by
  rw [← hb.result]
  refine sound_ofTokens fun u hu => hts u ?_
  rw [hlist]
  simp only [List.mem_append, List.mem_cons] at hu ⊢
  exact hu.imp_right (Or.imp_right Or.inl)

omit ho hpos in
/-- Where a piece is found that has been left. -/
theorem Spine.Built.exists_at? (hleave : ∀ u ∈ vs.head?, g.within u = none) :
    (∃ a n, (Spine.ofTokens ts).tree.at? a = some n ∧ (p.push g.tree).Extends n ∧ ∀ u ∈ vs.head?, ¬p.Admits u) ∨
      ∃ u v a n, vs.head? = some u ∧ p.Admits u ∧ u.priority ≤ v.priority ∧
        (Spine.ofTokens ts).tree.at? a = some n ∧ Node.Extends ⟨[v], [g.tree]⟩ n := by
  have htree : ofTokens ts = (g.on (p :: ps)).feed vs := by
    rw [hlist, ← hb.result, ← ofTokens_append]
    simp
  rw [htree]
  exact exists_at?_feed hb.piece (hb.sound hts hlist) hb.filled (fun u hu => hts u (by simp [hlist, hu])) hleave

omit hts ho hpos hlist in
theorem Spine.Built.mem_run {u : Token} (hu : u ∈ g.tree.allTokens) : u ∈ t :: us := by
  rcases hb.grows.mem_allTokens.2 u hu with h | h
  · exact (by simpa [Spine.tree, Node.under] using h : u = t) ▸ List.mem_cons_self
  · exact List.mem_cons_of_mem t h

omit hts ho hpos in
theorem Spine.Built.mem_list {u : Token} (hu : u ∈ g.tree.allTokens) : u ∈ ts := by
  rw [hlist]
  exact List.mem_append_right before (List.mem_append_left vs (hb.mem_run hu))

omit hts in
/-- The tokens of a piece are those of its run. -/
theorem Spine.Built.notMem_before : t ∈ g.tree.allTokens ∧ ∀ u ∈ g.tree.allTokens, u ∉ before := by
  refine ⟨hb.grows.mem_allTokens.1 t (by simp [Spine.tree, Node.under]), fun u hu hbefore => ?_⟩
  have hlate : u ∈ t :: us ++ vs := List.mem_append_left vs (hb.mem_run hu)
  rw [hlist] at ho
  exact absurd ((List.pairwise_append.mp ho).2.2 u hbefore u hlate)
    (Nat.not_le.mpr (hpos u (by rw [hlist]; exact List.mem_append_left _ hbefore)))

omit hpos in
theorem Spine.Built.ordered : g.tree.Ordered := by
  have hsub : (before ++ t :: us).Sublist ts := by
    rw [hlist]
    simp
  have hordered := ordered_ofTokens (fun u hu => hts u (hsub.subset hu)) (ho.sublist hsub)
  rw [hb.result, tree_on] at hordered
  exact hordered.of_under

/-- The focus of a piece has its last token. It is the last one of the run, when nothing more is expected. -/
theorem Spine.Built.exists_last : ∃ e, g.focus.tokens.getLast? = some e ∧
    (∀ u ∈ g.tree.allTokens, u = e ∨ u.Before e) ∧ (¬g.focus.role.expectsMore → (t :: us).getLast? = some e) := by
  have hsub : (before ++ t :: us).Sublist ts := by
    rw [hlist]
    simp
  have hlatest := latest_ofTokens (fun u hu => hts u (hsub.subset hu)) (ho.sublist hsub)
  rw [hb.result, List.getLast?_append_of_ne_nil _ (List.cons_ne_nil t us)] at hlatest
  have hmem : ∀ u ∈ g.tree.allTokens, u ∈ (g.on (p :: ps)).tree.allTokens := fun u hu => by
    rw [tree_on]
    exact Node.mem_allTokens_under hu
  rcases hlatest with hnil | ⟨e, he, hbefore, hlast⟩
  · have := hmem t (hb.notMem_before ho hpos hlist).1
    rw [hnil] at this
    cases this
  · exact ⟨e, he, fun u hu => hbefore u (hmem u hu), hlast⟩

theorem Spine.Built.address_eq {a : Address} {n : Node} (hn : (Spine.ofTokens ts).tree.at? a = some n)
    (hgrown : (p.push g.tree).Extends n) {i : Nat} {up : Address} {y m : Node}
    (hy : (Spine.ofTokens ts).tree.at? (i :: up) = some y) (hm : (Spine.ofTokens ts).tree.at? up = some m)
    (ht : t ∈ y.allTokens) (hfirst : ∀ u ∈ before, u ∉ y.allTokens)
    (hparent : up = [] ∨ ∃ u ∈ before, u ∈ m.allTokens) : i = p.children.length ∧ up = a ∧ y = g.tree ∧ m = n := by
  obtain ⟨hfrom, hapart⟩ := hb.notMem_before ho hpos hlist
  have hc : (ofTokens ts).tree.at? (p.children.length :: a) = some g.tree := by
    rw [Node.at?, hn]
    exact hgrown.getElem?_children
  have hordered := ordered_ofTokens hts ho
  -- The element is not above the piece, since the parent of the piece has earlier tokens or is the root.
  have hbelow : p.children.length :: a <:+ i :: up := by
    rcases Node.suffix_or_suffix hts ho hpos hc hy hfrom ht with h | h
    · exact h
    · rcases List.suffix_cons_iff.mp h with h | ⟨x, hx⟩
      · exact h ▸ List.suffix_refl _
      · have hbelow : y.at? x = some n := by rwa [← hx, Node.at?_append, hy] at hn
        by_cases hnil : p.tokens = []
        · have htokens : n.tokens = [] := by
            obtain ⟨-, h | ⟨u, hu, -⟩⟩ := hgrown
            · exact h.trans hnil
            · simp [Node.awaits?, hnil] at hu
          have ha : a = [] := by
            by_contra hne
            exact (hordered.at? hn).2 hne htokens
          simp [ha] at hx
        · obtain ⟨u, hu⟩ := List.exists_mem_of_ne_nil _ hnil
          exact absurd (Node.mem_allTokens_of_at? hbelow (Node.mem_allTokens_of_mem_tokens
            (hgrown.prefix_tokens.subset hu))) (hfirst u (hb.earlier u (Node.mem_allTokens_of_mem_tokens hu)))
  rcases List.suffix_cons_iff.mp hbelow with h | h
  · obtain ⟨rfl, rfl⟩ := List.cons.inj h
    exact ⟨rfl, rfl, Option.some.inj (hy.symm.trans hc), Option.some.inj (hm.symm.trans hn)⟩
  · -- Nor is it below the piece, since its own parent has earlier tokens.
    rcases hparent with rfl | ⟨u, hbefore, hu⟩
    · simp at h
    · obtain ⟨x, hx⟩ := h
      rw [← hx, Node.at?_append, hc] at hm
      exact absurd hbefore (hapart u (Node.mem_allTokens_of_at? hm hu))

variable {i : Nat} {up : Address} {y m : Node} (hy : (Spine.ofTokens ts).tree.at? (i :: up) = some y)
  (hm : (Spine.ofTokens ts).tree.at? up = some m)
include hy hm

/-- The element that has the first token of a piece is the piece, when no token adopts the piece while it grows. -/
theorem Spine.Built.of_owner (hleave : ∀ u ∈ vs.head?, g.within u = none) (hw : ∀ u, ¬w u) (ht : t ∈ y.tokens) :
    y = g.tree ∧ (i = p.children.length ∧ (p.push y).Extends m ∧ (∀ u ∈ vs.head?, ¬p.Admits u) ∨
      i = 0 ∧ ∃ u v, vs.head? = some u ∧ p.Admits u ∧ u.priority ≤ v.priority ∧ Node.Extends ⟨[v], [y]⟩ m) := by
  obtain ⟨u, hu, hut⟩ := hb.grows.head?_tokens (x := t) rfl
  obtain rfl : u = t := hut.resolve_right fun h => hw u h.1
  have hmem : u ∈ g.tree.tokens := List.mem_of_mem_head? hu
  have hfound : ∀ {j : Nat} {a : Address} {n : Node}, (ofTokens ts).tree.at? a = some n →
      n.children[j]? = some g.tree → i = j ∧ y = g.tree ∧ m = n := by
    intro j a n hn hj
    have hc : (ofTokens ts).tree.at? (j :: a) = some g.tree := by rw [Node.at?, hn]; exact hj
    have heq := Node.address_eq hts ho hpos hy hc ht hmem
    obtain ⟨rfl, rfl⟩ := List.cons.inj heq
    exact ⟨rfl, Option.some.inj (hy.symm.trans hc), Option.some.inj (hm.symm.trans hn)⟩
  rcases hb.exists_at? hts hlist hleave with ⟨a, n, hn, hgrown, hadmits⟩ | ⟨u, v, a, n, hu, hadmits, hle, hn, hgrown⟩
  · obtain ⟨hi, rfl, rfl⟩ := hfound hn hgrown.getElem?_children
    exact ⟨rfl, Or.inl ⟨hi, hgrown, hadmits⟩⟩
  · obtain ⟨hi, rfl, rfl⟩ := hfound hn (Node.Extends.getElem?_children (p := ⟨[v], []⟩) hgrown)
    exact ⟨rfl, Or.inr ⟨hi, u, v, hu, hadmits, hle, hgrown⟩⟩

/-- An element with the first token of a piece is the piece, when its parent has an earlier token. -/
theorem Spine.Built.of_parent (hleave : ∀ u ∈ vs.head?, g.within u = none ∧ (p.Admits u → ¬w u)) (hw : ∀ u, w u)
    (ht : t ∈ y.allTokens) (hfirst : ∀ u ∈ before, u ∉ y.allTokens)
    (hparent : up = [] ∨ ∃ u ∈ before, u ∈ m.allTokens) :
    y = g.tree ∧ i = p.children.length ∧ (p.push y).Extends m ∧ ∀ u ∈ vs.head?, ¬p.Admits u := by
  have hadmits : ∀ u ∈ vs.head?, ¬p.Admits u := fun u hu h => (hleave u hu).2 h (hw u)
  rcases hb.exists_at? hts hlist fun u hu => (hleave u hu).1 with ⟨a, n, hn, hgrown, -⟩ | ⟨u, v, a, n, hu, h, -⟩
  · obtain ⟨hi, -, rfl, rfl⟩ := hb.address_eq hts ho hpos hlist hn hgrown hy hm ht hfirst hparent
    exact ⟨rfl, hi, hgrown, hadmits⟩
  · exact absurd h (hadmits u hu)

end Built
end Read
end SiblingSwap
