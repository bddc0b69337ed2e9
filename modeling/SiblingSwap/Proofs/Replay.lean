import SiblingSwap.Proofs.Alike
import SiblingSwap.Proofs.Crossing

/-! Two runs that cross, read in the other order. Each of them builds alike what it built before, below an element like
    the one that the other run was below; in between, what stood for the first element stands for the second one. So the
    two elements are found side by side again, in the other order. -/

namespace SiblingSwap

theorem Token.nodup {ts : List Token} (ho : ts.Pairwise Before) (hpos : ∀ t ∈ ts, t.span.start < t.span.stop) :
    ts.Nodup := by
  refine ho.imp_of_mem fun {t u} ht _ hbefore heq => ?_
  have := hpos t ht
  subst heq
  unfold Token.Before at hbefore
  omega

/-- Below the node stands `x`, and before it `y` or a link of the chain of the node that ends with `y`. -/
def Node.Lines (n y x : Node) : Prop :=
  ∃ cs v ds, n.children = cs ++ v :: x :: ds ∧ (v = y ∧ (n.role = .operator → y.priority ≠ n.priority) ∨
    n.role = .operator ∧ v.priority = n.priority ∧ v.children.getLast? = some y)

namespace Spine

theorem Appended.tree_eq {before : List Token} {t : Token} {p : Node} {ps : List Node} (h : Appended before t p ps)
    (hts : ∀ u ∈ before, u.Classified) : tree ⟨p, ps⟩ = (ofTokens before).tree := by
  rw [h.host, h.above]
  exact (sound_ofTokens hts).climbs_host.tree_eq

/-- What grows from a word or an opener below the host is built by it. -/
theorem Appended.built {before us : List Token} {t : Token} {p : Node} {ps : List Node} {g : Spine}
    {w : Token → Prop} (h : Appended before t p ps) (hts : ∀ u ∈ before ++ t :: us, u.Classified)
    (ho : (before ++ t :: us).Pairwise Token.Before)
    (hgrows : Grows (fun v => w v ∧ p.Admits v) ⟨.leaf t, []⟩ us g) : Built w before t us p ps g := by
  have hinit : ∀ u ∈ before, u.Classified := fun u hu => hts u (by simp [hu])
  have hs := sound_ofTokens hinit
  have htree := h.tree_eq hinit
  have hordered : (tree ⟨p, ps⟩).Ordered := htree ▸ ordered_ofTokens hinit (List.pairwise_append.mp ho).1
  have hfilled : p.tokens = [] → ps = [] := filled_of_ordered hordered
  obtain ⟨hfeed, hpiece⟩ := hgrows.feed_host (fun u hu => hts u (List.mem_append_right _ hu)) h.role hs h.focus
    (fun u _ hw => h.host ▸ hw.2) (by rw [← h.host, ← h.above]; exact hfilled)
  rw [← h.host, ← h.above] at hfeed
  refine ⟨?_, fun u hu => ?_, Or.inl h, hfilled, hgrows, ?_, hpiece⟩
  · rw [add_of_plain h.focus h.role, ← h.host, ← h.above]
  · exact mem_of_mem_ofTokens hinit u (htree ▸ Node.mem_allTokens_under hu)
  · rw [ofTokens_append]
    exact hfeed

theorem host_on {f : Spine} {h : Node} {hs : List Node} (habove : f.above = [])
    (hcomplete : ¬f.focus.role.expectsMore) : (f.on (h :: hs)).host = ⟨h.push f.tree, hs⟩ := by
  obtain ⟨n, qs⟩ := f
  obtain rfl : qs = [] := habove
  have hcomplete : ¬n.role.expectsMore := hcomplete
  simp [on, host, up, tree, Node.under, hcomplete]

/-- What stands for the elements of the first order in the other one: the second neighbour for the first one. -/
def standsFor (k : Token) (y : Node) (u : Token) : Option Node := if u = k then some y else none

theorem standsFor_self (k : Token) (y : Node) : standsFor k y k = some y := if_pos rfl

/-- What becomes of an element that something else stands for. -/
theorem eq_of_becomes {r : Token → Token → Prop} {k : Token} {x y z : Node} (hz : x.Becomes r (standsFor k y) z)
    (hk : k ∈ x.tokens) : z = y := by
  cases hz with
  | swap _ stands =>
    unfold standsFor at stands
    split at stands
    · exact (Option.some.inj stands).symm
    · cases stands
  | keep free =>
    have := free k hk
    simp [standsFor_self] at this

theorem Crossing.standsFor_eq_none {ts : List Token} (c : Crossing ts) (ho : ts.Pairwise Token.Before)
    (hpos : ∀ t ∈ ts, t.span.start < t.span.stop) (y : Node) :
    (∀ u ∈ c.before, standsFor c.key y u = none) ∧ ∀ u ∈ c.mid, standsFor c.key y u = none := by
  have hkey : c.key ∈ c.first.head :: c.first.tail :=
    c.first_of.built.mem_run (Node.mem_allTokens_of_mem_tokens c.key_mem)
  have hnodup := Token.nodup ho hpos
  rw [c.first_of.list, ← List.cons_append] at hnodup
  obtain ⟨-, hlater, hapart⟩ := List.nodup_append.mp hnodup
  obtain ⟨-, -, hapart'⟩ := List.nodup_append.mp hlater
  exact ⟨fun u hu => if_neg (hapart u hu c.key (List.mem_append_left _ hkey)),
    fun u hu => if_neg fun heq => hapart' c.key hkey u (by simp [hu]) heq.symm⟩

/-- The tokens of two runs that cross, each like the one it comes from, with the runs in the other order. -/
structure Crossing.Reordered {ts : List Token} (c : Crossing ts) (r : Token → Token → Prop) where
  before : List Token
  secondHead : Token
  secondTail : List Token
  mid : List Token
  firstHead : Token
  firstTail : List Token
  after : List Token
  like_before : List.Forall₂ (Token.Like r) c.before before
  like_secondHead : c.second.head.Like r secondHead
  like_secondTail : List.Forall₂ (Token.Like r) c.second.tail secondTail
  like_mid : List.Forall₂ (Token.Like r) c.mid mid
  like_firstHead : c.first.head.Like r firstHead
  like_firstTail : List.Forall₂ (Token.Like r) c.first.tail firstTail
  like_after : List.Forall₂ (Token.Like r) c.after after

namespace Crossing.Reordered
variable {r : Token → Token → Prop} {ts : List Token} {c : Crossing ts}

/-- All tokens in the other order. -/
def tokens (d : c.Reordered r) : List Token :=
  d.before ++ d.secondHead :: (d.secondTail ++ (d.mid ++ d.firstHead :: (d.firstTail ++ d.after)))

theorem tokens_eq (d : c.Reordered r) :
    d.tokens = (d.before ++ d.secondHead :: (d.secondTail ++ d.mid)) ++ d.firstHead :: (d.firstTail ++ d.after) := by
  simp [tokens]

variable (d : c.Reordered r) (hts : ∀ t ∈ ts, t.Classified) (ho : ts.Pairwise Token.Before)
  (hpos : ∀ t ∈ ts, t.span.start < t.span.stop) (hts' : ∀ t ∈ d.tokens, t.Classified)
  (ho' : d.tokens.Pairwise Token.Before)
include hts hts' ho'

/-- The second run, read first. -/
theorem exists_second :
    ∃ h' hs' g', Built (fun _ => True) d.before d.secondHead d.secondTail h' hs' g' ∧
      Resembles r (fun _ => none) c.second.piece g' ∧
      Resembles r (fun _ => none) ⟨c.first.host, c.first.above⟩ ⟨h', hs'⟩ := by
  have hinit : ∀ u ∈ c.before, u.Classified := fun u hu => hts u (by simp [c.first_of.list, hu])
  have hinit' : ∀ u ∈ d.before, u.Classified := fun u hu => hts' u (by simp [tokens, hu])
  have hsame := resembles_ofTokens d.like_before hinit hinit'
  have hbelow : Resembles r (fun _ => none) ⟨c.first.host, c.first.above⟩ (ofTokens d.before).host := by
    rw [c.first_of.appended.host, c.first_of.appended.above]
    exact hsame.host (sound_ofTokens hinit) (sound_ofTokens hinit')
  have happended : Appended d.before d.secondHead (ofTokens d.before).host.focus (ofTokens d.before).host.above :=
    ⟨d.like_secondHead.role ▸ c.second_of.appended.role, by rw [← hsame.focus.role]; exact c.first_of.appended.focus,
      rfl, rfl⟩
  have hadmits : ∀ u ∈ c.second.tail, ∀ u' ∈ d.secondTail, u.Like r u' → c.second.takes u ∧ c.second.host.Admits u →
      True ∧ (ofTokens d.before).host.focus.Admits u' := by
    intro u hu u' hu' hlike hw
    have hcl : u.Classified := hts u (by simp [c.second_of.list, hu])
    have hcl' : u'.Classified := hts' u' (by simp [tokens, hu'])
    exact ⟨trivial, (hbelow.focus.admits_iff hlike hcl hcl').mp (c.admits_second u hu hw.1 hw.2)⟩
  have hleaf : Resembles r (fun _ => none) ⟨.leaf c.second.head, []⟩ ⟨.leaf d.secondHead, []⟩ :=
    ⟨.leaf d.like_secondHead rfl, .nil⟩
  obtain ⟨g', hgrows, hg⟩ := c.second_of.built.grows.like hleaf d.like_secondTail (fun _ _ => rfl) hadmits
  have hsub : (d.before ++ d.secondHead :: d.secondTail).Sublist d.tokens := by simp [tokens]
  exact ⟨_, _, g', happended.built (fun u hu => hts' u (hsub.subset hu)) (ho'.sublist hsub) hgrows, hg, hbelow⟩

variable {h' : Node} {hs' : List Node} {g' : Spine}
  (hb : Built (fun _ => True) d.before d.secondHead d.secondTail h' hs' g')
  (hg : Resembles r (fun _ => none) c.second.piece g')
  (hbelow : Resembles r (fun _ => none) ⟨c.first.host, c.first.above⟩ ⟨h', hs'⟩)
include ho hpos hb hg hbelow

omit ho' in
/-- What comes in between leads to the same place, but for what stands there for the first element. -/
theorem resembles_between :
    Resembles r (standsFor c.key g'.tree) (ofTokens (c.before ++ c.first.head :: (c.first.tail ++ c.mid))).host
        (ofTokens (d.before ++ d.secondHead :: (d.secondTail ++ d.mid))).host ∧
      (ofTokens (d.before ++ d.secondHead :: (d.secondTail ++ d.mid))).focus.role ≠ .atom := by
  obtain ⟨hfree, hfreeMid⟩ := c.standsFor_eq_none ho hpos g'.tree
  have hsound := c.first_of.built.sound hts c.first_of.list
  have hsound' := hb.sound hts' rfl
  have hfirst : ofTokens (c.before ++ c.first.head :: (c.first.tail ++ c.mid)) =
      (c.first.piece.on (c.first.host :: c.first.above)).feed c.mid := by
    rw [← c.first_of.built.result, ← ofTokens_append]
    simp
  have hsecond : ofTokens (d.before ++ d.secondHead :: (d.secondTail ++ d.mid)) =
      (g'.on (h' :: hs')).feed d.mid := by
    rw [← hb.result, ← ofTokens_append]
    simp
  -- Both elements are complete, and from here on the second one stands for the first one.
  have hleft : Resembles r (standsFor c.key g'.tree) ⟨c.first.host.push c.first.piece.tree, c.first.above⟩
      ⟨h'.push g'.tree, hs'⟩ := by
    have hold : Resembles r (standsFor c.key g'.tree) ⟨c.first.host, c.first.above⟩ ⟨h', hs'⟩ :=
      hbelow.widen fun u hu => by
        have hinit : ∀ u ∈ c.before, u.Classified := fun u hu => hts u (by simp [c.first_of.list, hu])
        rw [c.first_of.appended.tree_eq hinit] at hu
        exact hfree u (mem_of_mem_ofTokens hinit u hu)
    exact ⟨hold.focus.push (.swap c.key_mem (if_pos rfl)), hold.above⟩
  have hfocus := c.second_of.appended.focus
  rw [hfirst] at hfocus ⊢
  rw [hsecond]
  cases hmid : c.mid with
  | nil =>
    have hmid' : d.mid = [] := List.forall₂_nil_left_iff.mp (hmid ▸ d.like_mid)
    have hleaves : c.second.piece.within c.first.head = none := c.leaves _ (by simp [hmid])
    have hleaves' : c.first.piece.within c.second.head = none := c.first_of.leaves _ (by simp [hmid])
    obtain ⟨habove, hatom, hmore⟩ := of_within_plain c.first_of.appended.role hleaves
    obtain ⟨habove', -⟩ := of_within_plain c.second_of.appended.role hleaves'
    have hrole := hg.focus.role
    have hpiece : g'.above = [] := List.forall₂_nil_left_iff.mp (habove ▸ hg.above)
    rw [hmid', feed_nil, feed_nil, host_on habove' c.first_of.complete, host_on hpiece (hrole ▸ hmore)]
    exact ⟨hleft, fun hr => hatom (hrole.trans hr)⟩
  | cons u mid =>
    rw [hmid] at hfreeMid hfocus
    obtain ⟨u', mid', hu, htail, hmid'⟩ := List.forall₂_cons_left_iff.mp (hmid ▸ d.like_mid)
    have hcl : ∀ v ∈ u :: mid, v.Classified := by
      intro v hv
      rw [← hmid] at hv
      exact hts v (by simp [c.first_of.list, hv])
    have hcl' : ∀ v ∈ u' :: mid', v.Classified := by
      intro v hv
      rw [← hmid'] at hv
      exact hts' v (by simp [tokens, hv])
    have hout : g'.within u' = none := hg.within_eq_none hu rfl (c.leaves u (by simp [hmid]))
    have hnext := hleft.after hu (hfreeMid u (by simp))
    have hleave : Spine.after u ⟨c.first.host.push c.first.piece.tree, c.first.above⟩ = some _ :=
      hsound.after_eq c.first_of.built.piece (hcl u (by simp)) (c.first_of.leaves u (by simp [hmid]))
    rw [hleave, hsound'.after_eq hb.piece (hcl' u' (by simp)) hout] at hnext
    obtain hnext | _ := hnext
    have hadd := (reads_add _ (hcl u (by simp))).sound hsound (hcl u (by simp))
    have hadd' := (reads_add _ (hcl' u' (by simp))).sound hsound' (hcl' u' (by simp))
    have hrest : ∀ v ∈ mid, v.Classified := fun v hv => hcl v (by simp [hv])
    have hrest' : ∀ v ∈ mid', v.Classified := fun v hv => hcl' v (by simp [hv])
    have hsame := hnext.feed hadd hadd' htail hrest hrest' fun v hv => hfreeMid v (by simp [hv])
    rw [hmid']
    exact ⟨hsame.host (hadd.feed hrest) (hadd'.feed hrest'), fun hr => hfocus (hsame.focus.role.trans hr)⟩

/-- The first run, read second. -/
theorem exists_first :
    ∃ p' ps' f', Built (fun _ => True) (d.before ++ d.secondHead :: (d.secondTail ++ d.mid)) d.firstHead d.firstTail
        p' ps' f' ∧
      Resembles r (fun _ => none) c.first.piece f' ∧ c.second.host.Resembles r (standsFor c.key g'.tree) p' := by
  obtain ⟨hhost, hfocus⟩ := d.resembles_between hts ho hpos hts' hb hg hbelow
  have hp := hhost.focus
  rw [← c.second_of.appended.host] at hp
  have happended : Appended (d.before ++ d.secondHead :: (d.secondTail ++ d.mid)) d.firstHead _ _ :=
    ⟨d.like_firstHead.role ▸ c.first_of.appended.role, hfocus, rfl, rfl⟩
  generalize (ofTokens (d.before ++ d.secondHead :: (d.secondTail ++ d.mid))).host = q at hp happended
  have hadmits : ∀ u ∈ c.first.tail, ∀ u' ∈ d.firstTail, u.Like r u' → c.first.takes u ∧ c.first.host.Admits u →
      True ∧ q.focus.Admits u' := by
    intro u hu u' hu' hlike hw
    have hcl : u.Classified := hts u (by simp [c.first_of.list, hu])
    have hcl' : u'.Classified := hts' u' (by simp [tokens, hu'])
    exact ⟨trivial, (hp.admits_iff hlike hcl hcl').mp (c.admits_first u hu hw.1 hw.2)⟩
  have hleaf : Resembles r (fun _ => none) ⟨.leaf c.first.head, []⟩ ⟨.leaf d.firstHead, []⟩ :=
    ⟨.leaf d.like_firstHead rfl, .nil⟩
  obtain ⟨f', hgrows, hf⟩ := c.first_of.built.grows.like hleaf d.like_firstTail (fun _ _ => rfl) hadmits
  have hsub : ((d.before ++ d.secondHead :: (d.secondTail ++ d.mid)) ++ d.firstHead :: d.firstTail).Sublist
      d.tokens := by simp [tokens]
  exact ⟨_, _, f', happended.built (fun u hu => hts' u (hsub.subset hu)) (ho'.sublist hsub) hgrows, hf, hp⟩

end Crossing.Reordered

/-- The two elements are side by side in the other order, below whoever comes of `p'`. -/
theorem Crossing.lines {r : Token → Token → Prop} {ts : List Token} (c : Crossing ts) {g' : Spine} {p' n x' : Node}
    (hg : Resembles r (fun _ => none) c.second.piece g')
    (hp : c.second.host.Resembles r (standsFor c.key g'.tree) p') (hclassified : p'.Classified)
    (hgrown : (p'.push x').Extends n) : n.Lines g'.tree x' := by
  obtain ⟨cs, hcs⟩ := List.getLast?_eq_some_iff.mp c.last
  have hchildren := hp.children
  rw [hcs] at hchildren
  obtain ⟨ds, z, hds, -, hz⟩ := exists_concat_of_forall₂ hchildren
  obtain ⟨es, hes⟩ := hgrown.1
  refine ⟨ds, z, es, by simp [← hes, hds], ?_⟩
  rcases c.link with ⟨hbeside, hpriority⟩ | ⟨hrole, hpriority, hk, hlast⟩
  · obtain rfl := eq_of_becomes hz (hbeside ▸ c.key_mem)
    refine Or.inl ⟨rfl, fun hn => ?_⟩
    have htokens : n.tokens = p'.tokens := hgrown.tokens_eq (by simp [hn])
    have hp' : c.second.host.role = .operator := by
      rw [hp.role]
      simpa [Node.role, htokens] using hn
    have hn' : n.priority = c.second.host.priority := by
      rw [hp.priority]
      simp [Node.priority, htokens]
    rw [hn', ← hg.tree.priority]
    exact hpriority hp'
  · have hp' : p'.role = .operator := hp.role ▸ hrole
    have htokens : n.tokens = p'.tokens := by
      rcases hgrown.2 with h | ⟨u, hu, -⟩
      · exact h
      · have hnone : p'.awaits? = none := hclassified.awaits?_eq_none (by simp [hp'])
        exact absurd (hnone.symm.trans hu) (by simp)
    cases hz with
    | @swap _ _ u mem stands =>
      unfold standsFor at stands
      split at stands
      · next heq => exact absurd (heq ▸ mem) hk
      · cases stands
    | keep free tokens children =>
      have hv : c.beside.Resembles r (standsFor c.key g'.tree) z := ⟨free, tokens, children⟩
      obtain ⟨ks, hks⟩ := List.getLast?_eq_some_iff.mp hlast
      rw [hks] at children
      obtain ⟨ls, y, hls, -, hy⟩ := exists_concat_of_forall₂ children
      obtain rfl := eq_of_becomes hy c.key_mem
      refine Or.inr ⟨by simpa [Node.role, htokens] using hp', ?_, by simp [hls]⟩
      rw [← hv.priority, hpriority, hp.priority]
      simp [Node.priority, htokens]

/-- Runs that cross, read in the other order, build alike elements side by side in the other order. -/
theorem Crossing.Reordered.exists_lines {r : Token → Token → Prop} {ts : List Token} {c : Crossing ts}
    (d : c.Reordered r) (hts : ∀ t ∈ ts, t.Classified) (ho : ts.Pairwise Token.Before)
    (hpos : ∀ t ∈ ts, t.span.start < t.span.stop) (hts' : ∀ t ∈ d.tokens, t.Classified)
    (ho' : d.tokens.Pairwise Token.Before) :
    ∃ (a : Address) (n h' p' : Node) (hs' ps' : List Node) (f' g' : Spine),
      (ofTokens d.tokens).tree.at? a = some n ∧ n.Lines g'.tree f'.tree ∧
      Built (fun _ => True) d.before d.secondHead d.secondTail h' hs' g' ∧
      Built (fun _ => True) (d.before ++ d.secondHead :: (d.secondTail ++ d.mid)) d.firstHead d.firstTail p' ps' f' ∧
      Resembles r (fun _ => none) c.first.piece f' ∧ Resembles r (fun _ => none) c.second.piece g' := by
  obtain ⟨h', hs', g', hb, hg, hbelow⟩ := d.exists_second hts hts' ho'
  obtain ⟨p', ps', f', hb', hf, hp⟩ := d.exists_first hts ho hpos hts' ho' hb hg hbelow
  have hnext : ∀ u' ∈ d.after.head?, f'.within u' = none ∧ ¬p'.Admits u' := by
    intro u' hu'
    obtain ⟨us', hus'⟩ := List.head?_eq_some_iff.mp hu'
    obtain ⟨u, us, hu, -, hus⟩ := List.forall₂_cons_right_iff.mp (hus' ▸ d.like_after)
    obtain ⟨hout, hadmits⟩ := c.after_leaves u (by simp [hus])
    have hcl : u.Classified := hts u (by simp [c.second_of.list, hus])
    refine ⟨hf.within_eq_none hu rfl hout, fun h => hadmits ?_⟩
    exact (hp.admits_iff hu hcl (hts' u' (by simp [tokens, hus']))).mpr h
  have hclassified : p'.Classified := (hb'.sound hts' d.tokens_eq).above p' (by simp [on])
  rcases hb'.exists_at? hts' d.tokens_eq fun u hu => (hnext u hu).1 with ⟨a, n, hn, hgrown, -⟩ | ⟨u, -, -, -, hu, h, -⟩
  · exact ⟨a, n, h', p', hs', ps', f', g', hn, c.lines hg hp hclassified hgrown, hb, hb', hf, hg⟩
  · exact absurd h (hnext u hu).2

end Spine
end SiblingSwap
