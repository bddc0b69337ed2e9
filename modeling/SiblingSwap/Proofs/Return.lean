import SiblingSwap.Proofs.Follow
import SiblingSwap.Proofs.Landing

/-! The way back. After a swap forward the tokens of the lines above and around the cursor are the old ones, each
    carried along with the text it is in. Where they build the two elements again, in the other order, the cursor is
    at the end of the one that was moved, its neighbour to the left is the other one, and a swap backward restores the
    text. -/

namespace SiblingSwap

/-! ### Where tokens are carried -/

/-- Where a span lies after the texts of the pair were exchanged. -/
def Pair.carry (p : Pair) (s : Span) : Span :=
  if s.stop ≤ p.first.start then s
  else if s.stop ≤ p.first.stop then
    ⟨s.start + (p.second.stop - p.first.stop), s.stop + (p.second.stop - p.first.stop)⟩
  else if s.stop ≤ p.second.start then
    ⟨s.start + (p.second.stop - p.second.start) - (p.first.stop - p.first.start),
      s.stop + (p.second.stop - p.second.start) - (p.first.stop - p.first.start)⟩
  else if s.stop ≤ p.second.stop then
    ⟨s.start - (p.second.start - p.first.start), s.stop - (p.second.start - p.first.start)⟩
  else s

namespace Token

/-- The token where it is carried. -/
def carry (p : Pair) (t : Token) : Token := { t with span := p.carry t.span }

theorem like_carry {r : Token → Token → Prop} {p : Pair} {t : Token} (h : r t (t.carry p)) : t.Like r (t.carry p) :=
  ⟨rfl, rfl, rfl, fun _ => rfl, h⟩

theorem forall₂_like_carry {r : Token → Token → Prop} {p : Pair} {ts : List Token} (h : ∀ t ∈ ts, r t (t.carry p)) :
    List.Forall₂ (Like r) ts (ts.map (carry p)) :=
  List.forall₂_map_right_iff.mpr (List.forall₂_same.mpr fun t ht => like_carry (h t ht))

end Token

theorem Pair.Cuts.pairwise {p : Pair} {a x m y z : List Token} (h : p.Cuts a x m y z)
    (hfirst : p.first.start ≤ p.first.stop) (hapart : p.first.stop ≤ p.second.start)
    (hsecond : p.second.start ≤ p.second.stop) (ho : ∀ ts ∈ [a, x, m, y, z], ts.Pairwise Token.Before) :
    (a ++ x ++ m ++ y ++ z).Pairwise Token.Before := by
  obtain ⟨ha, hx, hm, hy, hz⟩ := h
  simp only [List.mem_cons, List.not_mem_nil, or_false, forall_eq_or_imp, forall_eq] at ho
  simp only [List.pairwise_append, List.mem_append, ho, true_and]
  unfold Token.Before
  grind

section Carry
variable {p : Pair} {text : List Char} {a x m y z : List Token} (hcuts : p.Cuts a x m y z) (hfits : p.Fits text)
  (hpos : ∀ t ∈ a ++ x ++ m ++ y ++ z, t.span.start < t.span.stop)
include hcuts hfits hpos

/-- Each of the five parts is shifted as a whole. -/
theorem Pair.Cuts.carry_eq :
    (∀ t ∈ a, p.carry t.span = t.span) ∧
    (∀ t ∈ x, p.carry t.span =
      ⟨t.span.start + (p.second.stop - p.first.stop), t.span.stop + (p.second.stop - p.first.stop)⟩) ∧
    (∀ t ∈ m, p.carry t.span =
      ⟨t.span.start + (p.second.stop - p.second.start) - (p.first.stop - p.first.start),
        t.span.stop + (p.second.stop - p.second.start) - (p.first.stop - p.first.start)⟩) ∧
    (∀ t ∈ y, p.carry t.span =
      ⟨t.span.start - (p.second.start - p.first.start), t.span.stop - (p.second.start - p.first.start)⟩) ∧
    ∀ t ∈ z, p.carry t.span = t.span := by
  have hfirst := hfits.first
  have hapart := hfits.apart
  have hsecond := hfits.second
  refine ⟨fun t ht => ?_, fun t ht => ?_, fun t ht => ?_, fun t ht => ?_, fun t ht => ?_⟩
  · exact if_pos (hcuts.before t ht)
  · have := hpos t (by simp [ht])
    have := hcuts.first t ht
    rw [carry, if_neg (by omega), if_pos (by omega)]
  · have := hpos t (by simp [ht])
    have := hcuts.between t ht
    rw [carry, if_neg (by omega), if_neg (by omega), if_pos (by omega)]
  · have := hpos t (by simp [ht])
    have := hcuts.second t ht
    rw [carry, if_neg (by omega), if_neg (by omega), if_neg (by omega), if_pos (by omega)]
  · have := hpos t (by simp [ht])
    have := hcuts.after t ht
    rw [carry, if_neg (by omega), if_neg (by omega), if_neg (by omega), if_neg (by omega)]

/-- The pair of the way back cuts the tokens into the same parts, where they are carried. -/
theorem Pair.Cuts.carry : p.slots.Cuts (a.map (Token.carry p)) (y.map (Token.carry p)) (m.map (Token.carry p))
    (x.map (Token.carry p)) (z.map (Token.carry p)) := by
  have hfirst := hfits.first
  have hapart := hfits.apart
  have hsecond := hfits.second
  obtain ⟨ha, hx, hm, hy, hz⟩ := hcuts.carry_eq hfits hpos
  constructor <;> simp only [List.forall_mem_map, Token.carry, slots]
  · intro t ht
    have := hcuts.before t ht
    rw [ha t ht]
    omega
  · intro t ht
    have := hcuts.second t ht
    rw [hy t ht]
    dsimp only
    omega
  · intro t ht
    have := hcuts.between t ht
    rw [hm t ht]
    dsimp only
    omega
  · intro t ht
    have := hcuts.first t ht
    rw [hx t ht]
    dsimp only
    omega
  · intro t ht
    have := hcuts.after t ht
    rw [hz t ht]
    omega

/-- The way back takes the spans of the two parts where they are carried. -/
theorem Pair.Cuts.slots_eq {s t e k : Token} (hs : s ∈ x) (he : e ∈ x) (ht : t ∈ y) (hk : k ∈ y)
    (hp : p = ⟨⟨s.span.start, e.span.stop⟩, ⟨t.span.start, k.span.stop⟩⟩) :
    p.slots = ⟨⟨(t.carry p).span.start, (k.carry p).span.stop⟩, ⟨(s.carry p).span.start, (e.carry p).span.stop⟩⟩ := by
  have hfirst := hfits.first
  have hapart := hfits.apart
  have hsecond := hfits.second
  obtain ⟨-, hx, -, hy, -⟩ := hcuts.carry_eq hfits hpos
  simp only [Token.carry, hx s hs, hx e he, hy t ht, hy k hk]
  subst hp
  simp only [slots, Pair.mk.injEq, Span.mk.injEq] at hfirst hapart hsecond ⊢
  omega

/-- Tokens in order are in order again after the exchange. -/
theorem Pair.Cuts.pairwise_carry (ho : (a ++ x ++ m ++ y ++ z).Pairwise Token.Before) :
    ((a ++ y ++ m ++ x ++ z).map (Token.carry p)).Pairwise Token.Before := by
  have hfirst := hfits.first
  have hapart := hfits.apart
  have hsecond := hfits.second
  obtain ⟨ha, hx, hm, hy, hz⟩ := hcuts.carry_eq hfits hpos
  simp only [List.map_append]
  refine (hcuts.carry hfits hpos).pairwise ?_ ?_ ?_ ?_
  · simp [slots]
  · simp only [slots]
    omega
  · simp only [slots]
    omega
  · have hshift : ∀ {ts : List Token}, ts.Pairwise Token.Before →
        (∀ u ∈ ts, ∀ v ∈ ts, u.span.stop ≤ v.span.start → (p.carry u.span).stop ≤ (p.carry v.span).start) →
        (ts.map (Token.carry p)).Pairwise Token.Before := fun ho h =>
      List.pairwise_map.mpr (ho.imp_of_mem fun hu hv => h _ hu _ hv)
    simp only [List.pairwise_append] at ho
    obtain ⟨⟨⟨⟨hoa, hox, -⟩, hom, -⟩, hoy, -⟩, hoz, -⟩ := ho
    simp only [List.mem_cons, List.not_mem_nil, or_false, forall_eq_or_imp, forall_eq]
    refine ⟨hshift hoa ?_, hshift hoy ?_, hshift hom ?_, hshift hox ?_, hshift hoz ?_⟩ <;> intro u hu v hv huv
    · rwa [ha u hu, ha v hv]
    · rw [hy u hu, hy v hv]
      exact Nat.sub_le_sub_right huv _
    · rw [hm u hu, hm v hv]
      exact Nat.sub_le_sub_right (Nat.add_le_add_right huv _) _
    · rw [hx u hu, hx v hv]
      exact Nat.add_le_add_right huv _
    · rwa [hz u hu, hz v hv]

/-- A list in order of the same tokens, each where it is carried, is the list with the two parts exchanged. -/
theorem Pair.Cuts.eq_of_perm (ho : (a ++ x ++ m ++ y ++ z).Pairwise Token.Before) {ts : List Token}
    (ho' : ts.Pairwise Token.Before) (hpos' : ∀ t ∈ ts, t.span.start < t.span.stop)
    (hperm : ts.Perm ((a ++ x ++ m ++ y ++ z).map (Token.carry p))) :
    ts = (a ++ y ++ m ++ x ++ z).map (Token.carry p) := by
  have hexchanged : (a ++ x ++ m ++ y ++ z).Perm (a ++ y ++ m ++ x ++ z) := by
    rw [List.perm_iff_count]
    intro t
    simp only [List.count_append]
    omega
  refine List.Perm.eq_of_pairwise (fun t u ht hu htu hut => ?_) ho' (hcuts.pairwise_carry hfits hpos ho)
    (hperm.trans (hexchanged.map _))
  have := hpos' t ht
  have := hpos' u ((hperm.trans (hexchanged.map _)).mem_iff.mpr hu)
  unfold Token.Before at htu hut
  omega

end Carry

/-! ### Two runs that change places -/

/-- Two runs of tokens are cut out by the pair of their spans. -/
theorem Pair.cuts_of_runs {before us mid vs after : List Token} {s t e k : Token}
    (ho : (before ++ (s :: us) ++ mid ++ (t :: vs) ++ after).Pairwise Token.Before)
    (hpos : ∀ u ∈ before ++ (s :: us) ++ mid ++ (t :: vs) ++ after, u.span.start < u.span.stop)
    (he : (s :: us).getLast? = some e) (hk : (t :: vs).getLast? = some k) :
    Pair.Cuts ⟨⟨s.span.start, e.span.stop⟩, ⟨t.span.start, k.span.stop⟩⟩ before (s :: us) mid (t :: vs) after := by
  have he' := List.mem_of_getLast? he
  have hk' := List.mem_of_getLast? hk
  have hfirst : ∀ u ∈ s :: us, u.span.start < u.span.stop := fun u hu => hpos u (by grind)
  have hsecond : ∀ u ∈ t :: vs, u.span.start < u.span.stop := fun u hu => hpos u (by grind)
  obtain ⟨ho, -, hafter⟩ := List.pairwise_append.mp ho
  obtain ⟨ho, hot, ht⟩ := List.pairwise_append.mp ho
  obtain ⟨ho, -, hmid⟩ := List.pairwise_append.mp ho
  obtain ⟨-, hos, hbefore⟩ := List.pairwise_append.mp ho
  exact {
    before := fun u hu => hbefore u hu s (by simp)
    first := fun u hu => Token.between_of_run hos hfirst he hu
    between := fun u hu => ⟨hmid e (by simp [List.mem_cons.mp he']) u hu, ht u (by simp [hu]) t (by simp)⟩
    second := fun u hu => Token.between_of_run hot hsecond hk hu
    after := fun u hu => hafter k (by simp [List.mem_cons.mp hk']) u hu }

theorem Token.exists_split {ts : List Token} {t u : Token} (ho : ts.Pairwise Before)
    (hpos : ∀ t ∈ ts, t.span.start < t.span.stop) (ht : t ∈ ts) (hu : u ∈ ts) (htu : t.Before u) :
    ∃ before mid after, ts = before ++ [t] ++ mid ++ [u] ++ after := by
  obtain ⟨before, rest, hlist⟩ := List.append_of_mem hu
  have hlt : t.span.start < u.span.start := Nat.lt_of_lt_of_le (hpos t ht) htu
  obtain ⟨before, mid, rfl⟩ := List.append_of_mem (Token.mem_of_start_lt ho hpos hlist ht hlt)
  exact ⟨before, mid, rest, by simp [hlist]⟩

/-- Of two tokens the one is where the other was carried. -/
def Token.Crosses (p : Pair) (t u v v' : Token) : Prop :=
  (v = t → v' = u.carry p) ∧ (v = u → v' = t.carry p)

/-- Two words that change places leave everything as it is, up to where the tokens are. -/
theorem Pair.Cuts.forall₂_crosses {p : Pair} {before mid after : List Token} {t u : Token}
    (hcuts : p.Cuts before [t] mid [u] after) (hp : p = ⟨t.span, u.span⟩) (ht : t.Classified) (hu : u.Classified)
    (hword : t.role = .atom) (hword' : u.role = .atom) (htu : t.Before u) (hroom : t.span.start < t.span.stop)
    (hroom' : u.span.start < u.span.stop) :
    List.Forall₂ (Token.Like (Token.Crosses p t u)) (before ++ [t] ++ mid ++ [u] ++ after)
      ((before ++ [u] ++ mid ++ [t] ++ after).map (Token.carry p)) := by
  unfold Token.Before at htu
  have hother : ∀ v ∈ before ++ mid ++ after, Token.Crosses p t u v (v.carry p) := by
    intro v hv
    rw [hp] at hcuts
    have hplace : v.span.stop ≤ t.span.start ∨ t.span.stop ≤ v.span.start ∧ v.span.stop ≤ u.span.start ∨
        u.span.stop ≤ v.span.start := by
      simp only [List.mem_append, or_assoc] at hv
      exact hv.imp (hcuts.before v) (Or.imp (hcuts.between v) (hcuts.after v))
    constructor <;> rintro rfl <;> omega
  have hpart : ∀ vs ⊆ before ++ mid ++ after,
      List.Forall₂ (Token.Like (Token.Crosses p t u)) vs (vs.map (Token.carry p)) := fun vs hvs =>
    Token.forall₂_like_carry fun v hv => hother v (hvs hv)
  have hne : t ≠ u := by
    rintro rfl
    omega
  have htu' : t.Like (Token.Crosses p t u) (u.carry p) :=
    Token.like_of_atoms ht hu hword hword' ⟨fun _ => rfl, fun h => absurd h hne⟩
  have hut' : u.Like (Token.Crosses p t u) (t.carry p) :=
    Token.like_of_atoms hu ht hword' hword ⟨fun h => absurd h.symm hne, fun _ => rfl⟩
  simp only [List.map_append, List.map_cons, List.map_nil]
  exact List.rel_append (List.rel_append (List.rel_append (List.rel_append (hpart before (by simp))
    (.cons htu' .nil)) (hpart mid (by simp))) (.cons hut' .nil)) (hpart after (by simp))

/-- Two runs that cross, with all tokens where a swap carries them. -/
def Spine.Crossing.carried {ts : List Token} (c : Crossing ts) (p : Pair) : c.Reordered fun _ _ => True where
  before := c.before.map (Token.carry p)
  secondHead := c.second.head.carry p
  secondTail := c.second.tail.map (Token.carry p)
  mid := c.mid.map (Token.carry p)
  firstHead := c.first.head.carry p
  firstTail := c.first.tail.map (Token.carry p)
  after := c.after.map (Token.carry p)
  like_before := Token.forall₂_like_carry fun _ _ => trivial
  like_secondHead := Token.like_carry trivial
  like_secondTail := Token.forall₂_like_carry fun _ _ => trivial
  like_mid := Token.forall₂_like_carry fun _ _ => trivial
  like_firstHead := Token.like_carry trivial
  like_firstTail := Token.forall₂_like_carry fun _ _ => trivial
  like_after := Token.forall₂_like_carry fun _ _ => trivial

section Back
variable {ts ts' : List Token} {text : List Char} {p : Pair} (hfits : p.Fits text)
  (hts : ∀ t ∈ ts, t.Classified) (ho : ts.Pairwise Token.Before) (hpos : ∀ t ∈ ts, t.span.start < t.span.stop)
  (hts' : ∀ t ∈ ts', t.Classified) (ho' : ts'.Pairwise Token.Before) (hpos' : ∀ t ∈ ts', t.span.start < t.span.stop)
  (hperm : ts'.Perm (ts.map (Token.carry p)))
include hfits hts ho hpos hts' ho' hpos' hperm

/-- Runs that cross are found again in the other order. -/
theorem Spine.Crossing.pairAt_back (c : Crossing ts)
    (hroles : c.first.piece.tree.role = .closer ↔ c.second.piece.tree.role = .closer)
    (hp : p = ⟨c.first.piece.tree.bound, c.second.piece.tree.bound⟩) :
    (ofTokens ts').tree.pairAt p.second.stop .backward = .ok p.slots := by
  obtain ⟨e, he, -, hfirst⟩ := c.first_of.built.exists_bound hts ho hpos c.first_of.list c.first_of.complete
  obtain ⟨e', he', -, hsecond⟩ := c.second_of.built.exists_bound hts ho hpos c.second_of.list c.second_of.complete
  have hlist : ts = c.before ++ (c.first.head :: c.first.tail) ++ c.mid ++ (c.second.head :: c.second.tail) ++
      c.after := by simpa using c.first_of.list
  have hcuts : p.Cuts c.before (c.first.head :: c.first.tail) c.mid (c.second.head :: c.second.tail) c.after := by
    rw [hp, hfirst, hsecond]
    exact Pair.cuts_of_runs (hlist ▸ ho) (hlist ▸ hpos) he he'
  obtain rfl : ts' = (c.carried p).tokens := by
    rw [hcuts.eq_of_perm hfits (hlist ▸ hpos) (hlist ▸ ho) ho' hpos' (hlist ▸ hperm)]
    simp [carried, Reordered.tokens]
  obtain ⟨a, n, h', q', hs', qs', f', g', hn, hlines, hb', hb, hf, hg⟩ :=
    (c.carried p).exists_lines hts ho hpos hts' ho'
  have hlist' := (c.carried p).tokens_eq
  have hcomplete : ¬f'.focus.role.expectsMore := hf.focus.role ▸ c.first_of.complete
  have hcomplete' : ¬g'.focus.role.expectsMore := hg.focus.role ▸ c.second_of.complete
  obtain ⟨k₁, hk₁, hlast, hbound⟩ := hb.exists_bound hts' ho' hpos' hlist' hcomplete
  obtain ⟨k₂, hk₂, -, hbound'⟩ := hb'.exists_bound hts' ho' hpos' rfl hcomplete'
  obtain ⟨k, hk, hpair⟩ := hb.exists_pairAt hts' ho' hpos' hlist' (hf.single c.single) hn hlines
  obtain rfl : k = k₁ := Option.some.inj (hk.symm.trans hlast)
  obtain rfl : e.carry p = k := by simpa [carried, ← List.map_cons, List.getLast?_map, he] using hk₁
  obtain rfl : e'.carry p = k₂ := by simpa [carried, ← List.map_cons, List.getLast?_map, he'] using hk₂
  have hroles' : g'.tree.role = .closer ↔ f'.tree.role = .closer := by
    rw [← hg.tree.role, ← hf.tree.role]
    exact hroles.symm
  have hback := hcuts.slots_eq hfits (hlist ▸ hpos) List.mem_cons_self (List.mem_of_getLast? he) List.mem_cons_self
    (List.mem_of_getLast? he') (hp.trans (by rw [hfirst, hsecond]))
  have hstop : p.second.stop = (e.carry p).span.stop := congrArg (·.second.stop) hback
  rw [hstop, hpair, Node.elementPair, if_pos hroles', hbound, hbound', hback]
  rfl

/-- Neighbours that can change places are neighbours again, in the other order. -/
theorem Node.Interchange.pairAt_back {l r : Address} {x y n : Node}
    (hneighbors : (Spine.ofTokens ts).tree.rightNeighbors l = ⟨some l, some r⟩) (hnear : l.length ≤ r.length + 1)
    (hx : (Spine.ofTokens ts).tree.at? l = some x) (hy : (Spine.ofTokens ts).tree.at? r = some y)
    (hn : (Spine.ofTokens ts).tree.at? r.tail = some n) (h : n.Interchange x y (l.length = r.length))
    (hp : p = ⟨x.bound, y.bound⟩) : (Spine.ofTokens ts').tree.pairAt p.second.stop .backward = .ok p.slots := by
  obtain ⟨j, up, rfl, hl⟩ := rightNeighbors_near hneighbors hnear
  obtain ⟨v, hv⟩ : ∃ v, (Spine.ofTokens ts).tree.at? (j :: up) = some v := by
    refine Option.isSome_iff_exists.mp (isSome_at?_of_suffix (b := l) ?_ (by simp [hx]))
    rcases hl with rfl | ⟨i, rfl, -⟩
    · exact List.suffix_refl _
    · exact List.suffix_cons _ _
  have hroles := h.role_iff
  obtain ⟨c, rfl, rfl⟩ := Spine.exists_crossing hts ho hpos hx hy hn hv hl (by simpa using h)
  exact c.pairAt_back hfits hts ho hpos hts' ho' hpos' hperm hroles hp

/-- Two words of the first element are found again in the other order. -/
theorem Node.pairAt_back_of_words {n : Node} {i : Nat} {t u : Token}
    (hn : (Spine.ofTokens ts).tree.at? [0] = some n) (ht : n.tokens[i]? = some t) (hu : n.tokens[i + 1]? = some u)
    (hword : t.role = .atom) (hword' : u.role = .atom) (hp : p = ⟨t.span, u.span⟩) :
    (Spine.ofTokens ts').tree.pairAt p.second.stop .backward = .ok p.slots := by
  have hmem : ∀ {k : Nat} {v : Token}, n.tokens[k]? = some v → v ∈ ts := fun hv =>
    Spine.mem_of_mem_ofTokens hts _ (mem_allTokens_of_at? hn (mem_allTokens_of_mem_tokens (List.mem_of_getElem? hv)))
  have htu : t.Before u := by
    obtain ⟨_, rfl⟩ := List.getElem?_eq_some_iff.mp ht
    obtain ⟨_, rfl⟩ := List.getElem?_eq_some_iff.mp hu
    exact List.pairwise_iff_getElem.mp ((Spine.ordered_ofTokens hts ho).at? hn).1.own _ _ _ _ (Nat.lt_succ_self i)
  obtain ⟨before, mid, after, hlist⟩ := Token.exists_split ho hpos (hmem ht) (hmem hu) htu
  have hcuts : p.Cuts before [t] mid [u] after := by
    rw [hp]
    exact Pair.cuts_of_runs (hlist ▸ ho) (hlist ▸ hpos) rfl rfl
  have hlist' := hcuts.eq_of_perm hfits (hlist ▸ hpos) (hlist ▸ ho) ho' hpos' (hlist ▸ hperm)
  have hlike : List.Forall₂ (Token.Like (Token.Crosses p t u)) ts ts' := by
    rw [hlist, hlist']
    exact hcuts.forall₂_crosses hp (hts t (hmem ht)) (hts u (hmem hu)) hword hword' htu (hpos t (hmem ht))
      (hpos u (hmem hu))
  obtain ⟨n', hn', htokens⟩ := Spine.exists_child_like hlike hts hts' hn
  obtain ⟨t', ht', hlike₁⟩ := exists_getElem?_of_forall₂ htokens ht
  obtain ⟨u', hu', hlike₂⟩ := exists_getElem?_of_forall₂ htokens hu
  obtain rfl := hlike₁.related.1 rfl
  obtain rfl := hlike₂.related.2 rfl
  have hpair := Node.pairAt_word hts' ho' hpos' hn' ht' hu' hword
  have hback := hcuts.slots_eq hfits (hlist ▸ hpos) List.mem_cons_self List.mem_cons_self List.mem_cons_self
    List.mem_cons_self hp
  rw [show p.second.stop = (t.carry p).span.stop from congrArg (·.second.stop) hback, hpair, hback]

end Back

/-- The pair can be exchanged back: its spans are those of neighbours that can change places, or of two words in a row
    in the first element. -/
inductive Node.Turns (tree : Node) (p : Pair) : Prop
  | elements {l r : Address} {x y m : Node} (neighbors : tree.rightNeighbors l = ⟨some l, some r⟩)
      (near : l.length ≤ r.length + 1) (left : tree.at? l = some x) (right : tree.at? r = some y)
      (parent : tree.at? r.tail = some m) (interchange : m.Interchange x y (l.length = r.length))
      (bounds : p = ⟨x.bound, y.bound⟩)
  | words {n : Node} {i : Nat} {t u : Token} (first : tree.at? [0] = some n) (left : n.tokens[i]? = some t)
      (right : n.tokens[i + 1]? = some u) (word : t.role = .atom) (word' : u.role = .atom)
      (spans : p = ⟨t.span, u.span⟩)

namespace Buffer

/-- A swap backward from where a swap forward left the cursor restores the text, when on the lines that it reads the
    tokens were carried along whole, and the pair can be exchanged back. -/
theorem swap_backward_restores (text : List Char) (cursor : Nat) (s : Settings) (p : Pair) (moved : Nat)
    (hfollows : s.followSwap = true) :
    let b := withCursor text cursor
    let b' := (b.swap s .forward).1
    let lines := b'.window b'.cursor .backward s.extendLines
    (b.swap s .forward).2 = .swapped p moved →
    (tokenize b'.text lines).Perm ((tokenize text lines).map (Token.carry p)) →
    (Node.ofTokens (tokenize text lines)).Turns p →
    (b'.swap s .backward).1 = ofText text p.first.start := by
  intro b b' lines hswapped hperm hturns
  obtain ⟨hresolve, -⟩ := swap_eq_of_swapped hswapped
  have hfits : p.Fits text := resolve_fits hresolve
  obtain ⟨a, x, m, y, z, htext, hfirst, hsecond⟩ := hfits.parts
  have hb' : b' = ofText (a ++ y ++ m ++ x ++ z) p.second.stop :=
    congrArg Prod.fst (swap_of_resolve (b := b) htext hfirst hsecond hresolve hfollows)
  have hback : b'.resolve b'.cursor .backward s.extendLines = .ok p.slots := by
    obtain ⟨ho, hfound⟩ := tokenize_spec text lines
    obtain ⟨ho', hfound'⟩ := tokenize_spec b'.text lines
    have hts := fun t ht => (hfound t ht).classified
    have hpos := fun t ht => (hfound t ht).nonempty
    have hts' := fun t ht => (hfound' t ht).classified
    have hpos' := fun t ht => (hfound' t ht).nonempty
    rw [Node.ofTokens_eq hts] at hturns
    show (Node.ofTokens (tokenize b'.text lines)).pairAt b'.cursor .backward = _
    rw [Node.ofTokens_eq hts', show b'.cursor = p.second.stop from congrArg Buffer.cursor hb']
    cases hturns with
    | elements neighbors near left right parent interchange bounds =>
      exact interchange.pairAt_back hfits hts ho hpos hts' ho' hpos' hperm neighbors near left right parent bounds
    | words first left right word word' spans =>
      exact Node.pairAt_back_of_words hfits hts ho hpos hts' ho' hpos' hperm first left right word word' spans
  have hslots := Pair.slots_eq hfirst hsecond
  rw [swap_of_resolve (congrArg Buffer.text hb') (congrArg Pair.first hslots) (congrArg Pair.second hslots) hback
    hfollows, htext]
  rfl

theorem swap_backward_restores_of_arguments :
    let text := "g(\n!a, b * c)".toList
    let b := withCursor text 3
    let b' := (b.swap {} .forward).1
    b'.text = "g(\nb * c, !a)".toList ∧ (b'.swap {} .backward).1 = ofText text 3 := by
  intro text b b'
  let tree := Node.ofTokens (tokenize text (b'.window b'.cursor .backward 1))
  have hswapped : (b.swap {} .forward).2 = .swapped ⟨⟨3, 5⟩, ⟨7, 12⟩⟩ 12 := by decide +kernel
  have hneighbors : tree.rightNeighbors [0, 0, 0] = ⟨some [0, 0, 0], some [1, 0, 0]⟩ := by decide +kernel
  have hfound : ∀ a ∈ [[0, 0, 0], [1, 0, 0], [0, 0]], (tree.at? a).isSome := by decide +kernel
  obtain ⟨x, hx⟩ := Option.isSome_iff_exists.mp (hfound [0, 0, 0] (by decide))
  obtain ⟨y, hy⟩ := Option.isSome_iff_exists.mp (hfound [1, 0, 0] (by decide))
  obtain ⟨m, hm⟩ := Option.isSome_iff_exists.mp (hfound [0, 0] (by decide))
  have hoperands : ∀ x ∈ tree.at? [0, 0, 0], ∀ y ∈ tree.at? [1, 0, 0], ∀ m ∈ tree.at? [0, 0],
      m.role = .operator ∧ (x.role = .atom ∨ x.role = .opener) ∧ y.role ≠ .closer ∧
      (x.OnEdge fun n => n.children.length = 1) ∧ x.Ends m.priority ∧ y.Ends m.priority ∧
      (⟨⟨3, 5⟩, ⟨7, 12⟩⟩ : Pair) = ⟨x.bound, y.bound⟩ := by decide +kernel
  obtain ⟨operator, starts, unclosed, single, left, right, hbounds⟩ := hoperands x hx y hy m hm
  have hturns : tree.Turns ⟨⟨3, 5⟩, ⟨7, 12⟩⟩ := .elements hneighbors (by decide) hx hy hm
    (.operands operator starts unclosed single left right) hbounds
  exact ⟨by decide +kernel, swap_backward_restores text 3 {} _ 12 rfl hswapped (by decide +kernel) hturns⟩

/-- The cursor is left at the end of the element, where a part of it may end as well: in `c + a * b` it is `b` that is
    swapped back. -/
theorem exists_swap_backward_ne : ∃ (text : List Char) (cursor : Nat) (s : Settings), s.followSwap = true ∧
    let b := withCursor text cursor
    (∃ p moved, (b.swap s .forward).2 = .swapped p moved) ∧ ((b.swap s .forward).1.swap s .backward).1.text ≠ text :=
  ⟨"a * b + c".toList, 2, {}, rfl, ⟨⟨⟨0, 5⟩, ⟨8, 9⟩⟩, 9, by decide +kernel⟩, by decide +kernel⟩

end Buffer
end SiblingSwap
