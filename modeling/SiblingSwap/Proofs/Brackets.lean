import Mathlib.Data.List.Forall2
import SiblingSwap.Proofs.Places

/-! Brackets in the tree are those of the text. The reference is a matcher with a stack of opening brackets, which looks
    at nothing but brackets (`Matching`). Whatever else is read, a pair of brackets is one element, and below it is what
    stands between them; below a bracket that is still open is all that comes after it. -/

namespace SiblingSwap

/-! ### The reference -/

/-- How brackets match, by the indices of their tokens. -/
structure Matching where
  /-- The brackets still open, innermost first, each with the text that closes it. -/
  pending : List (Nat × List Char)
  /-- The brackets that are closed, each with the one that closes it. -/
  pairs : List (Nat × Nat)

namespace Matching

/-- Reads the `k`-th token: an opening bracket is put on the stack, and the one on top is taken off by the text that
    closes it. Nothing else matters. -/
def read (m : Matching) (k : Nat) (t : Token) : Matching :=
  match closerOf? t.text, m.pending with
  | some closer, pending => ⟨(k, closer) :: pending, m.pairs⟩
  | none, (i, closer) :: rest => if closer = t.text then ⟨rest, (i, k) :: m.pairs⟩ else m
  | none, [] => m

def ofTokens (ts : List Token) : Matching := ts.zipIdx.foldl (fun m (t, k) => m.read k t) ⟨[], []⟩

theorem ofTokens_concat (ts : List Token) (t : Token) : ofTokens (ts ++ [t]) = (ofTokens ts).read ts.length t := by
  simp [ofTokens, List.zipIdx_append]

end Matching

/-! ### What is awaited -/

namespace Spine
variable {s : Spine} {t : Token}

theorem above_of_mem_awaitedAlong {ps : List Node} {x : List Char × Address} (h : x ∈ awaitedAlong ps) :
    Address.Above x.2 (Address.below ps) := by
  cases ps with
  | nil => cases h
  | cons p ps =>
    have hsuffix : x.2 <:+ Address.below ps := address_suffix_of_mem_awaitedAlong h
    refine ⟨hsuffix.trans (List.suffix_cons _ _), fun heq => ?_⟩
    have hlength := hsuffix.length_le
    rw [heq] at hlength
    simp only [Address.below, List.length_map, List.length_cons] at hlength
    omega

/-- A token that leaves a trace is awaited and closes its element, or it changes nothing about those who wait. -/
theorem awaited_add (hs : Sound s) (ht : t.Classified) (hkept : s.toDraft.drops t = false) :
    (s.add t).awaited = (closerOf? t.text).toList.map (·, (s.add t).address) ++ awaitedAlong (s.add t).above ∧
    (s.awaited = (t.text, (s.add t).address) :: awaitedAlong (s.add t).above ∧
        (s.add t).tree.ClosedAt (s.add t).address ∨
      s.awaited = awaitedAlong (s.add t).above ∧ (∀ a, s.awaited.head? ≠ some (t.text, a)) ∧
        (t.role = .closer → (s.add t).focus.tokens = [t])) := by
  have hreads := reads_add s ht
  generalize s.add t = s' at hreads ⊢
  cases hreads with
  | drop line more => simp [Draft.drops, line, focused_toDraft, more] at hkept
  | join role focus =>
    have free : s.focus.awaits? = none := hs.focus.awaits?_eq_none (by simp [focus])
    refine ⟨awaited_join s t, Or.inr ⟨by simp [awaited, awaitedAlong, free, join], ?_, ?_⟩⟩
    · exact head?_awaited_ne ht fun h => by rcases role with hr | hr <;> simp [hr] at h
    · exact fun h => by rcases role with hr | hr <;> simp [hr] at h
  | append role focus =>
    refine ⟨awaited_append s.host t, Or.inr ⟨hs.climbs_host.awaited_eq.symm, ?_, fun _ => rfl⟩⟩
    exact head?_awaited_ne ht fun h => by rcases role with hr | hr <;> simp [hr] at h
  | @close w role line waiting =>
    refine ⟨awaited_join w t, Or.inl ⟨?_, t, ?_, role⟩⟩
    · rw [awaited_of_waiting? s, waiting]
      rfl
    · rw [tokensAt?_address]
      simp [join, Node.absorb]
  | wrap role kept other =>
    obtain ⟨hb, hclimb, -⟩ := hs.climbs_operator ht role
    refine ⟨?_, Or.inr ⟨hclimb.awaited_eq.symm, head?_awaited_ne ht other, fun _ => rfl⟩⟩
    rw [addOperator, awaited_wrap _ hb, hb]
    rfl

end Spine

/-! ### Groups -/

/-- Of the tokens that have a place, those whose index satisfies `p` are below `a`, and no others. -/
def Encloses (places : List (Option Address)) (a : Address) (p : Nat → Prop) : Prop :=
  ∀ k b, places[k]? = some (some b) → (Address.Above a b ↔ p k)

section Groups
variable {ts : List Token} {tree : Node} {t : Token} {s : Spine} {move : Address → Address}
  {places : List (Option Address)} {a : Address}

theorem getElem?_tracked {h b : Address} {k : Nat}
    (hk : (places.map (Option.map move) ++ [some h])[k]? = some (some b)) :
    (∃ c, places[k]? = some (some c) ∧ move c = b) ∨ (k = places.length ∧ b = h) := by
  rcases getElem?_concat_eq_some hk with hk | ⟨rfl, hb⟩
  · rw [List.getElem?_map] at hk
    obtain ⟨p, hp, hpb⟩ := Option.map_eq_some_iff.mp hk
    obtain ⟨c, rfl, hc⟩ := Option.map_eq_some_iff.mp hpb
    exact Or.inl ⟨c, hp, hc⟩
  · exact Or.inr ⟨List.length_map _, Option.some.inj hb⟩

theorem getElem?_tracked_of_some {k : Nat} (hk : places[k]? = some (some a)) (h : Address) :
    (places.map (Option.map move) ++ [some h])[k]? = some (some (move a)) := by
  have hlt := (List.getElem?_eq_some_iff.mp hk).1
  rw [List.getElem?_append_left (by simpa using hlt), List.getElem?_map, hk]
  rfl

theorem Encloses.settle {p q : Nat → Prop} (h : Encloses places a p) (hs : Spine.Settles tree t s move)
    (hold : ∀ k < places.length, (p k ↔ q k)) (hnew : Address.Above (move a) s.address ↔ q places.length) :
    Encloses (places.map (Option.map move) ++ [some s.address]) (move a) q := by
  intro k b hk
  rcases getElem?_tracked hk with ⟨c, hc, rfl⟩ | ⟨rfl, rfl⟩
  · rw [hs.above_iff, h k c hc]
    exact hold k (List.getElem?_eq_some_iff.mp hc).1
  · exact hnew

theorem Encloses.drop {p : Nat → Prop} (h : Encloses places a p) : Encloses (places ++ [none]) a p := by
  intro k b hk
  rcases getElem?_concat_eq_some hk with hk | ⟨-, hb⟩
  · exact h k b hk
  · cases hb

/-- An element that waits for a bracket is that of an open bracket, and below it is all that came after. -/
structure Opened (places : List (Option Address)) (x : List Char × Address) (y : Nat × List Char) : Prop where
  closer : x.1 = y.2
  place : places[y.1]? = some (some x.2)
  encloses : Encloses places x.2 (y.1 < ·)

/-- Two brackets lie in one element that is complete, and below it is what stands between them. -/
def Paired (tree : Node) (places : List (Option Address)) (i j : Nat) : Prop :=
  ∃ a, places[i]? = some (some a) ∧ places[j]? = some (some a) ∧ tree.ClosedAt a ∧
    Encloses places a fun k => i < k ∧ k < j

/-- The token is the only one of its element. -/
def Alone (tree : Node) (places : List (Option Address)) (j : Nat) (t : Token) : Prop :=
  ∃ a, places[j]? = some (some a) ∧ tree.tokensAt? a = some [t]

theorem Opened.settle {x : List Char × Address} {y : Nat × List Char} (h : Opened places x y)
    (hs : Spine.Settles tree t s move) (habove : Address.Above x.2 s.address) :
    Opened (places.map (Option.map move) ++ [some s.address]) x y := by
  have hfixed := hs.fixed x.2 habove
  refine ⟨h.closer, ?_, ?_⟩
  · rw [getElem?_tracked_of_some h.place, hfixed]
  · have hlt := (List.getElem?_eq_some_iff.mp h.place).1
    have hencloses := h.encloses.settle hs (fun _ _ => Iff.rfl) (by simpa [hfixed, habove] using hlt)
    rwa [hfixed] at hencloses

theorem Opened.drop {x : List Char × Address} {y : Nat × List Char} (h : Opened places x y) :
    Opened (places ++ [none]) x y :=
  ⟨h.closer, by rw [List.getElem?_append_left (List.getElem?_eq_some_iff.mp h.place).1, h.place], h.encloses.drop⟩

theorem Paired.settle {i j : Nat} (h : Paired tree places i j) (hs : Spine.Settles tree t s move) :
    Paired s.tree (places.map (Option.map move) ++ [some s.address]) i j := by
  obtain ⟨a, hi, hj, hclosed, hencloses⟩ := h
  refine ⟨move a, getElem?_tracked_of_some hi _, getElem?_tracked_of_some hj _, hs.closedAt hclosed, ?_⟩
  refine hencloses.settle hs (fun _ _ => Iff.rfl) ⟨fun h => absurd h.1 (hs.closed a hclosed), fun h => ?_⟩
  have := (List.getElem?_eq_some_iff.mp hj).1
  omega

theorem Paired.drop {i j : Nat} (h : Paired tree places i j) : Paired tree (places ++ [none]) i j := by
  obtain ⟨a, hi, hj, hclosed, hencloses⟩ := h
  refine ⟨a, ?_, ?_, hclosed, hencloses.drop⟩
  · rw [List.getElem?_append_left (List.getElem?_eq_some_iff.mp hi).1, hi]
  · rw [List.getElem?_append_left (List.getElem?_eq_some_iff.mp hj).1, hj]

theorem Alone.settle {j : Nat} {u : Token} (h : Alone tree places j u) (hu : u.role = .closer)
    (hs : Spine.Settles tree t s move) : Alone s.tree (places.map (Option.map move) ++ [some s.address]) j u := by
  obtain ⟨a, hj, htokens⟩ := h
  have hclosed : tree.ClosedAt a := ⟨u, by simp [htokens], hu⟩
  exact ⟨move a, getElem?_tracked_of_some hj _, by rw [hs.tokensAt?_of_closedAt hclosed, htokens]⟩

theorem Alone.drop {j : Nat} {u : Token} (h : Alone tree places j u) : Alone tree (places ++ [none]) j u := by
  obtain ⟨a, hj, htokens⟩ := h
  exact ⟨a, by rw [List.getElem?_append_left (List.getElem?_eq_some_iff.mp hj).1, hj], htokens⟩

/-- The tree groups tokens by their brackets as the reference does. -/
structure Grouped (ts : List Token) (s : Spine) (places : List (Option Address)) (m : Matching) : Prop where
  locates : Locates ts s.tree places
  opened : List.Forall₂ (Opened places) s.awaited m.pending
  paired : ∀ i j, (i, j) ∈ m.pairs → Paired s.tree places i j
  alone : ∀ j t o, ts[j]? = some t → closerOf? o = some t.text → (∀ i, (i, j) ∉ m.pairs) → Alone s.tree places j t

/-- A token that is not awaited can only open a bracket. -/
theorem read_of_head?_ne {m : Matching} (h : List.Forall₂ (Opened places) s.awaited m.pending)
    (hhead : ∀ a, s.awaited.head? ≠ some (t.text, a)) (k : Nat) :
    m.read k t = ⟨(closerOf? t.text).toList.map (k, ·) ++ m.pending, m.pairs⟩ := by
  obtain ⟨pending, pairs⟩ := m
  cases hc : closerOf? t.text with
  | some closer => simp [Matching.read, hc]
  | none =>
    simp only at h
    generalize s.awaited = awaited at h hhead
    cases h with
    | nil => simp [Matching.read, hc]
    | @cons x y xs ys hxy hrest =>
      have hne : y.2 ≠ t.text := by
        intro heq
        exact hhead x.2 (by rw [List.head?_cons, ← heq, ← hxy.closer])
      simp [Matching.read, hc, hne]

namespace Grouped
variable {m : Matching}

theorem drop (h : Grouped ts s places m) (hline : t.text = ['\n']) : Grouped (ts ++ [t]) s (places ++ [none]) m where
  locates := h.locates.drop t
  opened := h.opened.imp fun _ _ => Opened.drop
  paired i j hij := (h.paired i j hij).drop
  alone j u o hj ho hnot := by
    rcases getElem?_concat_eq_some hj with hj | ⟨-, rfl⟩
    · exact (h.alone j u o hj ho hnot).drop
    · rcases closerOf?_eq_some ho with ⟨-, h⟩ | ⟨-, h⟩ | ⟨-, h⟩ <;> simp [h] at hline

theorem alone_settle {s' : Spine} (h : Grouped ts s places m) (hts : ∀ u ∈ ts, u.Classified)
    (hset : Spine.Settles s.tree t s' move) {j : Nat} {u : Token} {o : List Char} (hj : ts[j]? = some u)
    (ho : closerOf? o = some u.text) (hnot : ∀ i, (i, j) ∉ m.pairs) :
    Alone s'.tree (places.map (Option.map move) ++ [some s'.address]) j u :=
  (h.alone j u o hj ho hnot).settle ((hts u (List.mem_of_getElem? hj)).of_closing ho).1 hset

theorem place {s' : Spine} (h : Grouped ts s places m) (hts : ∀ u ∈ ts, u.Classified) (ht : t.Classified)
    (hset : Spine.Settles s.tree t s' move)
    (hawaited : s'.awaited = (closerOf? t.text).toList.map (·, s'.address) ++ s.awaited)
    (habove : ∀ x ∈ s.awaited, Address.Above x.2 s'.address) (hcloser : t.role = .closer → s'.focus.tokens = [t]) :
    Grouped (ts ++ [t]) s' (places.map (Option.map move) ++ [some s'.address])
      ⟨(closerOf? t.text).toList.map (ts.length, ·) ++ m.pending, m.pairs⟩ := by
  have hlength := h.locates.length
  have hhere : (places.map (Option.map move) ++ [some s'.address])[ts.length]? = some (some s'.address) := by
    simp [← hlength]
  refine ⟨h.locates.settle hset, ?_, fun i j hij => (h.paired i j hij).settle hset, fun j u o hj ho hnot => ?_⟩
  · have hold : List.Forall₂ (Opened (places.map (Option.map move) ++ [some s'.address])) s.awaited m.pending :=
      ((List.forall₂_and_left _ _).mpr ⟨habove, h.opened⟩).imp fun _ _ hx => hx.2.settle hset hx.1
    rw [hawaited]
    cases hc : closerOf? t.text with
    | none => exact hold
    | some closer =>
      have hnew : Encloses (places.map (Option.map move) ++ [some s'.address]) s'.address (ts.length < ·) := by
        intro k b hk
        rcases getElem?_tracked hk with ⟨c, hold, rfl⟩ | ⟨rfl, rfl⟩
        · -- Nothing that was read before lies below the new bracket.
          have hlt := (List.getElem?_eq_some_iff.mp hold).1
          refine ⟨fun habove => ?_, fun hgt => by omega⟩
          have hfound := h.locates.found c (List.mem_of_getElem? hold)
          rw [hset.opened (by simp [hc]) c habove] at hfound
          cases hfound
        · exact ⟨fun hself => absurd rfl hself.2, fun hgt => by omega⟩
      exact .cons ⟨rfl, hhere, hnew⟩ hold
  · rcases getElem?_concat_eq_some hj with hj | ⟨rfl, rfl⟩
    · exact h.alone_settle hts hset hj ho hnot
    · exact ⟨s'.address, hhere, by rw [s'.tokensAt?_address, hcloser (ht.of_closing ho).1]⟩

theorem close {s' : Spine} (h : Grouped ts s places m) (hts : ∀ u ∈ ts, u.Classified)
    (hset : Spine.Settles s.tree t s' move) (hclose : s.awaited = (t.text, s'.address) :: s'.awaited)
    (habove : ∀ x ∈ s'.awaited, Address.Above x.2 s'.address) (hmove : move s'.address = s'.address)
    (hclosed : s'.tree.ClosedAt s'.address) (htext : closerOf? t.text = none) :
    Grouped (ts ++ [t]) s' (places.map (Option.map move) ++ [some s'.address]) (m.read ts.length t) := by
  have hlength := h.locates.length
  have hopened := h.opened
  obtain ⟨pending, pairs⟩ := m
  rw [hclose] at hopened
  cases hopened with
  | @cons _ y _ rest htop hrest =>
    obtain ⟨i, closer⟩ := y
    obtain rfl : t.text = closer := htop.closer
    have hread : Matching.read ⟨(i, t.text) :: rest, pairs⟩ ts.length t = ⟨rest, (i, ts.length) :: pairs⟩ := by
      simp [Matching.read, htext]
    rw [hread]
    refine ⟨h.locates.settle hset, ?_, fun i' j hij => ?_, fun j u o hj ho hnot => ?_⟩
    · exact ((List.forall₂_and_left _ _).mpr ⟨habove, hrest⟩).imp fun _ _ hx => hx.2.settle hset hx.1
    · rcases List.mem_cons.mp hij with hij | hij
      · obtain ⟨rfl, rfl⟩ := Prod.mk.inj hij
        refine ⟨s'.address, ?_, by simp [← hlength], hclosed, ?_⟩
        · rw [getElem?_tracked_of_some htop.place, hmove]
        · have hencloses := htop.encloses.settle (q := fun k => i' < k ∧ k < ts.length) hset
            (fun k hk => ⟨fun hlt => ⟨hlt, by omega⟩, fun hlt => hlt.1⟩)
            ⟨fun hself => absurd hmove hself.2, fun hlt => by omega⟩
          rwa [hmove] at hencloses
      · exact (h.paired i' j hij).settle hset
    · rcases getElem?_concat_eq_some hj with hj | ⟨rfl, rfl⟩
      · exact h.alone_settle hts hset hj ho fun i' hi' => hnot i' (List.mem_cons_of_mem _ hi')
      · exact absurd (List.mem_cons_self ..) (hnot i)

/-- The step: whatever the token, the tree and the reference go on together. -/
theorem add (h : Grouped ts s places m) (hs : Spine.Sound s) (hts : ∀ u ∈ ts, u.Classified) (ht : t.Classified) :
    Grouped (ts ++ [t]) (s.add t) (s.toDraft.track places t) (m.read ts.length t) := by
  cases hdrop : s.toDraft.drops t with
  | true =>
    obtain ⟨hline, hmore⟩ : t.text = ['\n'] ∧ s.focus.role.expectsMore = true := by
      simpa [Draft.drops, Spine.focused_toDraft] using hdrop
    have hrole := (ht.of_stop (Or.inr hline)).1
    have hsame : s.add t = s := by simp [Spine.add, hrole, Spine.addCloser, hline, hmore]
    have hread : m.read ts.length t = m := by
      rw [read_of_head?_ne h.opened (Spine.head?_awaited_ne ht fun _ hne => absurd hline hne),
        ht.closerOf?_eq_none (by simp [hrole])]
      rfl
    rw [hsame, hread, Draft.track, if_pos hdrop]
    exact h.drop hline
  | false =>
    have hset := Spine.settles_add hs ht hdrop
    obtain ⟨hawaited, hcase⟩ := Spine.awaited_add hs ht hdrop
    have habove : ∀ x ∈ Spine.awaitedAlong (s.add t).above, Address.Above x.2 (s.add t).address :=
      fun x hx => Spine.above_of_mem_awaitedAlong hx
    rw [Draft.track, hdrop, Spine.focus_add_toDraft hs ht]
    simp only [Bool.false_eq_true, if_false]
    rcases hcase with ⟨hclose, hclosed⟩ | ⟨hsame, hhead, hcloser⟩
    · obtain ⟨o, ho⟩ := Spine.closerOf?_of_mem_awaited (s := s) (hclose ▸ List.mem_cons_self)
      have hrole := (ht.of_closing ho).1
      have htext := ht.closerOf?_eq_none (by simp [hrole])
      rw [htext] at hawaited
      have hmove : s.toDraft.move t (s.add t).address = (s.add t).address := by
        simp [Draft.move, Draft.adopts, Spine.toDraft, hclose, hrole]
      exact h.close hts hset (hclose.trans (congrArg _ hawaited.symm)) (hawaited ▸ habove) hmove hclosed htext
    · rw [read_of_head?_ne h.opened hhead]
      exact h.place hts ht hset (hsame ▸ hawaited) (hsame ▸ habove) hcloser

theorem ofTokens {ts : List Token} (hts : ∀ t ∈ ts, t.Classified) :
    Grouped ts (Spine.ofTokens ts) (Draft.places ts) (Matching.ofTokens ts) := by
  refine Spine.ofTokens_induction (P := fun ts s => Grouped ts s (Draft.places ts) (Matching.ofTokens ts)) ?_ ?_ hts
  · refine ⟨⟨rfl, by simp [Draft.places], fun a us ha => ?_⟩, .nil, by simp [Matching.ofTokens], by simp⟩
    have ha : Node.root.tokensAt? a = some us := ha
    rcases List.eq_nil_or_concat' a with rfl | ⟨a, i, rfl⟩
    · exact (Option.some.inj ha).symm
    · simp [Node.root] at ha
  · intro ts t hinit ht hs ih
    have hstep := ih.add hs hinit ht
    rwa [Spine.toDraft_ofTokens hinit, ← Draft.places_concat, ← Matching.ofTokens_concat] at hstep

end Grouped
end Groups

/-- Brackets in the tree match as in the text, whatever has been read so far. As many brackets are awaited as the
    reference has open. Each token that leaves a trace has its place in the tree. A pair of brackets has one place, and
    what is strictly between the two is all that lies below it; all that comes after an open bracket lies below it; a
    bracket that closes nothing is alone in its element. -/
theorem Draft.brackets_match {ts : List Token} (classified : ∀ t ∈ ts, t.Classified) :
    (ofTokens ts).awaited.length = (Matching.ofTokens ts).pending.length ∧
    Locates ts (Node.ofTokens ts) (places ts) ∧
    (∀ k t, ts[k]? = some t → ((places ts)[k]? = some none ↔ (ofTokens (ts.take k)).drops t = true)) ∧
    (∀ i j, (i, j) ∈ (Matching.ofTokens ts).pairs → ∃ a, (places ts)[i]? = some (some a) ∧
      (places ts)[j]? = some (some a) ∧ Encloses (places ts) a fun k => i < k ∧ k < j) ∧
    (∀ i closer, (i, closer) ∈ (Matching.ofTokens ts).pending → ∃ a, (places ts)[i]? = some (some a) ∧
      Encloses (places ts) a (i < ·)) ∧
    ∀ j t o, ts[j]? = some t → closerOf? o = some t.text → (∀ i, (i, j) ∉ (Matching.ofTokens ts).pairs) →
      ∃ a, (places ts)[j]? = some (some a) ∧ (Node.ofTokens ts).tokensAt? a = some [t] := by
  have h := Grouped.ofTokens classified
  rw [Draft.ofTokens_eq classified, Node.ofTokens_eq classified]
  refine ⟨h.opened.length_eq, h.locates, fun k t ht => places_eq_none_iff ts ht, fun i j hij => ?_,
    fun i closer hi => ?_, h.alone⟩
  · obtain ⟨a, hi, hj, -, hencloses⟩ := h.paired i j hij
    exact ⟨a, hi, hj, hencloses⟩
  · obtain ⟨n, hn, hget⟩ := List.getElem_of_mem hi
    have hopened := h.opened.get (h.opened.length_eq ▸ hn) hn
    rw [List.get_eq_getElem, List.get_eq_getElem, hget] at hopened
    exact ⟨_, hopened.place, hopened.encloses⟩

/-- In `f ( ⏎ a ) ] (` one bracket is closed around `a`, one closes nothing and one stays open. -/
theorem Draft.brackets_match_of_call :
    let ts : List Token := [.ofLexeme ['f'] ⟨0, 1⟩, .ofLexeme ['('] ⟨1, 2⟩, .ofLexeme ['\n'] ⟨2, 3⟩,
      .ofLexeme ['a'] ⟨3, 4⟩, .ofLexeme [')'] ⟨4, 5⟩, .ofLexeme [']'] ⟨5, 6⟩, .ofLexeme ['('] ⟨6, 7⟩]
    (ofTokens ts).awaited.length = 1 ∧ (places ts)[2]? = some none ∧
      (∃ a, (places ts)[1]? = some (some a) ∧ (places ts)[4]? = some (some a) ∧
        Encloses (places ts) a fun k => 1 < k ∧ k < 4) ∧
      (∃ a, (places ts)[6]? = some (some a) ∧ Encloses (places ts) a (6 < ·)) ∧
      ∃ a, (places ts)[5]? = some (some a) ∧ (Node.ofTokens ts).tokensAt? a = some [.ofLexeme [']'] ⟨5, 6⟩] := by
  intro ts
  have classified : ∀ t ∈ ts, t.Classified := by decide
  obtain ⟨hawaited, -, hdropped, hpairs, hpending, halone⟩ := brackets_match classified
  have hloose : ∀ i, (i, 5) ∉ (Matching.ofTokens ts).pairs := by
    intro i hi
    have hi : (i, 5) ∈ [(1, 4)] := hi
    simp at hi
  exact ⟨hawaited, (hdropped 2 _ rfl).mpr rfl, hpairs 1 4 (by decide), hpending 6 [')'] (by decide),
    halone 5 _ ['['] rfl rfl hloose⟩

end SiblingSwap
