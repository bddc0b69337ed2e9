import SiblingSwap.Proofs.Links

/-! Which node holds which token. A tree is grown from tokens of any text, role, priority and place, so an element may
    be pushed down while it waits for its bracket, and equal tokens may occur many times. Positions in the list tell
    them apart: each position is held by one node, except that of a line break that is dropped, and a node holds its
    positions in order. -/

namespace SiblingSwap

/-! ### Tokens that are dropped -/

namespace Draft
variable {d : Draft} {t : Token}

/-- The token is a line break that closes, and the focus is an opener or an operator. -/
def skips (d : Draft) (t : Token) : Bool :=
  t.role = .closer && t.text = ['\n'] && (d.focused.role = .opener || d.focused.role = .operator)

/-- The token at a position is dropped when it is read. -/
def skipsAt (ts : List Token) (k : Nat) : Bool := ts[k]?.any (ofTokens (ts.take k)).skips

theorem skipsAt_concat_of_lt {ts : List Token} {k : Nat} (hk : k < ts.length) :
    skipsAt (ts ++ [t]) k = skipsAt ts k := by
  rw [skipsAt, skipsAt, List.getElem?_append_left hk, List.take_append_of_le_length (Nat.le_of_lt hk)]

theorem skipsAt_concat_length (ts : List Token) (t : Token) :
    skipsAt (ts ++ [t]) ts.length = (ofTokens ts).skips t := by
  rw [skipsAt, List.getElem?_concat_length, List.take_left' rfl]
  rfl

theorem skips_eq (d : Draft) (t : Token) :
    d.skips t = (t.role = .closer && t.text = ['\n'] && d.focused.role.expectsMore) := by
  rw [skips]
  cases d.focused.role <;> rfl

/-- What a token does to a tree: it is dropped, or it changes one node in one of three ways. -/
theorem add_changes (h : d.WellFormed) (t : Token) :
    d.skips t = true ∧ d.add t = d ∨ d.skips t = false ∧ ∃ a n, d.tree.at? a = some n ∧
      (a ≠ [] ∧ (d.add t).tree = d.tree.modifyAt a (·.absorb t) ∨ (d.add t).tree = d.tree.modifyAt a (·.addChild t) ∨
        (d.add t).tree = d.tree.modifyAt a (·.wrapLast t)) := by
  have hatom : ∃ a n, d.tree.at? a = some n ∧ (a ≠ [] ∧ (d.addAtom t).tree = d.tree.modifyAt a (·.absorb t) ∨
      (d.addAtom t).tree = d.tree.modifyAt a (·.addChild t)) := by
    rw [addAtom]
    split
    · next hrole =>
      obtain ⟨n, hn⟩ := h.exists_at? (List.suffix_refl _)
      exact ⟨d.focus, n, hn, Or.inl ⟨h.focus_ne_nil hrole, rfl⟩⟩
    · obtain ⟨n, hn⟩ := h.exists_at? d.host_suffix
      exact ⟨d.host, n, hn, Or.inr rfl⟩
  have hoperator : ∃ a n, d.tree.at? a = some n ∧ (d.addOperator t).tree = d.tree.modifyAt a (·.wrapLast t) := by
    obtain ⟨n, hn⟩ := h.exists_at? ((looserAt_suffix d.tree t.priority d.host).trans d.host_suffix)
    exact ⟨_, n, hn, rfl⟩
  obtain ⟨a, n, hn, hatom⟩ := hatom
  obtain ⟨b, m, hm, hoperator⟩ := hoperator
  rw [add, skips_eq]
  cases hrole : t.role with
  | atom => exact Or.inr ⟨rfl, a, n, hn, hatom.imp_right Or.inl⟩
  | opener =>
    have htree : (d.addOpener t).tree = (d.addAtom t).tree := by
      rw [addOpener]
      split <;> rfl
    exact Or.inr ⟨rfl, a, n, hn, htree ▸ hatom.imp_right Or.inl⟩
  | operator => exact Or.inr ⟨rfl, b, m, hm, Or.inr (Or.inr hoperator)⟩
  | closer =>
    simp only [addCloser]
    split
    · next hline =>
      split
      · next hmore => exact Or.inl ⟨by simp [hline, hmore], rfl⟩
      · next hmore => exact Or.inr ⟨by simp [hmore], b, m, hm, Or.inr (Or.inr hoperator)⟩
    · next hline =>
      refine Or.inr ⟨by simp [hline], ?_⟩
      split
      · next closer c rest hawaited =>
        split
        · obtain ⟨hc, us, hus, -⟩ := h.awaited closer c (by simp [hawaited])
          obtain ⟨k, hk, -⟩ := Option.map_eq_some_iff.mp hus
          exact ⟨c, k, hk, Or.inl ⟨hc, rfl⟩⟩
        · exact ⟨b, m, hm, Or.inr (Or.inr hoperator)⟩
      · exact ⟨b, m, hm, Or.inr (Or.inr hoperator)⟩

end Draft

/-! ### The places of all tokens -/

namespace Locates
variable {ts : List Token} {tree n : Node} {places : List (Option Address)} {t : Token} {a : Address}

theorem grown (h : Locates ts tree places) {grown : Node} {place : Address} {move : Address → Address}
    (hg : tree.Grown t grown place move)
    (hnew : (∃ a, move a = place ∧ (tree.tokensAt? a).isSome) ∨
      grown.tokensAt? place = some [t] ∧ ∀ a, move a = place → tree.tokensAt? a = none) :
    Locates (ts ++ [t]) grown (places.map (Option.map move) ++ [some place]) := by
  obtain ⟨us, hus⟩ := hg.placed
  refine h.grow (fun _ _ => Address.eq_of_suffix_iff hg.suffix_iff) (by simp [hus]) hg.kept fun b vs hb => ?_
  rcases hg.only b vs hb with rfl | ⟨a, rfl, ha⟩
  · refine hnew.imp_right fun hnew => ⟨rfl, ?_, hnew.2⟩
    exact Option.some.inj (hb.symm.trans hnew.1)
  · exact Or.inl ⟨a, rfl, by simp [ha]⟩

theorem absorb (h : Locates ts tree places) (ha : a ≠ []) (hn : tree.at? a = some n) :
    ∃ move, Locates (ts ++ [t]) (tree.modifyAt a (·.absorb t)) (places.map (Option.map move) ++ [some a]) :=
  ⟨id, h.grown (Node.grown_absorb ha hn) (Or.inl ⟨a, rfl, by simp [Node.tokensAt?, hn]⟩)⟩

theorem addChild (h : Locates ts tree places) (hn : tree.at? a = some n) :
    ∃ place move,
      Locates (ts ++ [t]) (tree.modifyAt a (·.addChild t)) (places.map (Option.map move) ++ [some place]) := by
  refine ⟨_, _, h.grown (Node.grown_addChild hn) (Or.inr ⟨?_, ?_⟩)⟩
  · rw [Node.tokensAt?_addChild t hn, if_pos rfl]
  · rintro _ rfl
    exact Node.tokensAt?_vacant hn []

theorem wrapLast (h : Locates ts tree places) (hn : tree.at? a = some n) :
    ∃ place move, Locates (ts ++ [t]) (tree.modifyAt a (·.wrapLast t)) (places.map (Option.map move) ++ [some place]) :=
  ⟨_, _, h.grown (Node.grown_wrapLast hn)
    (Or.inr ⟨Node.tokensAt?_wrapLast_append t hn [], fun _ h => absurd h Address.adopted_ne⟩)⟩

end Locates

theorem locates_empty : Locates [] Draft.empty.tree [] where
  length := rfl
  found _ h := by cases h
  held a us ha := by
    rcases List.eq_nil_or_concat' a with rfl | ⟨a, i, rfl⟩
    · exact (Option.some.inj ha).symm
    · simp [Draft.empty, Node.root] at ha

/-- Every token has a place in the tree, except those that are dropped. -/
theorem exists_locates (ts : List Token) :
    ∃ places, Locates ts (Node.ofTokens ts) places ∧
      ∀ k < ts.length, places[k]? = some none ↔ Draft.skipsAt ts k = true := by
  induction ts using List.reverseRecOn with
  | nil => exact ⟨[], locates_empty, by simp⟩
  | append_singleton ts t ih =>
    obtain ⟨places, hplaces, hskips⟩ := ih
    have hlength := hplaces.length
    have htree : Node.ofTokens (ts ++ [t]) = ((Draft.ofTokens ts).add t).tree := by
      simp [Node.ofTokens, Draft.ofTokens, List.foldl_append]
    -- A token that is placed moves others, and leaves those without a place without one.
    have hplaced : (Draft.ofTokens ts).skips t = false → (∃ place move,
        Locates (ts ++ [t]) ((Draft.ofTokens ts).add t).tree (places.map (Option.map move) ++ [some place])) →
        ∃ places, Locates (ts ++ [t]) (Node.ofTokens (ts ++ [t])) places ∧
          ∀ k < (ts ++ [t]).length, places[k]? = some none ↔ Draft.skipsAt (ts ++ [t]) k = true := by
      rintro hskip ⟨place, move, h⟩
      refine ⟨_, htree ▸ h, fun k hk => ?_⟩
      rcases Nat.lt_succ_iff_lt_or_eq.mp (by simpa using hk) with hk | rfl
      · rw [Draft.skipsAt_concat_of_lt hk, ← hskips k hk, List.getElem?_append_left (by simpa [hlength] using hk)]
        simp
      · rw [Draft.skipsAt_concat_length, hskip, ← hlength, ← List.length_map (Option.map move),
          List.getElem?_concat_length]
        simp
    rcases Draft.add_changes (Draft.WellFormed.ofTokens ts) t with ⟨hskip, hsame⟩ | ⟨hskip, a, n, hn, hchange⟩
    · refine ⟨places ++ [none], by rw [htree, hsame]; exact hplaces.drop t, fun k hk => ?_⟩
      rcases Nat.lt_succ_iff_lt_or_eq.mp (by simpa using hk) with hk | rfl
      · rw [Draft.skipsAt_concat_of_lt hk, ← hskips k hk, List.getElem?_append_left (hlength ▸ hk)]
      · rw [Draft.skipsAt_concat_length, hskip, ← hlength, List.getElem?_concat_length]
        simp
    · refine hplaced hskip ?_
      rcases hchange with ⟨ha, hchange⟩ | hchange | hchange <;> rw [hchange]
      · exact ⟨a, hplaces.absorb ha hn⟩
      · exact hplaces.addChild hn
      · exact hplaces.wrapLast hn

/-! ### Positions -/

/-- The positions of the tokens with a place, in order. -/
def positionsAt (places : List (Option Address)) (a : Address) : List Nat :=
  (List.range places.length).filter fun k => places[k]? = some (some a)

theorem mem_positionsAt {places : List (Option Address)} {a : Address} {k : Nat} :
    k ∈ positionsAt places a ↔ places[k]? = some (some a) := by
  simp only [positionsAt, List.mem_filter, List.mem_range, decide_eq_true_eq, and_iff_right_iff_imp]
  exact fun h => (List.getElem?_eq_some_iff.mp h).1

theorem positionsAt_concat (places : List (Option Address)) (p : Option Address) (a : Address) :
    positionsAt (places ++ [p]) a = positionsAt places a ++ if p = some a then [places.length] else [] := by
  have hold : (List.range places.length).filter (fun k => (places ++ [p])[k]? = some (some a)) =
      positionsAt places a := by
    refine List.filter_congr fun k hk => ?_
    rw [List.getElem?_append_left (List.mem_range.mp hk)]
  rw [positionsAt, List.length_append, List.length_singleton, List.range_succ, List.filter_append, hold]
  by_cases hp : p = some a <;> simp [hp]

theorem map_positionsAt {ts : List Token} {places : List (Option Address)} (h : places.length = ts.length)
    (a : Address) : (positionsAt places a).map (ts[·]?) = (heldAt ts places a).map some := by
  induction ts using List.reverseRecOn generalizing places with
  | nil => simp [List.length_eq_zero_iff.mp h, positionsAt, heldAt]
  | append_singleton ts t ih =>
    rcases List.eq_nil_or_concat' places with rfl | ⟨places, p, rfl⟩
    · simp at h
    · have h : places.length = ts.length := by simpa using h
      have hold : (positionsAt places a).map ((ts ++ [t])[·]?) = (positionsAt places a).map (ts[·]?) := by
        refine List.map_congr_left fun k hk => List.getElem?_append_left ?_
        exact h ▸ (List.getElem?_eq_some_iff.mp (mem_positionsAt.mp hk)).1
      rw [positionsAt_concat, heldAt_concat h, List.map_append, List.map_append, hold, ih h]
      by_cases hp : p = some a <;> simp [hp, h]

/-- Each position that has a place is found at one node, and no other position is. -/
theorem Locates.positions_perm {ts : List Token} {tree : Node} {places : List (Option Address)}
    (h : Locates ts tree places) :
    ((tree.addresses []).flatMap (positionsAt places)).Perm
      ((List.range ts.length).filter fun k => places[k]? ≠ some none) := by
  refine (List.perm_ext_iff_of_nodup ?_ (List.nodup_range.filter _)).mpr fun k => ?_
  · refine List.nodup_flatMap.mpr ⟨fun a _ => List.nodup_range.filter _, ?_⟩
    refine (Node.nodup_addresses []).imp fun hne k hk hk' => hne ?_
    rw [mem_positionsAt] at hk hk'
    simpa using hk.symm.trans hk'
  · simp only [List.mem_flatMap, mem_positionsAt, List.mem_filter, List.mem_range, ← h.length, decide_eq_true_eq]
    constructor
    · rintro ⟨a, -, hk⟩
      exact ⟨(List.getElem?_eq_some_iff.mp hk).1, by simp [hk]⟩
    · rintro ⟨hk, hne⟩
      rw [List.getElem?_eq_getElem hk, ne_eq, Option.some.injEq] at hne
      obtain ⟨a, ha⟩ := Option.ne_none_iff_exists'.mp hne
      refine ⟨a, Node.mem_addresses_nil.mpr ?_, by rw [List.getElem?_eq_getElem hk, ha]⟩
      have hfound := h.found a (ha ▸ List.getElem_mem hk)
      simpa [Node.tokensAt?] using hfound

/-- The nodes of the tree hold each position of the list of tokens once, less those that are dropped, and in order. -/
theorem Node.exists_held (ts : List Token) :
    ∃ held : Address → List Nat,
      (((Node.ofTokens ts).addresses []).flatMap held).Perm
        ((List.range ts.length).filter fun k => !Draft.skipsAt ts k) ∧
      ∀ a us, (Node.ofTokens ts).tokensAt? a = some us →
        (held a).Pairwise (· < ·) ∧ us.map some = (held a).map (ts[·]?) := by
  obtain ⟨places, hplaces, hskips⟩ := exists_locates ts
  refine ⟨positionsAt places, ?_, fun a us hus => ⟨List.pairwise_lt_range.filter _, ?_⟩⟩
  · refine hplaces.positions_perm.trans (List.Perm.of_eq (List.filter_congr fun k hk => ?_))
    simp [hskips k (List.mem_range.mp hk)]
  · rw [map_positionsAt hplaces.length, ← hplaces.held a us hus]

/-! ### The arena of any tokens -/

namespace Growth

/-- The token is a line break that closes, and the focus is stored as an opener or an operator. -/
def skips (g : Growth) (t : Token) : Bool :=
  t.role = .closer && t.text = ['\n'] && (g.focused.role = .opener || g.focused.role = .operator)

/-- The token at a position is dropped when it is read. -/
def skipsAt (ts : List Token) (k : Nat) : Bool := ts[k]?.any fun t => (ofTokens (ts.take k)).any (·.skips t)

theorem skipsAt_eq (ts : List Token) (k : Nat) : skipsAt ts k = Draft.skipsAt ts k := by
  obtain ⟨g, name, hg, hfollows⟩ := exists_follows (ts.take k)
  rw [skipsAt, Draft.skipsAt, hg]
  refine congrArg (ts[k]?.any ·) (funext fun t => ?_)
  rw [Option.any_some, skips, Draft.skips, hfollows.focused.role]

end Growth

/-- The addresses of the nodes of the arena are those of the tree. -/
theorem Arena.Depicts.names_perm {A : Arena} {tree : Node} {name : Nat → Address} (h : A.Depicts tree name) :
    ((List.range A.size).map name).Perm (tree.addresses []) := by
  refine (List.perm_ext_iff_of_nodup ?_ (Node.nodup_addresses [])).mpr fun a => ?_
  · refine List.Nodup.map_on (fun i hi j hj => ?_) List.nodup_range
    exact h.inj i (List.mem_range.mp hi) j (List.mem_range.mp hj)
  · rw [Node.mem_addresses_nil, h.isSome_at?_iff]
    simp

/-- The nodes of the arena hold each position of the list of tokens once, less the positions of line breaks that were
    read while the focus was an opener or an operator. A node holds its tokens in the order in which they were read, and
    every node but the root holds one. The role and the priority that are stored with a node are those of its last
    token, and the stored span reaches from the start of its first token to the end of its last. -/
theorem Growth.positions_held_once (ts : List Token) :
    ∃ g, Growth.ofTokens ts = some g ∧ ∃ held : Nat → List Nat,
      ((List.range g.arena.size).flatMap held).Perm ((List.range ts.length).filter fun k => !Growth.skipsAt ts k) ∧
      ∀ i < g.arena.size, let c := g.arena.cell i
        (held i).Pairwise (· < ·) ∧ c.tokens.map some = (held i).map (ts[·]?) ∧ (c.tokens = [] ↔ i = 0) ∧
        ∀ first last, c.tokens.head? = some first → c.tokens.getLast? = some last →
          c.role = last.role ∧ c.priority = last.priority ∧ c.span = ⟨first.span.start, last.span.stop⟩ := by
  obtain ⟨g, name, hg, hfollows⟩ := Growth.exists_follows ts
  have hd : (Draft.ofTokens ts).WellFormed := Draft.WellFormed.ofTokens ts
  have h : g.arena.Depicts (Node.ofTokens ts) name := hfollows.depicts
  have hlinked := h.wellLinked hd.root hd.filled
  obtain ⟨held, hperm, hheld⟩ := Node.exists_held ts
  refine ⟨g, hg, fun i => held (name i), ?_, fun i hi => ?_⟩
  · have hnames := h.names_perm.flatMap_right held
    rw [List.flatMap_map] at hnames
    simp only [Growth.skipsAt_eq]
    exact hnames.trans hperm
  · intro c
    obtain ⟨horder, htokens⟩ := hheld (name i) c.tokens (h.tokens i hi)
    obtain ⟨hrole, hpriority, hspan⟩ := h.stored i hi
    refine ⟨horder, htokens, ⟨?_, ?_⟩, fun first last hfirst hlast => ⟨?_, ?_, ?_⟩⟩
    · intro hempty
      by_contra hne
      exact (hlinked.held i hi hne).1 hempty
    · rintro rfl
      exact hlinked.root.2.2.1
    · rw [hrole, hlast]
      rfl
    · rw [hpriority, hlast]
      rfl
    · rw [hspan, hfirst, hlast]
      rfl

end SiblingSwap
