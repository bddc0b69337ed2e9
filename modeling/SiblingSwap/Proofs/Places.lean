import SiblingSwap.Proofs.Spine

/-! Where the tokens of a growing tree are found. A token that is read comes to lie at the new focus; what was read
    before stays where it is, except that an operator pushes all that it adopts one level down (`Settles`). -/

namespace SiblingSwap

/-! ### The tokens at an address -/

namespace Node

def tokensAt? (tree : Node) (a : Address) : Option (List Token) := (tree.at? a).map (·.tokens)

@[simp]
theorem tokensAt?_nil (n : Node) : n.tokensAt? [] = some n.tokens := rfl

@[simp]
theorem tokensAt?_concat (n : Node) (a : Address) (i : Nat) :
    n.tokensAt? (a ++ [i]) = n.children[i]?.bind (·.tokensAt? a) := by
  rw [tokensAt?, at?_concat, Option.map_bind]
  rfl

/-- The element at an address is complete: its last token is a closer. -/
def ClosedAt (tree : Node) (a : Address) : Prop :=
  ∃ u, (tree.tokensAt? a).bind List.getLast? = some u ∧ u.role = .closer

theorem tokensAt?_under_append (n : Node) (ps : List Node) (a : Address) :
    (n.under ps).tokensAt? (a ++ Address.below ps) = n.tokensAt? a := by
  rw [tokensAt?, at?_append, at?_under]
  rfl

/-- A new last child is seen at and below its own place only. -/
theorem tokensAt?_push (n c : Node) {a : Address} (ha : ¬[n.children.length] <:+ a) :
    (n.push c).tokensAt? a = n.tokensAt? a := by
  rcases List.eq_nil_or_concat' a with rfl | ⟨a, i, rfl⟩
  · rfl
  · have hne : i ≠ n.children.length := by
      rintro rfl
      exact ha (List.suffix_append a _)
    rw [tokensAt?_concat, tokensAt?_concat, push_children, List.getElem?_append]
    split
    · rfl
    · next hle =>
      have hnew : [c][i - n.children.length]? = none := List.getElem?_eq_none (by simp; omega)
      rw [hnew, List.getElem?_eq_none (Nat.not_lt.mp hle)]

theorem tokensAt?_next (n : Node) (ps : List Node) (a : Address) :
    (n.under ps).tokensAt? (a ++ Address.below (n :: ps)) = none := by
  show (n.under ps).tokensAt? (a ++ n.children.length :: Address.below ps) = none
  rw [List.append_cons, tokensAt?_under_append, tokensAt?_concat, List.getElem?_eq_none (Nat.le_refl _)]
  rfl

/-- A node on the spine is seen at and below its own address only. -/
theorem tokensAt?_under_of_not_suffix (n m : Node) {ps : List Node} {a : Address} (ha : ¬Address.below ps <:+ a) :
    (n.under ps).tokensAt? a = (m.under ps).tokensAt? a := by
  induction ps generalizing n m with
  | nil => exact absurd (List.nil_suffix) ha
  | cons p ps ih =>
    rw [under, under]
    by_cases hps : Address.below ps <:+ a
    · obtain ⟨x, rfl⟩ := hps
      have hx : ¬[p.children.length] <:+ x := fun h => ha (List.suffix_append_self_iff.mpr h)
      rw [tokensAt?_under_append, tokensAt?_under_append, tokensAt?_push p n hx, tokensAt?_push p m hx]
    · exact ih _ _ hps

theorem tokensAt?_under_cons (n c : Node) {ps : List Node} {a : Address} (ha : ¬Address.below (n :: ps) <:+ a) :
    (c.under (n :: ps)).tokensAt? a = (n.under ps).tokensAt? a := by
  rw [under]
  by_cases hps : Address.below ps <:+ a
  · obtain ⟨x, rfl⟩ := hps
    have hx : ¬[n.children.length] <:+ x := fun h => ha (List.suffix_append_self_iff.mpr h)
    rw [tokensAt?_under_append, tokensAt?_under_append, tokensAt?_push n c hx]
  · exact tokensAt?_under_of_not_suffix _ _ hps

theorem tokensAt?_under_of_suffix (n : Node) {ps : List Node} {a : Address} (ha : a <:+ Address.below ps) :
    ∃ p ∈ n :: ps, (n.under ps).tokensAt? a = some p.tokens := by
  induction ps generalizing n with
  | nil =>
    rw [List.suffix_nil.mp ha]
    exact ⟨n, by simp, rfl⟩
  | cons p ps ih =>
    rcases List.suffix_cons_iff.mp ha with rfl | ha
    · exact ⟨n, by simp, tokensAt?_under_append n (p :: ps) []⟩
    · obtain ⟨q, hq, htokens⟩ := ih (p.push n) ha
      rcases List.mem_cons.mp hq with rfl | hq
      · exact ⟨p, by simp, htokens⟩
      · exact ⟨q, by simp [hq], htokens⟩

end Node

/-! ### What a token does -/

namespace Spine
variable {w : Spine} {t : Token} {a : Address}

theorem tokensAt?_address (s : Spine) : s.tree.tokensAt? s.address = some s.focus.tokens :=
  Node.tokensAt?_under_append s.focus s.above []

theorem Sound.not_suffix_of_closedAt (hw : Sound w) (hfocus : w.focus.role ≠ .closer)
    (hclosed : w.tree.ClosedAt a) : ¬a <:+ w.address := by
  intro ha
  obtain ⟨u, hu, hrole⟩ := hclosed
  obtain ⟨p, hp, htokens⟩ := Node.tokensAt?_under_of_suffix w.focus ha
  have hclosed : p.role = .closer := by
    rw [tree, htokens, Option.bind_some] at hu
    simp [Node.role, hu, hrole]
  rcases List.mem_cons.mp hp with rfl | hp
  · exact hfocus hclosed
  · have hmore := hw.expecting p hp
    rw [hclosed] at hmore
    cases hmore

/-- The token `t` has come to lie at the focus of `s`, and what lay at `a` in the tree before lies at `move a`. -/
structure Settles (tree : Node) (t : Token) (s : Spine) (move : Address → Address) : Prop where
  /-- Who is above whom does not change. -/
  suffix_iff : ∀ a b, move a <:+ move b ↔ a <:+ b
  fixed : ∀ a, Address.Above a s.address → move a = a
  kept : ∀ a ts, tree.tokensAt? a = some ts →
    s.tree.tokensAt? (move a) = some (if move a = s.address then ts ++ [t] else ts)
  /-- There is nothing else in the new tree. -/
  only : ∀ b ts, s.tree.tokensAt? b = some ts → (∃ a, move a = b ∧ (tree.tokensAt? a).isSome) ∨
    (b = s.address ∧ ts = [t] ∧ ∀ a, move a = b → tree.tokensAt? a = none)
  /-- The focus is neither at nor below an element that had been closed. -/
  closed : ∀ a, tree.ClosedAt a → ¬move a <:+ s.address
  /-- There is nothing below a bracket that has just been opened. -/
  opened : closerOf? t.text ≠ none → ∀ a, Address.Above s.address (move a) → tree.tokensAt? a = none

theorem tokensAt?_join (w : Spine) (t : Token) (a : Address) :
    (w.join t).tree.tokensAt? a = (w.tree.tokensAt? a).map fun ts => if a = w.address then ts ++ [t] else ts := by
  by_cases ha : w.address <:+ a
  · obtain ⟨x, rfl⟩ := ha
    show ((w.focus.absorb t).under w.above).tokensAt? (x ++ w.address) = _
    rw [tree, address, Node.tokensAt?_under_append, Node.tokensAt?_under_append]
    rcases List.eq_nil_or_concat' x with rfl | ⟨x, i, rfl⟩
    · simp [Node.absorb]
    · have hne : x ++ [i] ++ Address.below w.above ≠ Address.below w.above := by
        intro h
        have hlength := congrArg List.length h
        simp only [List.length_append, List.length_singleton] at hlength
        omega
      simp only [Node.absorb, hne, if_false, Option.map_id']
      simp
  · have hne : a ≠ w.address := fun h => ha (h ▸ List.suffix_refl _)
    rw [show (w.join t).tree.tokensAt? a = w.tree.tokensAt? a from Node.tokensAt?_under_of_not_suffix _ _ ha]
    simp [hne]

theorem settles_join (hw : Sound w) (hfocus : w.focus.role ≠ .closer)
    (hopen : closerOf? t.text ≠ none → w.focus.children = []) : Settles w.tree t (w.join t) id where
  suffix_iff _ _ := Iff.rfl
  fixed _ _ := rfl
  kept a ts ha := by
    rw [id, tokensAt?_join, ha]
    rfl
  only b ts hb := by
    rw [tokensAt?_join, Option.map_eq_some_iff] at hb
    obtain ⟨us, hus, -⟩ := hb
    exact Or.inl ⟨b, rfl, by simp [hus]⟩
  closed _ ha := hw.not_suffix_of_closedAt hfocus ha
  opened ht a ha := by
    obtain ⟨⟨x, rfl⟩, hne⟩ := ha
    rcases List.eq_nil_or_concat' x with rfl | ⟨x, i, rfl⟩
    · exact absurd rfl hne
    · show (w.focus.under w.above).tokensAt? _ = none
      rw [show (w.join t).address = Address.below w.above from rfl, Node.tokensAt?_under_append]
      simp [hopen ht]

/-- Nothing lies at or below the place of a newcomer. -/
theorem tokensAt?_vacant (w : Spine) (t : Token) (a : Address) :
    w.tree.tokensAt? (a ++ (w.append t).address) = none :=
  Node.tokensAt?_next w.focus w.above a

theorem settles_append (hw : Sound w) (hfocus : w.focus.role ≠ .closer) : Settles w.tree t (w.append t) id where
  suffix_iff _ _ := Iff.rfl
  fixed _ _ := rfl
  kept a ts ha := by
    have hplace : ¬(w.append t).address <:+ a := by
      rintro ⟨x, rfl⟩
      rw [tokensAt?_vacant] at ha
      cases ha
    have hne : a ≠ (w.append t).address := fun h => hplace (h ▸ List.suffix_refl _)
    rw [id, if_neg hne, ← ha]
    exact Node.tokensAt?_under_cons _ _ hplace
  only b ts hb := by
    by_cases hplace : (w.append t).address <:+ b
    · obtain ⟨x, rfl⟩ := hplace
      have hnew : (Node.leaf t).tokensAt? x = some ts := (Node.tokensAt?_under_append _ _ x).symm.trans hb
      rcases List.eq_nil_or_concat' x with rfl | ⟨x, i, rfl⟩
      · refine Or.inr ⟨rfl, (Option.some.inj hnew).symm, ?_⟩
        rintro _ rfl
        exact tokensAt?_vacant w t []
      · simp [Node.leaf] at hnew
    · refine Or.inl ⟨b, rfl, ?_⟩
      rw [show w.tree.tokensAt? b = some ts from (Node.tokensAt?_under_cons _ _ hplace).symm.trans hb]
      rfl
  closed a hclosed := by
    intro ha
    rcases List.suffix_cons_iff.mp ha with h | ha
    · obtain rfl : a = (w.append t).address := h
      obtain ⟨u, hu, -⟩ := hclosed
      rw [show w.tree.tokensAt? (w.append t).address = none from tokensAt?_vacant w t []] at hu
      cases hu
    · exact hw.not_suffix_of_closedAt hfocus hclosed ha
  opened _ a ha := by
    obtain ⟨x, rfl⟩ := ha.1
    exact tokensAt?_vacant w t x

theorem tokensAt?_last (w : Spine) (t : Token) (a : Address) :
    w.tree.tokensAt? (a ++ (w.wrap t).address) = w.focus.children.getLast?.bind (·.tokensAt? a) := by
  obtain ⟨⟨us, cs⟩, ps⟩ := w
  rcases List.eq_nil_or_concat' cs with rfl | ⟨cs, c, rfl⟩
  · exact Node.tokensAt?_next _ ps a
  · simp only [wrap, address, List.dropLast_concat, List.getLast?_concat, Option.bind_some]
    exact Node.tokensAt?_under_append c (⟨us, cs⟩ :: ps) a

theorem tokensAt?_wrap_of_not_suffix (w : Spine) (t : Token) (ha : ¬(w.wrap t).address <:+ a) :
    (w.wrap t).tree.tokensAt? a = w.tree.tokensAt? a := by
  obtain ⟨⟨us, cs⟩, ps⟩ := w
  rcases List.eq_nil_or_concat' cs with rfl | ⟨cs, c, rfl⟩
  · exact Node.tokensAt?_under_cons _ _ ha
  · simp only [wrap, address, List.dropLast_concat] at ha
    simp only [wrap, tree, List.dropLast_concat]
    exact Node.tokensAt?_under_of_not_suffix _ c ha

/-- What an operator adopts is found one level further down, below the operator. -/
theorem tokensAt?_adopted (w : Spine) (t : Token) (a : Address) :
    (w.wrap t).tree.tokensAt? (Address.adopted (w.wrap t).address a) = w.tree.tokensAt? a := by
  by_cases ha : (w.wrap t).address <:+ a
  · obtain ⟨x, rfl⟩ := ha
    rw [Address.adopted_append, List.append_cons, tokensAt?_last]
    have hbelow := Node.tokensAt?_under_append (w.wrap t).focus (w.wrap t).above (x ++ [0])
    refine hbelow.trans ?_
    cases hc : w.focus.children.getLast? <;> simp [wrap, hc]
  · rw [Address.adopted_of_not_suffix ha]
    exact tokensAt?_wrap_of_not_suffix w t ha

theorem settles_wrap (hw : Sound w) (hfocus : w.focus.role ≠ .closer) (ht : closerOf? t.text = none) :
    Settles w.tree t (w.wrap t) (Address.adopted (w.wrap t).address) where
  suffix_iff _ _ := Address.adopted_suffix_iff
  fixed a ha := Address.adopted_of_length_lt ha.length_lt
  kept a ts ha := by
    rw [tokensAt?_adopted, ha, if_neg Address.adopted_ne]
  only b ts hb := by
    by_cases hplace : (w.wrap t).address <:+ b
    · obtain ⟨x, rfl⟩ := hplace
      have hnew : (w.wrap t).focus.tokensAt? x = some ts := (Node.tokensAt?_under_append _ _ x).symm.trans hb
      rcases List.eq_nil_or_concat' x with rfl | ⟨x, i, rfl⟩
      · exact Or.inr ⟨rfl, (Option.some.inj hnew).symm, fun a ha => absurd ha Address.adopted_ne⟩
      · -- The operator has at most one child.
        obtain rfl : i = 0 := by
          cases i with
          | zero => rfl
          | succ i => cases hc : w.focus.children.getLast? <;> simp [wrap, hc] at hnew
        have hadopted : Address.adopted (w.wrap t).address (x ++ (w.wrap t).address) =
            x ++ [0] ++ (w.wrap t).address := by
          rw [Address.adopted_append, List.append_cons]
        refine Or.inl ⟨_, hadopted, ?_⟩
        rw [← tokensAt?_adopted w t, hadopted, hb]
        rfl
    · refine Or.inl ⟨b, Address.adopted_of_not_suffix hplace, ?_⟩
      rw [← tokensAt?_wrap_of_not_suffix w t hplace, hb]
      rfl
  closed _ hclosed ha := hw.not_suffix_of_closedAt hfocus hclosed (Address.suffix_of_adopted_suffix ha)
  opened h := absurd ht h

namespace Settles
variable {tree : Node} {s : Spine} {move : Address → Address} {b : Address}

theorem injective (h : Settles tree t s move) (hab : move a = move b) : a = b :=
  Address.eq_of_suffix_iff h.suffix_iff hab

theorem above_iff (h : Settles tree t s move) : Address.Above (move a) (move b) ↔ Address.Above a b :=
  and_congr (h.suffix_iff a b) (not_congr ⟨h.injective, congrArg move⟩)

theorem tokensAt?_of_closedAt (h : Settles tree t s move) (ha : tree.ClosedAt a) :
    s.tree.tokensAt? (move a) = tree.tokensAt? a := by
  have hne : move a ≠ s.address := fun heq => h.closed a ha (heq ▸ List.suffix_refl _)
  obtain ⟨u, hu, -⟩ := ha
  obtain ⟨ts, hts, -⟩ := Option.bind_eq_some_iff.mp hu
  rw [h.kept a ts hts, if_neg hne, hts]

theorem closedAt (h : Settles tree t s move) (ha : tree.ClosedAt a) : s.tree.ClosedAt (move a) := by
  obtain ⟨u, hu, hrole⟩ := ha
  exact ⟨u, by rw [h.tokensAt?_of_closedAt ⟨u, hu, hrole⟩, hu], hrole⟩

end Settles
end Spine

/-! ### Keeping track

The places of all tokens read so far, in order; a token that was left out has none. -/

theorem getElem?_concat_eq_some {α : Type} {l : List α} {x y : α} {k : Nat} (h : (l ++ [x])[k]? = some y) :
    l[k]? = some y ∨ (k = l.length ∧ y = x) := by
  rcases Nat.lt_or_ge k l.length with hlt | hge
  · rw [List.getElem?_append_left hlt] at h
    exact Or.inl h
  · have hlast := (List.getElem?_eq_some_iff.mp h).1
    simp only [List.length_append, List.length_singleton] at hlast
    obtain rfl : k = l.length := by omega
    exact Or.inr ⟨rfl, by simpa using h.symm⟩

namespace Draft

/-- The token leaves no trace: it is a line break where more is expected. -/
def drops (d : Draft) (t : Token) : Bool := t.text = ['\n'] && d.focused.role.expectsMore

/-- The token adopts an element: it is an operator, or a closer that is not awaited. -/
def adopts (d : Draft) (t : Token) : Bool :=
  t.role = .operator || t.role = .closer && d.awaited.head?.map (·.1) ≠ some t.text

/-- Where the element at an address is found once the token has been read. -/
def move (d : Draft) (t : Token) (a : Address) : Address :=
  if d.adopts t then Address.adopted (d.add t).focus a else a

/-- The places after one more token, which comes to lie at the new focus. -/
def track (d : Draft) (places : List (Option Address)) (t : Token) : List (Option Address) :=
  if d.drops t then places ++ [none] else places.map (Option.map (d.move t)) ++ [some (d.add t).focus]

/-- The places of all tokens in their tree. -/
def places (ts : List Token) : List (Option Address) :=
  (ts.foldl (fun (d, places) t => (d.add t, d.track places t)) (empty, [])).2

theorem places_concat (ts : List Token) (t : Token) : places (ts ++ [t]) = (ofTokens ts).track (places ts) t := by
  have hdraft : ∀ (us : List Token) (d : Draft) (ps : List (Option Address)),
      (us.foldl (fun (d, places) t => (d.add t, d.track places t)) (d, ps)).1 = us.foldl add d := by
    intro us
    induction us with
    | nil => exact fun _ _ => rfl
    | cons u us ih => exact fun _ _ => ih _ _
  rw [places, List.foldl_append]
  simp only [List.foldl_cons, List.foldl_nil, hdraft]
  rfl

theorem length_places (ts : List Token) : (places ts).length = ts.length := by
  induction ts using List.reverseRecOn with
  | nil => rfl
  | append_singleton ts t ih =>
    rw [places_concat, track]
    split <;> simp [ih]

/-- Exactly the tokens that leave no trace have no place. -/
theorem places_eq_none_iff (ts : List Token) {k : Nat} {t : Token} (ht : ts[k]? = some t) :
    (places ts)[k]? = some none ↔ (ofTokens (ts.take k)).drops t = true := by
  induction ts using List.reverseRecOn with
  | nil => cases ht
  | append_singleton ts u ih =>
    have hlength := length_places ts
    rw [places_concat, track]
    rcases getElem?_concat_eq_some ht with ht | ⟨rfl, rfl⟩
    · have hk := (List.getElem?_eq_some_iff.mp ht).1
      rw [List.take_append_of_le_length (Nat.le_of_lt hk), ← ih ht]
      split
      · rw [List.getElem?_append_left (by omega)]
      · rw [List.getElem?_append_left (by simpa [hlength] using hk)]
        simp
    · rw [List.take_left' rfl]
      split
      · next h => simp [← hlength, h]
      · next h => simp [← hlength, h]

end Draft

namespace Spine
variable {s : Spine} {t : Token}

theorem closerOf?_of_mem_awaited {closer : List Char} {a : Address} (h : (closer, a) ∈ s.awaited) :
    ∃ o, closerOf? o = some closer := by
  have along : ∀ ps : List Node, (closer, a) ∈ awaitedAlong ps → ∃ o, closerOf? o = some closer := by
    intro ps
    induction ps with
    | nil => exact fun h => by cases h
    | cons n ps ih =>
      intro h
      rcases List.mem_append.mp h with h | h
      · obtain ⟨c, hc, heq⟩ := List.mem_map.mp h
        obtain ⟨u, -, hu⟩ := Option.bind_eq_some_iff.mp (Option.mem_toList.mp hc)
        exact ⟨u.text, by rw [hu, (Prod.mk.inj heq).1]⟩
      · exact ih h
  exact along _ h

theorem head?_awaited_ne (ht : t.Classified)
    (hother : t.role = .closer → t.text ≠ ['\n'] → ∀ w, s.waiting? ≠ some (t.text, w)) (a : Address) :
    s.awaited.head? ≠ some (t.text, a) := by
  intro hhead
  obtain ⟨o, ho⟩ := closerOf?_of_mem_awaited (List.mem_of_head? hhead)
  obtain ⟨hrole, hline⟩ := ht.of_closing ho
  have hawaited := awaited_of_waiting? s
  cases hw : s.waiting? with
  | none => simp [hawaited, hw] at hhead
  | some cw =>
    obtain ⟨c, w⟩ := cw
    simp only [hawaited, hw, List.head?_cons, Option.some.injEq, Prod.mk.injEq] at hhead
    exact hother hrole hline w (hhead.1 ▸ hw)

theorem adopts_toDraft_of_close {w : Spine} (hrole : t.role = .closer) (hw : s.waiting? = some (t.text, w)) :
    s.toDraft.adopts t = false := by
  have hawaited := awaited_of_waiting? s
  rw [hw] at hawaited
  simp [Draft.adopts, toDraft, hawaited, hrole]

theorem adopts_toDraft_of_wrap (ht : t.Classified) (hrole : t.role = .operator ∨ t.role = .closer)
    (hother : t.role = .closer → t.text ≠ ['\n'] → ∀ w, s.waiting? ≠ some (t.text, w)) : s.toDraft.adopts t = true := by
  have hhead : s.toDraft.awaited.head?.map (·.1) ≠ some t.text := by
    intro hhead
    obtain ⟨⟨closer, a⟩, hmem, rfl⟩ := Option.map_eq_some_iff.mp hhead
    exact head?_awaited_ne ht hother a hmem
  rcases hrole with hrole | hrole
  · simp [Draft.adopts, hrole]
  · simp [Draft.adopts, hrole, hhead]

theorem settles_add (hs : Sound s) (ht : t.Classified) (hkept : s.toDraft.drops t = false) :
    Settles s.tree t (s.add t) (s.toDraft.move t) := by
  have hmove : s.toDraft.move t = if s.toDraft.adopts t then Address.adopted (s.add t).address else id := by
    funext a
    rw [Draft.move, focus_add_toDraft hs ht]
    split <;> rfl
  rw [hmove]
  have hreads := reads_add s ht
  generalize s.add t = s' at hreads ⊢
  cases hreads with
  | drop line more =>
    simp [Draft.drops, line, focused_toDraft, more] at hkept
  | join role focus =>
    have hadopts : s.toDraft.adopts t = false := by rcases role with h | h <;> simp [Draft.adopts, h]
    rw [hadopts]
    exact settles_join hs (by simp [focus]) fun _ => hs.leaf focus
  | append role focus =>
    have hadopts : s.toDraft.adopts t = false := by rcases role with h | h <;> simp [Draft.adopts, h]
    have hmore := hs.expectsMore_host
    rw [hadopts, ← hs.climbs_host.tree_eq]
    exact settles_append (hs.climbs hs.climbs_host) fun h => by simp [h, Role.expectsMore] at hmore
  | @close w role line waiting =>
    obtain ⟨hclimb, hawaits⟩ := climbs_waiting? waiting
    have hw := hs.climbs hclimb
    rw [adopts_toDraft_of_close role waiting, ← hclimb.tree_eq]
    refine settles_join hw ?_ fun h => absurd (ht.closerOf?_eq_none (by simp [role])) h
    simp [(hw.focus.of_awaits? hawaits).1]
  | wrap role kept other =>
    obtain ⟨hb, hclimb, hmore⟩ := hs.climbs_operator ht role
    rw [adopts_toDraft_of_wrap ht role other, ← hclimb.tree_eq]
    exact settles_wrap (hs.climbs hclimb) (fun h => by simp [h, Role.expectsMore] at hmore) hb

end Spine

/-! ### Places and tokens -/

/-- The tokens with a place, in order. -/
def heldAt (ts : List Token) (places : List (Option Address)) (a : Address) : List Token :=
  ((ts.zip places).filter (·.2 = some a)).map (·.1)

/-- The tree holds exactly the tokens that have a place, each at its place. -/
structure Locates (ts : List Token) (tree : Node) (places : List (Option Address)) : Prop where
  length : places.length = ts.length
  found : ∀ a, some a ∈ places → (tree.tokensAt? a).isSome
  held : ∀ a us, tree.tokensAt? a = some us → us = heldAt ts places a

section Locates
variable {ts : List Token} {places : List (Option Address)} {tree : Node} {t : Token}

theorem heldAt_concat (h : places.length = ts.length) (p : Option Address) (a : Address) :
    heldAt (ts ++ [t]) (places ++ [p]) a = heldAt ts places a ++ if p = some a then [t] else [] := by
  rw [heldAt, List.zip_append h.symm, List.filter_append, List.map_append]
  by_cases hp : p = some a <;> simp [heldAt, hp]

theorem heldAt_map {move : Address → Address} (hmove : ∀ a b, move a = move b → a = b) (a : Address) :
    heldAt ts (places.map (Option.map move)) (move a) = heldAt ts places a := by
  have hsame : ∀ p : Option Address, p.map move = some (move a) ↔ p = some a := by
    intro p
    cases p with
    | none => simp
    | some b => simpa using ⟨hmove b a, congrArg move⟩
  simp [heldAt, List.zip_map_right, List.filter_map, Function.comp_def, hsame]

theorem heldAt_eq_nil {a : Address} (h : some a ∉ places) : heldAt ts places a = [] := by
  rw [heldAt, List.map_eq_nil_iff, List.filter_eq_nil_iff]
  rintro ⟨t, p⟩ hmem hp
  have hp : p = some a := by simpa using hp
  exact h (hp ▸ (List.of_mem_zip hmem).2)

namespace Locates

theorem drop (h : Locates ts tree places) (t : Token) : Locates (ts ++ [t]) tree (places ++ [none]) where
  length := by simp [h.length]
  found a ha := h.found a (by simpa using ha)
  held a us ha := by
    rw [heldAt_concat h.length, h.held a us ha]
    simp

/-- The tree with one token more, at the end of the node at `place`; what lay at `a` before lies at `move a`. -/
theorem grow (h : Locates ts tree places) {grown : Node} {place : Address} {move : Address → Address}
    (hmove : ∀ a b, move a = move b → a = b) (hplace : (grown.tokensAt? place).isSome)
    (hkept : ∀ a us, tree.tokensAt? a = some us →
      grown.tokensAt? (move a) = some (if move a = place then us ++ [t] else us))
    (honly : ∀ b us, grown.tokensAt? b = some us → (∃ a, move a = b ∧ (tree.tokensAt? a).isSome) ∨
      (b = place ∧ us = [t] ∧ ∀ a, move a = b → tree.tokensAt? a = none)) :
    Locates (ts ++ [t]) grown (places.map (Option.map move) ++ [some place]) where
  length := by simp [h.length]
  found a ha := by
    rcases List.mem_append.mp ha with ha | ha
    · obtain ⟨p, hp, hpa⟩ := List.mem_map.mp ha
      obtain ⟨b, rfl, rfl⟩ := Option.map_eq_some_iff.mp hpa
      obtain ⟨us, hus⟩ := Option.isSome_iff_exists.mp (h.found b hp)
      rw [hkept b us hus]
      rfl
    · obtain rfl : a = place := by simpa using ha
      exact hplace
  held b us hb := by
    rw [heldAt_concat (by simp [h.length])]
    rcases honly b us hb with ⟨a, rfl, ha⟩ | ⟨rfl, rfl, hnew⟩
    · obtain ⟨vs, hvs⟩ := Option.isSome_iff_exists.mp ha
      rw [hkept a vs hvs, Option.some.injEq] at hb
      rw [heldAt_map hmove, ← h.held a vs hvs, ← hb]
      by_cases heq : move a = place
      · rw [if_pos heq, if_pos (heq ▸ rfl)]
      · rw [if_neg heq, if_neg fun h => heq (Option.some.inj h).symm, List.append_nil]
    · have hvacant : some b ∉ places.map (Option.map move) := by
        intro hmem
        obtain ⟨p, hp, hpa⟩ := List.mem_map.mp hmem
        obtain ⟨a, rfl, ha⟩ := Option.map_eq_some_iff.mp hpa
        have := h.found a hp
        rw [hnew a ha] at this
        cases this
      rw [heldAt_eq_nil hvacant, if_pos rfl]
      rfl

theorem settle (h : Locates ts tree places) {s : Spine} {move : Address → Address}
    (hs : Spine.Settles tree t s move) :
    Locates (ts ++ [t]) s.tree (places.map (Option.map move) ++ [some s.address]) :=
  h.grow (fun _ _ => hs.injective) (by rw [s.tokensAt?_address]; rfl) hs.kept hs.only

end Locates
end Locates
end SiblingSwap
