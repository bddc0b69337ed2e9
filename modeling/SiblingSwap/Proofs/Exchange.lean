import SiblingSwap.Proofs.Address
import SiblingSwap.Proofs.Scan
import SiblingSwap.Swap.Run

/-! What a swap does to a text. Neighbours in a tree are elements below two children of one node that follow each
    other, so in the tree of a scan the two spans of a pair take up room, lie one after the other and end at boundaries
    of the text. The edits of an exchange then put each part of the text where it belongs. -/

namespace SiblingSwap

/-! ### Neighbours -/

/-- The element at `l` is at or below the sibling that comes right before the element at `r`. -/
def Address.Beside (l r : Address) : Prop := ∃ i up, r = (i + 1) :: up ∧ (i :: up) <:+ l

namespace Node
variable {tree : Node} {a l r : Address}

theorem rightFrom_beside {kept : Option Address} (hkept : ∀ k ∈ kept, a <:+ k)
    (h : tree.rightFrom kept a = ⟨some l, some r⟩) : l.Beside r := by
  induction a generalizing kept with
  | nil => simp [rightFrom] at h
  | cons i up ih =>
    unfold rightFrom at h
    split at h
    · next right hnext =>
      simp only [Neighbors.mk.injEq, Option.some.injEq] at h
      obtain ⟨rfl, rfl⟩ := h
      simp only [next?, Option.ite_none_right_eq_some, Option.some.injEq] at hnext
      refine ⟨i, up, hnext.2.symm, ?_⟩
      cases kept with
      | none => exact List.suffix_refl _
      | some k => exact hkept k rfl
    · refine ih (fun k hk => ?_) h
      cases kept with
      | some k' =>
        have : k' = k := by simpa using hk
        exact this ▸ (List.suffix_cons i up).trans (hkept k' rfl)
      | none =>
        have hk' : tree.isChainLink up ∧ i :: up = k := by simpa using hk
        exact hk'.2 ▸ List.suffix_cons i up

/-- The climb to the left stops at an ancestor `r` with a previous sibling. That sibling is the left one, or its last
    child is, where it continues the chain of its parent. -/
theorem leftNeighbors_cases (h : tree.leftNeighbors a = ⟨some l, some r⟩) :
    ∃ i up n parent, r = (i + 1) :: up ∧ r <:+ a ∧ tree.at? (i :: up) = some n ∧ tree.at? up = some parent ∧
      (l = i :: up ∨ parent.role = .operator ∧ n.priority = parent.priority ∧ tree.lastChild? (i :: up) = some l) := by
  induction a with
  | nil => simp [leftNeighbors] at h
  | cons k up ih =>
    unfold leftNeighbors at h
    split at h
    · obtain ⟨i, top, n, parent, hr, hsuffix, hrest⟩ := ih h
      exact ⟨i, top, n, parent, hr, hsuffix.trans (List.suffix_cons k up), hrest⟩
    · next before hprev =>
      obtain ⟨i, rfl, rfl, n, hn⟩ : ∃ i, k = i + 1 ∧ before = i :: up ∧ ∃ n, tree.at? (i :: up) = some n := by
        cases k with
        | zero => simp [prev?] at hprev
        | succ i =>
          simp only [prev?, Option.ite_none_right_eq_some, Option.some.injEq] at hprev
          exact ⟨i, rfl, hprev.2.symm, Option.isSome_iff_exists.mp hprev.1⟩
      obtain ⟨parent, hparent, -⟩ := Option.bind_eq_some_iff.mp hn
      simp only [hparent, hn] at h
      split at h
      · next hchain =>
        simp only [Neighbors.mk.injEq, Option.some.injEq] at h
        exact ⟨i, up, n, parent, h.2.symm, h.2 ▸ List.suffix_refl _, hn, hparent, Or.inr ⟨hchain.1, hchain.2, h.1⟩⟩
      · simp only [Neighbors.mk.injEq, Option.some.injEq] at h
        exact ⟨i, up, n, parent, h.2.symm, h.2 ▸ List.suffix_refl _, hn, hparent, Or.inl h.1.symm⟩

theorem lastChild?_eq_some (h : tree.lastChild? a = some l) : ∃ j, l = j :: a := by
  unfold lastChild? at h
  split at h
  · exact ⟨_, (Option.some.inj h).symm⟩
  · cases h

theorem leftNeighbors_beside (h : tree.leftNeighbors a = ⟨some l, some r⟩) : l.Beside r := by
  obtain ⟨i, up, n, parent, hr, -, -, -, rfl | ⟨-, -, hlast⟩⟩ := leftNeighbors_cases h
  · exact ⟨i, up, hr, List.suffix_refl _⟩
  · obtain ⟨j, rfl⟩ := lastChild?_eq_some hlast
    exact ⟨i, up, hr, List.suffix_cons j _⟩

/-- In either direction, the left one of two neighbours stands before the right one. -/
theorem neighbors_beside {d : Direction} (h : tree.neighbors a d = ⟨some l, some r⟩) : l.Beside r := by
  cases d with
  | forward => exact rightFrom_beside (by simp) h
  | backward => exact leftNeighbors_beside h

theorem Ordered.before_of_beside (h : Ordered tree) (hlr : l.Beside r) {left right : Node}
    (hl : tree.at? l = some left) (hr : tree.at? r = some right) : left.Before right := by
  obtain ⟨i, up, rfl, below, rfl⟩ := hlr
  obtain ⟨parent, hparent, hright⟩ := Option.bind_eq_some_iff.mp hr
  rw [at?_append] at hl
  obtain ⟨sibling, hsibling, hleft⟩ := Option.bind_eq_some_iff.mp hl
  obtain ⟨parent', hparent', hsibling⟩ := Option.bind_eq_some_iff.mp hsibling
  rw [hparent] at hparent'
  cases hparent'
  obtain ⟨hi, hi'⟩ := List.getElem?_eq_some_iff.mp hsibling
  obtain ⟨hj, hj'⟩ := List.getElem?_eq_some_iff.mp hright
  have hbefore := List.pairwise_iff_getElem.mp (h.at? hparent).1.siblings i (i + 1) hi hj (Nat.lt_succ_self i)
  rw [hi', hj'] at hbefore
  exact fun s hs t ht => hbefore s (mem_allTokens_of_at? hleft hs) t ht

end Node

/-! ### Pairs -/

/-- Both spans of a pair take up room in the text and the first ends before the second starts. -/
structure Pair.Fits (text : List Char) (p : Pair) : Prop where
  first : p.first.start < p.first.stop
  apart : p.first.stop ≤ p.second.start
  second : p.second.start < p.second.stop
  boundaries : Text.isBoundary p.first.start text ∧ Text.isBoundary p.first.stop text ∧
    Text.isBoundary p.second.start text ∧ Text.isBoundary p.second.stop text

namespace Node
variable {text : List Char} {tree n : Node}

theorem Ordered.bound_fits (h : Ordered n) (hne : n.tokens ≠ []) (hfound : ∀ t ∈ n.allTokens, t.Found 0 text) :
    n.bound.start < n.bound.stop ∧ Text.isBoundary n.bound.start text ∧ Text.isBoundary n.bound.stop text := by
  have hpos : ∀ t ∈ n.allTokens, t.span.start < t.span.stop := fun t ht => (hfound t ht).nonempty
  obtain ⟨⟨s, hs, hstart⟩, -⟩ := h.bound_start hne hpos
  obtain ⟨⟨t, ht, hstop⟩, hgreatest⟩ := h.bound_stop hne hpos
  refine ⟨?_, hstart ▸ (hfound s hs).isBoundary.1, hstop ▸ (hfound t ht).isBoundary.2⟩
  have := hpos s hs
  have := hgreatest s hs
  omega

theorem tokenAt?_eq_some {pos i : Nat} {t : Token} (h : n.tokenAt? pos = some (i, t)) :
    n.tokens[i]? = some t ∧ t.span.contains pos = true := by
  simp only [tokenAt?, Option.map_eq_some_iff, Prod.mk.injEq] at h
  obtain ⟨_, hget, rfl, rfl⟩ := h
  refine ⟨hget, ?_⟩
  obtain ⟨hlt, rfl⟩ := List.getElem?_eq_some_iff.mp hget
  exact List.findIdx_getElem (w := hlt)

/-- A pair of tokens is made of two that follow each other in the element, and the place is in the left one going
    forward and in the right one going backward. -/
theorem tokenPair_cases {pos : Nat} {d : Direction} {p : Pair} (h : n.tokenPair pos d = .ok p) :
    ∃ (i : Nat) (s t : Token), n.tokens[i]? = some s ∧ n.tokens[i + 1]? = some t ∧ p = ⟨s.span, t.span⟩ ∧
      (d = .forward ∧ s.span.contains pos = true ∨ d = .backward ∧ t.span.contains pos = true) := by
  unfold tokenPair at h
  split at h
  · cases h
  · next i s hat =>
    obtain ⟨hs, hpos⟩ := tokenAt?_eq_some hat
    split at h
    · next t ht => exact ⟨i, s, t, hs, ht, (Except.ok.inj h).symm, Or.inl ⟨rfl, hpos⟩⟩
    · cases h
  · cases h
  · next i t hat =>
    obtain ⟨ht, hpos⟩ := tokenAt?_eq_some hat
    split at h
    · next s hs => exact ⟨i, s, t, hs, ht, (Except.ok.inj h).symm, Or.inr ⟨rfl, hpos⟩⟩
    · cases h

theorem elementPair_eq_ok {left right : Node} {p : Pair} (h : elementPair left right = .ok p) :
    (left.role = .closer ↔ right.role = .closer) ∧ p = ⟨left.bound, right.bound⟩ := by
  unfold elementPair at h
  split at h
  · next hrole => exact ⟨hrole, (Except.ok.inj h).symm⟩
  · cases h

/-- A pair is made of two neighbours of the element at the place, or of two tokens of an element below the root. -/
theorem pairAt_cases {pos : Nat} {d : Direction} {p : Pair} (h : tree.pairAt pos d = .ok p) :
    ∃ target, tree.locate? pos = some target ∧
      ((∃ l r left right, tree.neighbors target d = ⟨some l, some r⟩ ∧ tree.at? l = some left ∧
          tree.at? r = some right ∧ elementPair left right = .ok p) ∨
        ∃ i n, target = [i] ∧ tree.at? [i] = some n ∧ n.tokenPair pos d = .ok p) := by
  unfold pairAt at h
  split at h
  · cases h
  · next target hlocate =>
    refine ⟨target, hlocate, ?_⟩
    cases hneighbors : tree.neighbors target d with
    | mk left right =>
      simp only [hneighbors] at h
      split at h
      · next nl nr hnl hnr =>
        obtain ⟨l, rfl, hl⟩ := Option.bind_eq_some_iff.mp hnl
        obtain ⟨r, rfl, hr⟩ := Option.bind_eq_some_iff.mp hnr
        exact Or.inl ⟨l, r, nl, nr, rfl, hl, hr, h⟩
      · split at h
        · next i n hat => exact Or.inr ⟨i, n, rfl, hat, h⟩
        · cases h

theorem elementPair_fits (ho : Ordered tree) (hfound : ∀ t ∈ tree.allTokens, t.Found 0 text) {l r : Address}
    (hlr : l.Beside r) {left right : Node} (hl : tree.at? l = some left) (hr : tree.at? r = some right) {p : Pair}
    (h : elementPair left right = .ok p) : p.Fits text := by
  have hlne : l ≠ [] := by
    obtain ⟨i, up, -, hsuffix⟩ := hlr
    exact List.ne_nil_of_length_pos (Nat.lt_of_lt_of_le (by simp) hsuffix.length_le)
  have hrne : r ≠ [] := by
    obtain ⟨i, up, rfl, -⟩ := hlr
    simp
  have hleft : ∀ t ∈ left.allTokens, t.Found 0 text := fun t ht => hfound t (mem_allTokens_of_at? hl ht)
  have hright : ∀ t ∈ right.allTokens, t.Found 0 text := fun t ht => hfound t (mem_allTokens_of_at? hr ht)
  obtain ⟨hol, hfl⟩ := ho.at? hl
  obtain ⟨hor, hfr⟩ := ho.at? hr
  obtain ⟨⟨s, hs, hstop⟩, -⟩ := hol.bound_stop (hfl hlne) fun t ht => (hleft t ht).nonempty
  obtain ⟨⟨t, ht, hstart⟩, -⟩ := hor.bound_start (hfr hrne) fun t ht => (hright t ht).nonempty
  have hbefore : s.span.stop ≤ t.span.start := ho.before_of_beside hlr hl hr s hs t ht
  obtain ⟨hl₁, hl₂, hl₃⟩ := hol.bound_fits (hfl hlne) hleft
  obtain ⟨hr₁, hr₂, hr₃⟩ := hor.bound_fits (hfr hrne) hright
  obtain ⟨-, rfl⟩ := elementPair_eq_ok h
  exact ⟨hl₁, hstop ▸ hstart ▸ hbefore, hr₁, hl₂, hl₃, hr₂, hr₃⟩

theorem tokenPair_fits (ho : Ordered n) (hfound : ∀ t ∈ n.allTokens, t.Found 0 text) {pos : Nat} {d : Direction}
    {p : Pair} (h : n.tokenPair pos d = .ok p) : p.Fits text := by
  obtain ⟨i, s, t, hs, ht, rfl, -⟩ := tokenPair_cases h
  have hfs := hfound s (mem_allTokens_of_mem_tokens (List.mem_of_getElem? hs))
  have hft := hfound t (mem_allTokens_of_mem_tokens (List.mem_of_getElem? ht))
  obtain ⟨hi, rfl⟩ := List.getElem?_eq_some_iff.mp hs
  obtain ⟨hj, rfl⟩ := List.getElem?_eq_some_iff.mp ht
  exact ⟨hfs.nonempty, List.pairwise_iff_getElem.mp ho.own i (i + 1) hi hj (Nat.lt_succ_self i), hft.nonempty,
    hfs.isBoundary.1, hfs.isBoundary.2, hft.isBoundary.1, hft.isBoundary.2⟩

theorem pairAt_fits (ho : Ordered tree) (hfound : ∀ t ∈ tree.allTokens, t.Found 0 text) {pos : Nat} {d : Direction}
    {p : Pair} (h : tree.pairAt pos d = .ok p) : p.Fits text := by
  obtain ⟨target, -, ⟨l, r, left, right, hneighbors, hl, hr, h⟩ | ⟨i, n, -, hn, h⟩⟩ := pairAt_cases h
  · exact elementPair_fits ho hfound (neighbors_beside hneighbors) hl hr h
  · exact tokenPair_fits (ho.at? hn).1 (fun t ht => hfound t (mem_allTokens_of_at? hn ht)) h

/-- The choice of a pair never declines because of the order of its spans. -/
theorem pairAt_error {pos : Nat} {d : Direction} {why : Skip} (h : tree.pairAt pos d = .error why) :
    why = .noTarget ∨ why = .noNeighbor ∨ why = .closerMismatch := by
  have tokens : ∀ n : Node, n.tokenPair pos d = .error why → why = .noTarget ∨ why = .noNeighbor := by
    intro n hn
    unfold tokenPair at hn
    split at hn
    · exact Or.inl (by simpa using hn.symm)
    · split at hn
      · simp at hn
      · exact Or.inr (by simpa using hn.symm)
    · exact Or.inr (by simpa using hn.symm)
    · split at hn
      · simp at hn
      · exact Or.inr (by simpa using hn.symm)
  unfold pairAt at h
  split at h
  · exact Or.inl (by simpa using h.symm)
  · next target hlocate =>
    simp only at h
    split at h
    · unfold elementPair at h
      split at h
      · simp at h
      · exact Or.inr (Or.inr (by simpa using h.symm))
    · split at h
      · exact (tokens _ h).imp_right Or.inl
      · exact Or.inr (Or.inl (by simpa using h.symm))

end Node

/-! ### Edits -/

/-- The five parts of a text that two spans cut it into, one after the other. Each may be empty. -/
theorem Pair.exists_parts {text : List Char} {p : Pair} (hfirst : p.first.start ≤ p.first.stop)
    (hapart : p.first.stop ≤ p.second.start) (hsecond : p.second.start ≤ p.second.stop)
    (hboundaries : Text.isBoundary p.first.start text ∧ Text.isBoundary p.first.stop text ∧
      Text.isBoundary p.second.start text ∧ Text.isBoundary p.second.stop text) :
    ∃ a x m y z, text = a ++ x ++ m ++ y ++ z ∧ p.first = ⟨Text.size a, Text.size (a ++ x)⟩ ∧
      p.second = ⟨Text.size (a ++ x ++ m), Text.size (a ++ x ++ m ++ y)⟩ := by
  obtain ⟨⟨i, j⟩, ⟨k, l⟩⟩ := p
  obtain ⟨hi, hj, hk, hl⟩ := hboundaries
  simp only at hi hj hk hl hfirst hapart hsecond
  obtain ⟨a, rest, rfl, rfl⟩ := Text.isBoundary_iff.mp hi
  obtain ⟨x, rest, rfl, rfl⟩ := Text.exists_append_of_isBoundary hj hfirst
  rw [← List.append_assoc] at hk hl ⊢
  rw [← Text.size_append] at hapart ⊢
  obtain ⟨m, rest, rfl, rfl⟩ := Text.exists_append_of_isBoundary hk hapart
  rw [← List.append_assoc] at hl ⊢
  rw [← Text.size_append] at hsecond ⊢
  obtain ⟨y, z, rfl, rfl⟩ := Text.exists_append_of_isBoundary hl hsecond
  exact ⟨a, x, m, y, z, by simp, rfl, by simp [Nat.add_assoc]⟩

theorem Pair.Fits.parts {text : List Char} {p : Pair} (h : p.Fits text) :
    ∃ a x m y z, text = a ++ x ++ m ++ y ++ z ∧ p.first = ⟨Text.size a, Text.size (a ++ x)⟩ ∧
      p.second = ⟨Text.size (a ++ x ++ m), Text.size (a ++ x ++ m ++ y)⟩ :=
  Pair.exists_parts (Nat.le_of_lt h.first) h.apart (Nat.le_of_lt h.second) h.boundaries

/-- Two parts of a text that change places. -/
theorem Text.exchanged_perm (a x m y z : List Char) : (a ++ y ++ m ++ x ++ z).Perm (a ++ x ++ m ++ y ++ z) := by
  rw [List.perm_iff_count]
  intro c
  simp only [List.count_append]
  omega

/-- Where the two texts of a pair are after they have changed places. The first text still stops where the second one
    did. -/
def Pair.slots (p : Pair) : Pair :=
  ⟨⟨p.first.start, p.first.start + (p.second.stop - p.second.start)⟩,
    ⟨p.second.stop - (p.first.stop - p.first.start), p.second.stop⟩⟩

theorem Pair.slots_eq {p : Pair} {a x m y : List Char} (hfirst : p.first = ⟨Text.size a, Text.size (a ++ x)⟩)
    (hsecond : p.second = ⟨Text.size (a ++ x ++ m), Text.size (a ++ x ++ m ++ y)⟩) :
    p.slots = ⟨⟨Text.size a, Text.size (a ++ y)⟩, ⟨Text.size (a ++ y ++ m), Text.size (a ++ y ++ m ++ x)⟩⟩ := by
  simp only [slots, hfirst, hsecond, Text.size_append, Pair.mk.injEq, Span.mk.injEq, true_and]
  omega

namespace Buffer
variable {b : Buffer}

theorem cut?_text {before inside after : List Char} (h : b.text = before ++ inside ++ after) :
    Text.cut? ⟨Text.size before, Text.size (before ++ inside)⟩ b.text = some (before, inside, after) := by
  rw [h, Text.size_append, List.append_assoc]
  exact Text.cut?_size_append before inside after

theorem slice_eq (before inside after : List Char) (h : b.text = before ++ inside ++ after) :
    b.slice ⟨Text.size before, Text.size (before ++ inside)⟩ = inside := by
  rw [slice, cut?_text h]

theorem erase_eq {before inside after : List Char} (h : b.text = before ++ inside ++ after) :
    b.erase ⟨Text.size before, Text.size (before ++ inside)⟩ = withCursor (before ++ after) b.cursor := by
  rw [erase, cut?_text h]

theorem insert_eq {before after : List Char} (h : b.text = before ++ after) (new : List Char) :
    b.insert (Text.size before) new = ofText (before ++ new ++ after) b.cursor := by
  rw [insert, h, Text.splitAt?_size_append]

/-- The texts of the two spans change places. For a while the text is without the second one, and a cursor that lies
    past its end by then moves back to it. -/
theorem exchange_eq {a x m y z : List Char} (h : b.text = a ++ x ++ m ++ y ++ z) {p : Pair}
    (hfirst : p.first = ⟨Text.size a, Text.size (a ++ x)⟩)
    (hsecond : p.second = ⟨Text.size (a ++ x ++ m), Text.size (a ++ x ++ m ++ y)⟩) :
    b.exchange p = .ok (ofText (a ++ y ++ m ++ x ++ z) (min b.cursor (Text.size (a ++ x ++ m ++ z)))) := by
  have hx : b.slice p.first = x := hfirst ▸ slice_eq a x (m ++ y ++ z) (by simp [h])
  have hy : b.slice p.second = y := hsecond ▸ slice_eq (a ++ x ++ m) y z h
  have hle : ¬p.second.start < p.first.stop := by simp [hfirst, hsecond]
  have hsize : Text.size (a ++ (m ++ x ++ z)) = Text.size (a ++ x ++ m ++ z) := by
    simp only [Text.size_append]
    omega
  -- The later span is rewritten first, so the earlier one is still in its place for the second edit.
  have h₁ : (b.erase p.second).insert p.second.start x =
      ofText (a ++ x ++ (m ++ x ++ z)) (min b.cursor (Text.size (a ++ x ++ m ++ z))) := by
    rw [hsecond, erase_eq h, insert_eq rfl]
    simp [withCursor]
  have h₂ : (((b.erase p.second).insert p.second.start x).erase p.first).insert p.first.start y =
      ofText (a ++ y ++ m ++ x ++ z) (min b.cursor (Text.size (a ++ x ++ m ++ z))) := by
    rw [h₁, hfirst, erase_eq rfl, insert_eq rfl, withCursor, cursor_ofText, cursor_ofText, hsize]
    simp
  rw [exchange, if_neg hle, hx, hy]
  exact congrArg Except.ok h₂

theorem exchange_text {a x m y z : List Char} (h : b.text = a ++ x ++ m ++ y ++ z) {p : Pair}
    (hfirst : p.first = ⟨Text.size a, Text.size (a ++ x)⟩)
    (hsecond : p.second = ⟨Text.size (a ++ x ++ m), Text.size (a ++ x ++ m ++ y)⟩) :
    ∃ b', b.exchange p = .ok b' ∧ b'.text = a ++ y ++ m ++ x ++ z :=
  ⟨_, exchange_eq h hfirst hsecond, rfl⟩

/-- A pair that fits is exchanged: its texts change places and all else stays. -/
theorem exchange_fits {p : Pair} (h : p.Fits b.text) :
    ∃ b', b.exchange p = .ok b' ∧
      b'.text = b.slice ⟨0, p.first.start⟩ ++ b.slice p.second ++ b.slice ⟨p.first.stop, p.second.start⟩ ++
        b.slice p.first ++ b.slice ⟨p.second.stop, b.size⟩ ∧
      b'.text.Perm b.text := by
  obtain ⟨a, x, m, y, z, htext, hfirst, hsecond⟩ := h.parts
  obtain ⟨b', hb', htext'⟩ := exchange_text htext hfirst hsecond
  have hsize : b.size = Text.size (a ++ x ++ m ++ y ++ z) := congrArg Text.size htext
  refine ⟨b', hb', ?_, ?_⟩
  · have ha := slice_eq (b := b) [] a (x ++ m ++ y ++ z) (by simp [htext])
    have hx := slice_eq (b := b) a x (m ++ y ++ z) (by simp [htext])
    have hm := slice_eq (b := b) (a ++ x) m (y ++ z) (by simp [htext])
    have hy := slice_eq (a ++ x ++ m) y z htext
    have hz := slice_eq (b := b) (a ++ x ++ m ++ y) z [] (by simp [htext])
    rw [List.nil_append, Text.size_nil] at ha
    rw [hfirst, hsecond, hsize, ha, hx, hm, hy, hz, htext']
  · rw [htext', htext]
    exact Text.exchanged_perm a x m y z

end Buffer

theorem Text.size_eq_of_perm {cs ds : List Char} (h : cs.Perm ds) : size cs = size ds := by
  induction h with
  | nil => rfl
  | cons c _ ih => rw [size_cons, size_cons, ih]
  | swap c d cs =>
    simp only [size_cons]
    omega
  | trans _ _ ih ih' => exact ih.trans ih'

/-! ### Swaps -/

namespace Buffer

theorem resolve_fits {b : Buffer} {pos extendLines : Nat} {d : Direction} {p : Pair}
    (h : b.resolve pos d extendLines = .ok p) : p.Fits b.text := by
  obtain ⟨hpairs, hfound⟩ := tokenize_spec b.text (b.window pos d extendLines)
  have hclassified : ∀ t ∈ tokenize b.text (b.window pos d extendLines), t.Classified := fun t ht =>
    (hfound t ht).classified
  have htree := Node.ofTokens_eq hclassified
  have hordered : (b.tree pos d extendLines).Ordered := by
    rw [tree, htree]
    exact Spine.ordered_ofTokens hclassified hpairs
  refine Node.pairAt_fits hordered (fun t ht => ?_) h
  rw [tree, htree] at ht
  exact hfound t (Spine.mem_of_mem_ofTokens hclassified t ht)

theorem eq_of_skipped {b b' : Buffer} {s : Settings} {d : Direction} {why : Skip}
    (h : b.swap s d = (b', .skipped why)) : b' = b := by
  unfold swap at h
  split at h
  · exact (Prod.mk.inj h).1.symm
  · split at h
    · exact (Prod.mk.inj h).1.symm
    · cases (Prod.mk.inj h).2

/-- A swap either exchanges the texts of two spans, which take up room, lie one after the other and end at boundaries,
    or it declines for one of three reasons and changes nothing. -/
theorem swap_exchanges_or_declines (text : List Char) (cursor : Nat) (s : Settings) (d : Direction) :
    let b := Buffer.withCursor text cursor
    let b' := (b.swap s d).1
    (∃ p moved, (b.swap s d).2 = .swapped p moved ∧
      p.first.start < p.first.stop ∧ p.first.stop ≤ p.second.start ∧ p.second.start < p.second.stop ∧
      p.second.stop ≤ Text.size text ∧
      Text.isBoundary p.first.start text ∧ Text.isBoundary p.first.stop text ∧
      Text.isBoundary p.second.start text ∧ Text.isBoundary p.second.stop text ∧
      b'.text = b.slice ⟨0, p.first.start⟩ ++ b.slice p.second ++ b.slice ⟨p.first.stop, p.second.start⟩ ++
        b.slice p.first ++ b.slice ⟨p.second.stop, Text.size text⟩ ∧
      Text.size b'.text = Text.size text ∧ b'.text.Perm text) ∨
    (∃ why, (b.swap s d).2 = .skipped why ∧ (why = .noTarget ∨ why = .noNeighbor ∨ why = .closerMismatch) ∧
      b'.text = b.text ∧ b'.cursor = b.cursor ∧ b'.starts = b.starts) := by
  intro b b'
  cases hresolve : b.resolve b.cursor d s.extendLines with
  | error why =>
    have hswap : b.swap s d = (b, .skipped why) := by rw [swap, hresolve]
    have hb' : b' = b := congrArg Prod.fst hswap
    exact Or.inr ⟨why, by rw [hswap], Node.pairAt_error hresolve, by rw [hb'], by rw [hb'], by rw [hb']⟩
  | ok p =>
    have hfits : p.Fits text := resolve_fits hresolve
    obtain ⟨swapped, hexchange, htext, hperm⟩ := exchange_fits (b := b) hfits
    have hmoved : b'.text = swapped.text := by
      show (b.swap s d).1.text = _
      rw [swap, hresolve]
      simp only [hexchange]
      split <;> rfl
    refine Or.inl ⟨p, b'.cursor, ?_, hfits.first, hfits.apart, hfits.second,
      Text.isBoundary_le hfits.boundaries.2.2.2, hfits.boundaries.1, hfits.boundaries.2.1, hfits.boundaries.2.2.1,
      hfits.boundaries.2.2.2, hmoved ▸ htext, ?_, hmoved ▸ hperm⟩
    · show (b.swap s d).2 = .swapped p (b.swap s d).1.cursor
      rw [swap, hresolve]
      simp only [hexchange]
    · exact Text.size_eq_of_perm (hmoved ▸ hperm)

end Buffer
end SiblingSwap
