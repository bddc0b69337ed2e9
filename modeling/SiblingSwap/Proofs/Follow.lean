import SiblingSwap.Proofs.Carry
import SiblingSwap.Proofs.Level
import SiblingSwap.Proofs.Traversal

/-! What a swap moves. The element at the cursor, or one around it, is the left one of a pair going forward and the
    right one going backward, so its bound reaches over the cursor. The cursor goes with its text to the other end of
    the exchange. -/

namespace SiblingSwap

namespace Node
variable {tree m n : Node} {a b l r : Address} {pos : Nat} {d : Direction} {p : Pair}

/-! ### The side that moves -/

theorem suffix_of_rightFrom {kept : Option Address} (hkept : ∀ k ∈ kept, k <:+ b) (ha : a <:+ b)
    (h : (tree.rightFrom kept a).left = some l) : l <:+ b := by
  induction a generalizing kept with
  | nil =>
    obtain rfl := Option.some.inj h
    cases kept with
    | none => exact ha
    | some k => exact hkept k rfl
  | cons i up ih =>
    rw [rightFrom] at h
    cases hnext : tree.next? (i :: up) with
    | some right =>
      rw [hnext] at h
      obtain rfl := Option.some.inj h
      cases kept with
      | none => exact ha
      | some k => exact hkept k rfl
    | none =>
      rw [hnext] at h
      refine ih (fun k hk => ?_) ((List.suffix_cons i up).trans ha) h
      cases kept with
      | some _ => exact hkept k hk
      | none =>
        cases hlink : tree.isChainLink up with
        | false => simp [hlink] at hk
        | true =>
          obtain rfl : i :: up = k := by simpa [hlink] using hk
          exact ha

theorem suffix_of_leftNeighbors (h : (tree.leftNeighbors a).right = some r) : r <:+ a := by
  induction a with
  | nil =>
    obtain rfl := Option.some.inj h
    exact List.suffix_refl _
  | cons i up ih =>
    have hself : some (i :: up) = some r → r <:+ i :: up := fun h => Option.some.inj h ▸ List.suffix_refl _
    rw [leftNeighbors] at h
    split at h
    · exact (ih h).trans (List.suffix_cons i up)
    · split at h
      · split at h
        · exact hself h
        · exact hself h
      · exact hself h

theorem span_eq (n : Node) (hne : n.tokens ≠ []) :
    ∃ s ∈ n.tokens, ∃ t ∈ n.tokens, n.span = ⟨s.span.start, t.span.stop⟩ := by
  refine ⟨n.tokens.head hne, List.head_mem hne, n.tokens.getLast hne, List.getLast_mem hne, ?_⟩
  simp [span, List.head?_eq_some_head hne, List.getLast?_eq_some_getLast hne]

/-- An element that reaches over a place by its own tokens does so with the bounds of all elements around it. -/
theorem Ordered.bound_contains (ho : Ordered tree) (hpos : ∀ t ∈ tree.allTokens, t.span.start < t.span.stop)
    (hb : b ≠ []) (hba : b <:+ a) (hn : tree.at? a = some n) (hm : tree.at? b = some m)
    (hcontains : n.span.contains pos = true) : m.bound.contains pos = true := by
  have hfilled : n.tokens ≠ [] := by
    refine (ho.at? hn).2 ?_
    rintro rfl
    exact hb (List.suffix_nil.mp hba)
  have hbelow : ∀ t ∈ n.tokens, t ∈ m.allTokens := by
    obtain ⟨x, rfl⟩ := hba
    rw [at?_append, hm] at hn
    exact fun t ht => mem_allTokens_of_at? hn (mem_allTokens_of_mem_tokens ht)
  have hpos' : ∀ t ∈ m.allTokens, t.span.start < t.span.stop := fun t ht => hpos t (mem_allTokens_of_at? hm ht)
  obtain ⟨hom, hfm⟩ := ho.at? hm
  obtain ⟨s, hs, t, ht, hspan⟩ := n.span_eq hfilled
  have hstart := (hom.bound_start (hfm hb) hpos').2 s (hbelow s hs)
  have hstop := (hom.bound_stop (hfm hb) hpos').2 t (hbelow t ht)
  simp only [hspan, Span.contains, Bool.and_eq_true, decide_eq_true_eq] at hcontains ⊢
  omega

theorem tokenPair_moved (h : n.tokenPair pos d = .ok p) : (p.moved d).contains pos = true := by
  obtain ⟨i, s, t, -, -, rfl, ⟨rfl, hs⟩ | ⟨rfl, ht⟩⟩ := tokenPair_cases h
  · exact hs
  · exact ht

theorem pairAt_moved (ho : Ordered tree) (hpos : ∀ t ∈ tree.allTokens, t.span.start < t.span.stop)
    (h : tree.pairAt pos d = .ok p) : (p.moved d).contains pos = true := by
  obtain ⟨target, hlocate, ⟨l, r, left, right, hneighbors, hl, hr, h⟩ | ⟨i, n, -, -, h⟩⟩ := pairAt_cases h
  · obtain ⟨-, n, hn, hcontains⟩ := locate?_eq_some hlocate
    obtain ⟨hlne, hrne⟩ := (neighbors_beside hneighbors).ne_nil
    obtain ⟨-, rfl⟩ := elementPair_eq_ok h
    cases d with
    | forward =>
      have hsuffix := @suffix_of_rightFrom _ _ _ _ none (by simp) (List.suffix_refl _)
        (congrArg Neighbors.left hneighbors)
      exact ho.bound_contains hpos hlne hsuffix hn hl hcontains
    | backward =>
      have hsuffix := suffix_of_leftNeighbors (congrArg Neighbors.right hneighbors)
      exact ho.bound_contains hpos hrne hsuffix hn hr hcontains
  · exact tokenPair_moved h

end Node

/-! ### The cursor -/

namespace Buffer
variable {b : Buffer} {s : Settings} {d : Direction} {p : Pair} {moved : Nat}

theorem resolve_moved {pos extendLines : Nat} (h : b.resolve pos d extendLines = .ok p) :
    (p.moved d).contains pos = true := by
  obtain ⟨hpairs, hfound⟩ := tokenize_spec b.text (b.window pos d extendLines)
  have hclassified : ∀ t ∈ tokenize b.text (b.window pos d extendLines), t.Classified := fun t ht =>
    (hfound t ht).classified
  have htree := Node.ofTokens_eq hclassified
  refine Node.pairAt_moved ?_ (fun t ht => ?_) h
  · rw [tree, htree]
    exact Spine.ordered_ofTokens hclassified hpairs
  · rw [tree, htree] at ht
    exact (hfound t (Spine.mem_of_mem_ofTokens hclassified t ht)).nonempty

theorem swap_eq_of_swapped (h : (b.swap s d).2 = .swapped p moved) :
    b.resolve b.cursor d s.extendLines = .ok p ∧ moved = (b.swap s d).1.cursor := by
  cases hresolve : b.resolve b.cursor d s.extendLines with
  | error why => simp [swap, hresolve] at h
  | ok pair =>
    cases hexchange : b.exchange pair with
    | error why => simp [swap, hresolve, hexchange] at h
    | ok swapped =>
      simp only [swap, hresolve, hexchange, Outcome.swapped.injEq] at h ⊢
      exact ⟨congrArg _ h.1, h.2.symm⟩

/-- A swap moves the element at the cursor: the span that it carries along reaches over the cursor. A cursor that
    follows ends up on the far side of the same text, right after it going forward and right before it going
    backward, and never inside a character. -/
theorem swap_carries_cursor (b : Buffer) (s : Settings) (d : Direction) (p : Pair) (moved : Nat)
    (h : (b.swap s d).2 = .swapped p moved) :
    let b' := (b.swap s d).1
    (p.moved d).start ≤ b.cursor ∧ b.cursor ≤ (p.moved d).stop ∧ moved = b'.cursor ∧
    (s.followSwap = true →
      Text.size (b.slice (p.moved d)) = (p.moved d).stop - (p.moved d).start ∧ Text.isBoundary b'.cursor b'.text ∧
      match d with
      | .forward => b'.cursor = p.second.stop ∧
        b'.slice ⟨p.second.stop - (p.first.stop - p.first.start), p.second.stop⟩ = b.slice p.first
      | .backward => b'.cursor = p.first.start ∧
        b'.slice ⟨p.first.start, p.first.start + (p.second.stop - p.second.start)⟩ = b.slice p.second) := by
  obtain ⟨hresolve, hmoved⟩ := swap_eq_of_swapped h
  have hcontains := resolve_moved hresolve
  simp only [Span.contains, Bool.and_eq_true, decide_eq_true_eq] at hcontains
  refine ⟨hcontains.1, hcontains.2, hmoved, fun hs => ?_⟩
  obtain ⟨a, x, m, y, z, htext, hfirst, hsecond⟩ := (resolve_fits hresolve).parts
  rw [swap_of_resolve htext hfirst hsecond hresolve hs]
  have hx : b.slice p.first = x := hfirst ▸ slice_eq a x (m ++ y ++ z) (by simp [htext])
  have hy : b.slice p.second = y := hsecond ▸ slice_eq (a ++ x ++ m) y z htext
  cases d with
  | forward =>
    -- The first text now ends where the second one ended.
    have hstart : p.second.stop - (p.first.stop - p.first.start) = Text.size (a ++ y ++ m) := by
      simp only [hfirst, hsecond, Text.size_append]
      omega
    have hstop : p.second.stop = Text.size (a ++ y ++ m ++ x) := by
      simp only [hsecond, Text.size_append]
      omega
    refine ⟨?_, ?_, rfl, ?_⟩
    · rw [Pair.moved, hx, hfirst, Text.size_append, Nat.add_sub_cancel_left]
    · exact Text.isBoundary_iff.mpr ⟨a ++ y ++ m ++ x, z, rfl, hstop.symm⟩
    · rw [hstart, hstop, hx]
      exact slice_eq (a ++ y ++ m) x z rfl
  | backward =>
    have hstart : p.first.start = Text.size a := by rw [hfirst]
    have hstop : p.first.start + (p.second.stop - p.second.start) = Text.size (a ++ y) := by
      simp only [hfirst, hsecond, Text.size_append]
      omega
    refine ⟨?_, ?_, rfl, ?_⟩
    · rw [Pair.moved, hy, hsecond, Text.size_append _ y, Nat.add_sub_cancel_left]
    · exact Text.isBoundary_iff.mpr ⟨a, y ++ m ++ x ++ z, by simp, hstart.symm⟩
    · rw [hstop, hstart, hy]
      exact slice_eq a y (m ++ x ++ z) (by simp)

/-- On the last factor of a product the whole product moves, past a word with a character of two bytes. -/
theorem swap_carries_cursor_of_product :
    let b := ofText "x * y, \"é\"".toList 4
    (b.swap {} .forward).2 = .swapped ⟨⟨0, 5⟩, ⟨7, 11⟩⟩ 11 ∧ (b.swap {} .forward).1.slice ⟨6, 11⟩ = "x * y".toList := by
  intro b
  have hswapped : (b.swap {} .forward).2 = .swapped ⟨⟨0, 5⟩, ⟨7, 11⟩⟩ 11 := by decide +kernel
  obtain ⟨-, -, -, hfollows⟩ := swap_carries_cursor b {} .forward _ _ hswapped
  refine ⟨hswapped, (hfollows rfl).2.2.2.trans ?_⟩
  decide +kernel

/-! ### A cursor that does not follow -/

/-- While the texts change places the text is shorter by the second one, and the cursor is kept within it. -/
theorem cursor_swap_of_swapped (hs : s.followSwap = false) (h : (b.swap s d).2 = .swapped p moved) :
    (b.swap s d).1.cursor = min b.cursor (b.size - (p.second.stop - p.second.start)) := by
  obtain ⟨hresolve, -⟩ := swap_eq_of_swapped h
  obtain ⟨a, x, m, y, z, htext, hfirst, hsecond⟩ := (resolve_fits hresolve).parts
  have hsize : b.size - (p.second.stop - p.second.start) = Text.size (a ++ x ++ m ++ z) := by
    simp only [size, htext, hsecond, Text.size_append]
    omega
  simp only [swap, hresolve, exchange_eq htext hfirst hsecond, hs, hsize]
  rfl

/-- Where the cursor is left when it does not follow. A swap that is skipped leaves it where it was, and so does one
    forward. One backward does if and only if at least as many bytes as the second element has come after the cursor;
    else the cursor is moved back to the place that many bytes before the end. -/
theorem swap_keeps_cursor_iff (text : List Char) (cursor : Nat) (s : Settings) (d : Direction)
    (hcursor : cursor ≤ Text.size text) (hs : s.followSwap = false) :
    let b := withCursor text cursor
    let b' := (b.swap s d).1
    (∀ why, (b.swap s d).2 = .skipped why → b'.cursor = cursor) ∧
    ∀ p moved, (b.swap s d).2 = .swapped p moved →
      moved = b'.cursor ∧ b'.cursor = min cursor (Text.size text - (p.second.stop - p.second.start)) ∧
      (b'.cursor = cursor ↔ cursor + (p.second.stop - p.second.start) ≤ Text.size text) ∧
      (d = .forward → b'.cursor = cursor) := by
  intro b b'
  have hstart : b.cursor = cursor := Nat.min_eq_left hcursor
  refine ⟨fun why h => ?_, fun p moved h => ?_⟩
  · rw [show b' = b from eq_of_skipped (Prod.ext rfl h), hstart]
  obtain ⟨hresolve, hmoved⟩ := swap_eq_of_swapped h
  have hfits := resolve_fits hresolve
  have hstop : p.second.stop ≤ Text.size text := Text.isBoundary_le hfits.boundaries.2.2.2
  have hroom := hfits.second
  have heq : b'.cursor = min cursor (Text.size text - (p.second.stop - p.second.start)) :=
    hstart ▸ cursor_swap_of_swapped hs h
  have hiff : b'.cursor = cursor ↔ cursor + (p.second.stop - p.second.start) ≤ Text.size text := by
    rw [heq]
    omega
  refine ⟨hmoved, heq, hiff, fun hforward => hiff.mpr ?_⟩
  -- Going forward the cursor is on the first element, which ends before the second starts.
  have hcontains := resolve_moved hresolve
  simp only [hforward, Pair.moved, Span.contains, Bool.and_eq_true, decide_eq_true_eq, hstart] at hcontains
  have hapart := hfits.apart
  omega

/-- In `f(a, bbb)` four bytes come after the start of the second argument, which has three, and the cursor stays
    there. -/
theorem swap_keeps_cursor_iff_of_call :
    let b := withCursor "f(a, bbb)".toList 5
    let b' := (b.swap ⟨1, false⟩ .backward).1
    (b.swap ⟨1, false⟩ .backward).2 = .swapped ⟨⟨2, 3⟩, ⟨5, 8⟩⟩ 5 ∧ b'.text = "f(bbb, a)".toList ∧ b'.cursor = 5 := by
  intro b b'
  have hswapped : (b.swap ⟨1, false⟩ .backward).2 = .swapped ⟨⟨2, 3⟩, ⟨5, 8⟩⟩ 5 := by decide +kernel
  have hkeeps := swap_keeps_cursor_iff "f(a, bbb)".toList 5 ⟨1, false⟩ .backward (by decide) rfl
  exact ⟨hswapped, by decide +kernel, ((hkeeps.2 _ _ hswapped).2.2.1).mpr (by decide)⟩

/-- At the end of `a, b` a swap backward moves a cursor that should stay. -/
theorem exists_swap_moves_cursor :
    ¬∀ (text : List Char) (cursor : Nat) (s : Settings) (d : Direction), cursor ≤ Text.size text →
      s.followSwap = false → ((withCursor text cursor).swap s d).1.cursor = cursor := by
  intro h
  exact absurd (h "a, b".toList 4 ⟨1, false⟩ .backward (by decide) rfl) (by decide +kernel)

end Buffer
end SiblingSwap
