import SiblingSwap.Proofs.Exchange

/-! What an exchange does with any two spans. Each of its edits does nothing at a place that is no boundary of the
    text, so a text that was taken out of its own place may find none at the other. An exchange never invents text, and
    what it loses is what found no place. Spans that lie one after the other between boundaries lose nothing: their
    texts change places, and a second exchange puts them back. -/

namespace SiblingSwap

/-! ### Cuts in the first part of a text -/

namespace Text

theorem splitAt?_append_of_le {n : Nat} {before : List Char} (h : n ≤ size before) (rest : List Char) :
    splitAt? n (before ++ rest) = (splitAt? n before).map fun (first, last) => (first, last ++ rest) := by
  fun_induction splitAt? n before with
  | case1 cs => simp [splitAt?]
  | case2 n => simp at h
  | case3 n c cs hc ih =>
    have hle : n + 1 - c.utf8Size ≤ size cs := Nat.sub_le_iff_le_add'.mpr h
    rw [List.cons_append, splitAt?, if_pos hc, ih hle, Option.map_map, Option.map_map]
    rfl
  | case4 n c cs hc => rw [List.cons_append, splitAt?, if_neg hc, Option.map_none]

theorem isBoundary_append_of_le {n : Nat} {before : List Char} (h : n ≤ size before) (rest : List Char) :
    isBoundary n (before ++ rest) = isBoundary n before := by
  rw [isBoundary, splitAt?_append_of_le h, Option.isSome_map, isBoundary]

theorem cut?_append_of_le {s : Span} {before : List Char} (h : s.stop ≤ size before) (rest : List Char) :
    cut? s (before ++ rest) = (cut? s before).map fun (first, inside, last) => (first, inside, last ++ rest) := by
  unfold cut?
  split
  · next hle =>
    rw [splitAt?_append_of_le (Nat.le_trans hle h)]
    cases hsplit : splitAt? s.start before with
    | none => rfl
    | some parts =>
      obtain ⟨first, last⟩ := parts
      obtain ⟨rfl, hfirst⟩ := splitAt?_eq_some hsplit
      have hlast : s.stop - s.start ≤ size last := by
        rw [size_append, hfirst] at h
        exact Nat.sub_le_iff_le_add'.mpr h
      simp only [Option.map_some, Option.bind_some, splitAt?_append_of_le hlast, Option.map_map]
      rfl
  · rfl

end Text

/-! ### Single edits -/

namespace Buffer
variable {b c : Buffer} {s e : Span} {pos : Nat}

/-- A slice does not depend on what comes after it. -/
theorem slice_eq_of_append {before rest rest' : List Char} (hb : b.text = before ++ rest)
    (hc : c.text = before ++ rest') (h : s.stop ≤ Text.size before) : b.slice s = c.slice s := by
  rw [slice, slice, hb, hc, Text.cut?_append_of_le h, Text.cut?_append_of_le h]
  cases Text.cut? s before <;> rfl

theorem start_le_of_slice_ne_nil (h : b.slice s ≠ []) : s.start ≤ s.stop := by
  unfold slice at h
  split at h
  · next before inside after hcut =>
    obtain ⟨-, hstart, hstop⟩ := Text.cut?_eq_some hcut
    exact hstart ▸ hstop ▸ Nat.le_add_right _ _
  · exact absurd rfl h

/-- An erased span leaves its text out, and nothing where it has none. -/
theorem erase_perm (b : Buffer) (s : Span) : ((b.erase s).text ++ b.slice s).Perm b.text := by
  unfold erase slice
  split
  · next before inside after hcut =>
    rw [(Text.cut?_eq_some hcut).1]
    simpa [withCursor] using List.Perm.append_left before List.perm_append_comm
  · simp

theorem slice_erase (h : s.stop ≤ e.start) : (b.erase e).slice s = b.slice s := by
  unfold erase
  split
  · next before inside after hcut =>
    obtain ⟨htext, hstart, -⟩ := Text.cut?_eq_some hcut
    rw [List.append_assoc] at htext
    exact slice_eq_of_append rfl htext (hstart ▸ h)
  · rfl

theorem isBoundary_erase (b : Buffer) (e : Span) :
    Text.isBoundary e.start (b.erase e).text = Text.isBoundary e.start b.text := by
  unfold erase
  split
  · next before inside after hcut =>
    obtain ⟨htext, hstart, -⟩ := Text.cut?_eq_some hcut
    have hle : e.start ≤ Text.size before := Nat.le_of_eq hstart.symm
    rw [htext, withCursor, text_ofText, List.append_assoc, Text.isBoundary_append_of_le hle,
      Text.isBoundary_append_of_le hle]
  · rfl

/-- A text is put in at a boundary and nowhere else. -/
theorem insert_perm (b : Buffer) (pos : Nat) (new : List Char) :
    ((b.insert pos new).text ++ if Text.isBoundary pos b.text then [] else new).Perm (b.text ++ new) := by
  unfold insert Text.isBoundary
  split
  · next before after hsplit =>
    rw [hsplit, (Text.splitAt?_eq_some hsplit).1]
    simpa using List.Perm.append_left before List.perm_append_comm
  · next hsplit =>
    rw [hsplit]
    exact List.Perm.refl _

theorem text_insert_nil (b : Buffer) (pos : Nat) : (b.insert pos []).text = b.text := by
  unfold insert
  split
  · next before after hsplit =>
    rw [(Text.splitAt?_eq_some hsplit).1]
    simp
  · rfl

theorem slice_insert (h : s.stop ≤ pos) (new : List Char) : (b.insert pos new).slice s = b.slice s := by
  unfold insert
  split
  · next before after hsplit =>
    obtain ⟨htext, hsize⟩ := Text.splitAt?_eq_some hsplit
    exact slice_eq_of_append (List.append_assoc _ _ _) htext (hsize ▸ h)
  · rfl

theorem isBoundary_insert {n : Nat} (h : n ≤ pos) (new : List Char) :
    Text.isBoundary n (b.insert pos new).text = Text.isBoundary n b.text := by
  unfold insert
  split
  · next before after hsplit =>
    obtain ⟨htext, hsize⟩ := Text.splitAt?_eq_some hsplit
    have hle : n ≤ Text.size before := hsize ▸ h
    rw [htext, text_ofText, List.append_assoc, Text.isBoundary_append_of_le hle, Text.isBoundary_append_of_le hle]
  · rfl

/-! ### Exchanges of any two spans -/

/-- The texts of two spans that find no place in an exchange: the first, when the second span starts at no boundary,
    and the second, when the first span starts at no boundary of the text without it. -/
def strays (b : Buffer) (p : Pair) : List Char :=
  (if Text.isBoundary p.second.start b.text then [] else b.slice p.first) ++
    if Text.isBoundary p.first.start (b.erase p.second).text then [] else b.slice p.second

/-- The place of the first span when the second text is put in is the one it had before the first was. -/
theorem isBoundary_edited {p : Pair} (h : p.first.stop ≤ p.second.start) :
    Text.isBoundary p.first.start (((b.erase p.second).insert p.second.start (b.slice p.first)).erase p.first).text =
      Text.isBoundary p.first.start (b.erase p.second).text := by
  rw [isBoundary_erase]
  by_cases hslice : b.slice p.first = []
  · rw [hslice, text_insert_nil]
  · exact isBoundary_insert (Nat.le_trans (start_le_of_slice_ne_nil hslice) h) _

/-- Nothing is invented, and only texts without a place are lost. -/
theorem exchange_perm {p : Pair} (h : p.first.stop ≤ p.second.start) :
    ∃ b', b.exchange p = .ok b' ∧ (b'.text ++ b.strays p).Perm b.text := by
  refine ⟨_, if_neg (Nat.not_lt.mpr h), ?_⟩
  have h₁ := b.erase_perm p.second
  have h₂ := (b.erase p.second).insert_perm p.second.start (b.slice p.first)
  have h₃ := ((b.erase p.second).insert p.second.start (b.slice p.first)).erase_perm p.first
  have h₄ := (((b.erase p.second).insert p.second.start (b.slice p.first)).erase p.first).insert_perm p.first.start
    (b.slice p.second)
  rw [isBoundary_erase] at h₂
  -- What is taken out of the first span is its old text: the edits before lie after it.
  rw [slice_insert h, slice_erase h] at h₃
  rw [isBoundary_edited h] at h₄
  rw [List.perm_iff_count] at h₁ h₂ h₃ h₄ ⊢
  intro x
  specialize h₁ x
  specialize h₂ x
  specialize h₃ x
  specialize h₄ x
  simp only [strays, List.count_append] at h₁ h₂ h₃ h₄ ⊢
  omega

theorem strays_eq_nil_iff {p : Pair} :
    b.strays p = [] ↔ (b.slice p.first = [] ∨ Text.isBoundary p.second.start b.text) ∧
      (b.slice p.second = [] ∨ Text.isBoundary p.first.start (b.erase p.second).text) := by
  rw [strays, List.append_eq_nil_iff]
  refine and_congr ?_ ?_ <;> split <;> simp_all

/-- An exchange refuses spans out of order and then changes nothing. Else it loses the texts that stray, and it keeps
    all characters of the text if and only if none does: a text that is not empty needs a boundary where the other span
    starts. -/
theorem exchange_keeps_text_iff (b : Buffer) (p : Pair) :
    (p.second.start < p.first.stop ∧ b.exchange p = .error .unorderedSpans) ∨
    (p.first.stop ≤ p.second.start ∧ ∃ b', b.exchange p = .ok b' ∧ (b'.text ++ b.strays p).Perm b.text ∧
      (b'.text.Perm b.text ↔ (b.slice p.first = [] ∨ Text.isBoundary p.second.start b.text) ∧
        (b.slice p.second = [] ∨ Text.isBoundary p.first.start (b.erase p.second).text))) := by
  rcases Nat.lt_or_ge p.second.start p.first.stop with hlt | hle
  · exact Or.inl ⟨hlt, if_pos hlt⟩
  · obtain ⟨b', hexchange, hperm⟩ := exchange_perm (b := b) hle
    refine Or.inr ⟨hle, b', hexchange, hperm, ?_⟩
    rw [← strays_eq_nil_iff]
    constructor
    · intro hkept
      have hlength := hperm.length_eq
      rw [List.length_append, hkept.length_eq] at hlength
      exact List.eq_nil_of_length_eq_zero (Nat.add_eq_left.mp hlength)
    · intro hnone
      rwa [hnone, List.append_nil] at hperm

/-- In `a, b` the first span starts at the end of the text and stops at its start, before the second. The order of the
    spans is not refused, and once the `a` of the second is taken out there is no boundary left for it. -/
theorem exists_exchange_loses_text :
    ¬∀ (b : Buffer) (p : Pair), (∃ why, b.exchange p = .error why) ∨
      ∃ b', b.exchange p = .ok b' ∧ b'.text.Perm b.text := by
  intro h
  have hexchange : (ofText "a, b".toList 0).exchange ⟨⟨4, 0⟩, ⟨0, 1⟩⟩ = .ok (ofText ", b".toList 0) := by rfl
  rcases h (ofText "a, b".toList 0) ⟨⟨4, 0⟩, ⟨0, 1⟩⟩ with ⟨why, herror⟩ | ⟨b', hok, hperm⟩
  · cases hexchange.symm.trans herror
  · obtain rfl := Except.ok.inj (hexchange.symm.trans hok)
    exact absurd hperm.length_eq (by decide)

end Buffer

/-! ### There and back -/

namespace Buffer

/-- Spans that lie one after the other between boundaries of the text, empty or not, are exchanged, and an exchange of
    their slots brings the text back. The text is shorter by the second span for a while, and the cursor is kept within
    it. -/
theorem exchange_slots_restores (b : Buffer) (p : Pair) (hfirst : p.first.start ≤ p.first.stop)
    (hapart : p.first.stop ≤ p.second.start) (hsecond : p.second.start ≤ p.second.stop)
    (hboundaries : Text.isBoundary p.first.start b.text ∧ Text.isBoundary p.first.stop b.text ∧
      Text.isBoundary p.second.start b.text ∧ Text.isBoundary p.second.stop b.text) :
    ∃ b' b'', b.exchange p = .ok b' ∧ b'.cursor = min b.cursor (b.size - (p.second.stop - p.second.start)) ∧
      b'.exchange p.slots = .ok b'' ∧ b''.text = b.text := by
  obtain ⟨a, x, m, y, z, htext, hx, hy⟩ := Pair.exists_parts hfirst hapart hsecond hboundaries
  have hslots := Pair.slots_eq hx hy
  have hsize : Text.size (a ++ x ++ m ++ z) = b.size - (p.second.stop - p.second.start) := by
    simp only [size, htext, hy, Text.size_append]
    omega
  refine ⟨_, _, exchange_eq htext hx hy, ?_, exchange_eq rfl (congrArg Pair.first hslots) (congrArg Pair.second hslots),
    htext.symm⟩
  rw [cursor_ofText, hsize]

/-- A character of two bytes changes places with one of one byte. The cursor was at the end and is moved back by the
    size of the second. -/
theorem exchange_slots_restores_of_accent :
    let b := ofText "é, b".toList 5
    let p : Pair := ⟨⟨0, 2⟩, ⟨4, 5⟩⟩
    p.slots = ⟨⟨0, 1⟩, ⟨3, 5⟩⟩ ∧ b.exchange p = .ok (ofText "b, é".toList 4) ∧
      ∃ b', (ofText "b, é".toList 4).exchange p.slots = .ok b' ∧ b'.text = b.text := by
  intro b p
  obtain ⟨b', b'', hexchange, hcursor, hback, htext⟩ :=
    exchange_slots_restores b p (by decide) (by decide) (by decide) (by decide)
  have hthere : b.exchange p = .ok (ofText "b, é".toList 4) := by rfl
  obtain rfl := Except.ok.inj (hthere.symm.trans hexchange)
  exact ⟨rfl, hthere, b'', hback, htext⟩

end Buffer
end SiblingSwap
