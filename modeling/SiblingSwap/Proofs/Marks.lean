import SiblingSwap.Mark
import SiblingSwap.Proofs.Carry

/-! Texts with the cursor drawn in. Reading takes the first sign out and drawing puts one in, so each undoes the other
    as long as no sign of the text comes before the cursor. A swap leaves the cursor at a boundary of the text, where it
    can be drawn again. -/

namespace SiblingSwap
namespace Mark

/-! ### Reading and drawing -/

theorem read_of_notMem {source : List Char} (h : sign ∉ source) : read source = .withCursor source 0 := by
  rw [read, List.dropWhile_eq_nil_iff.mpr (Shape.bne_of_notMem h)]

/-- The cursor is read where the first sign is. -/
theorem read_append {before : List Char} (h : sign ∉ before) (after : List Char) :
    read (before ++ sign :: after) = .ofText (before ++ after) (Text.size before) := by
  have hbefore := Shape.bne_of_notMem h
  have htake : (before ++ sign :: after).takeWhile (· != sign) = before := by
    rw [List.takeWhile_append_of_pos hbefore, List.takeWhile_cons_of_neg (by simp), List.append_nil]
  have hdrop : (before ++ sign :: after).dropWhile (· != sign) = sign :: after := by
    rw [List.dropWhile_append_of_pos hbefore, List.dropWhile_cons_of_neg (by simp)]
  have hle : Text.size before ≤ Text.size (before ++ after) := by simp
  rw [read, hdrop, htake]
  simp only [Buffer.withCursor, Nat.min_eq_left hle]

theorem draw?_append (before after : List Char) :
    draw? (.ofText (before ++ after) (Text.size before)) = some (before ++ sign :: after) := by
  simp [draw?]

/-- A cursor between two characters can be drawn. -/
theorem exists_draw? {b : Buffer} (h : Text.isBoundary b.cursor b.text) :
    ∃ before after, b.text = before ++ after ∧ b.cursor = Text.size before ∧
      draw? b = some (before ++ sign :: after) := by
  obtain ⟨before, after, htext, hcursor⟩ := Text.isBoundary_iff.mp h
  exact ⟨before, after, htext, hcursor.symm, by rw [draw?, htext, ← hcursor, Text.splitAt?_size_append]; rfl⟩

/-- The drawing has the characters of the text and one sign more. -/
theorem perm_of_draw? {b : Buffer} {drawn : List Char} (h : draw? b = some drawn) : drawn.Perm (sign :: b.text) := by
  obtain ⟨⟨before, after⟩, hsplit, rfl⟩ := Option.map_eq_some_iff.mp h
  rw [(Text.splitAt?_eq_some hsplit).1]
  exact List.perm_middle

theorem isBoundary_read (source : List Char) : Text.isBoundary (read source).cursor (read source).text := by
  by_cases h : sign ∈ source
  · obtain ⟨before, after, rfl, hbefore⟩ := List.eq_append_cons_of_mem h
    rw [read_append hbefore]
    exact Text.isBoundary_iff.mpr ⟨before, after, rfl, rfl⟩
  · rw [read_of_notMem h]
    exact Text.isBoundary_iff.mpr ⟨[], source, rfl, by simp [Buffer.withCursor]⟩

end Mark

/-! ### Swaps -/

/-- A swap that the cursor follows keeps all characters and leaves the cursor between two of them, if it was there. -/
theorem Buffer.swap_perm_and_isBoundary {b : Buffer} {s : Settings} (hs : s.followSwap = true) (d : Direction)
    (h : Text.isBoundary b.cursor b.text) :
    (b.swap s d).1.text.Perm b.text ∧ Text.isBoundary (b.swap s d).1.cursor (b.swap s d).1.text := by
  cases hresolve : b.resolve b.cursor d s.extendLines with
  | error why =>
    have hswap : b.swap s d = (b, .skipped why) := by rw [swap, hresolve]
    rw [hswap]
    exact ⟨List.Perm.refl _, h⟩
  | ok p =>
    obtain ⟨a, x, m, y, z, htext, hfirst, hsecond⟩ := (resolve_fits hresolve).parts
    rw [swap_of_resolve htext hfirst hsecond hresolve hs]
    refine ⟨htext ▸ Text.exchanged_perm a x m y z, ?_⟩
    -- The ends of the two slots together are where they were.
    cases d with
    | forward =>
      refine Text.isBoundary_iff.mpr ⟨a ++ y ++ m ++ x, z, rfl, ?_⟩
      simp only [Buffer.cursor_ofText, Pair.cursorAfter, hsecond, Text.size_append]
      omega
    | backward => exact Text.isBoundary_iff.mpr ⟨a, y ++ m ++ x ++ z, by simp, by simp [Pair.cursorAfter, hfirst]⟩

namespace Mark

/-- A text with a sign is read and drawn again as it was. A buffer whose cursor is between two characters, with no sign
    before it, is drawn and read again as it was. From any text, with or without signs, a swap in either direction leads
    to a drawing, which has the same characters as that of the buffer before the swap. -/
theorem read_draw_round_trip_and_swap :
    (∀ source : List Char, sign ∈ source → draw? (read source) = some source) ∧
    (∀ (text : List Char) (cursor : Nat),
      let b := Buffer.ofText text cursor
      Text.isBoundary cursor text → sign ∉ b.slice ⟨0, cursor⟩ → ∃ source, draw? b = some source ∧ read source = b) ∧
    ∀ (source : List Char) (d : Direction), ∃ drawn swapped, draw? (read source) = some drawn ∧
      swap? source d = some swapped ∧ swapped.Perm drawn := by
  refine ⟨fun source h => ?_, fun text cursor => ?_, fun source d => ?_⟩
  · obtain ⟨before, after, rfl, hbefore⟩ := List.eq_append_cons_of_mem h
    rw [read_append hbefore, draw?_append]
  · intro b hcursor hsign
    obtain ⟨before, after, rfl, rfl, hdraw⟩ := exists_draw? (b := b) hcursor
    have hslice := Buffer.slice_eq (b := b) [] before after rfl
    rw [List.nil_append, Text.size_nil] at hslice
    rw [hslice] at hsign
    exact ⟨_, hdraw, read_append hsign after⟩
  · obtain ⟨hperm, hcursor⟩ := Buffer.swap_perm_and_isBoundary (s := {}) rfl d (isBoundary_read source)
    obtain ⟨before, after, -, -, hdrawn⟩ := exists_draw? (isBoundary_read source)
    obtain ⟨before', after', -, -, hswapped⟩ := exists_draw? hcursor
    refine ⟨_, _, hdrawn, hswapped, ?_⟩
    exact (perm_of_draw? hswapped).trans ((hperm.cons sign).trans (perm_of_draw? hdrawn).symm)

/-- A call with the cursor before a character of two bytes, and one more sign that is part of the text. -/
theorem read_draw_round_trip_and_swap_of_call :
    let source := "f(¦'é', ¦b)".toList
    let b := Buffer.ofText "f('é', ¦b)".toList 2
    draw? (read source) = some source ∧ (∃ drawn, draw? b = some drawn ∧ read drawn = b) ∧
      swap? source .forward = some "f(b, ¦'é'¦)".toList ∧ "f(b, ¦'é'¦)".toList.Perm source := by
  intro source b
  obtain ⟨hdraw, hread, hswap⟩ := read_draw_round_trip_and_swap
  have hround := hdraw source (by decide)
  have hforward : swap? source .forward = some "f(b, ¦'é'¦)".toList := by decide +kernel
  refine ⟨hround, hread _ 2 (by decide) (by decide), hforward, ?_⟩
  obtain ⟨drawn, swapped, hdrawn, hswapped, hperm⟩ := hswap source .forward
  rwa [Option.some.inj (hround.symm.trans hdrawn), Option.some.inj (hforward.symm.trans hswapped)]

end Mark
end SiblingSwap
