import SiblingSwap.Proofs.Scan
import SiblingSwap.Swap.Resolve

/-! The lines that are read for a swap. They are one stretch of the text, which begins where a line begins and ends
    before a line break or with the text. -/

namespace SiblingSwap
namespace Text

/-! ### Where lines start -/

variable {cs : List Char} {n pos : Nat}

theorem mem_startsAfterBreaks :
    n ∈ startsAfterBreaks pos cs ↔ ∃ before after, cs = before ++ '\n' :: after ∧ n = pos + size before + 1 := by
  induction cs generalizing pos with
  | nil => simp [startsAfterBreaks]
  | cons c cs ih =>
    have htail : n ∈ startsAfterBreaks (pos + c.utf8Size) cs ↔
        ∃ before after, cs = before ++ '\n' :: after ∧ n = pos + size (c :: before) + 1 := by
      simp only [ih, size_cons, Nat.add_assoc]
    have hcons : (∃ before after, c :: cs = before ++ '\n' :: after ∧ n = pos + size before + 1) ↔
        (c = '\n' ∧ n = pos + 1) ∨ ∃ before after, cs = before ++ '\n' :: after ∧ n = pos + size (c :: before) + 1 := by
      constructor
      · rintro ⟨before, after, hcs, hn⟩
        cases before with
        | nil => exact Or.inl ⟨(List.cons.inj hcs).1, by simpa using hn⟩
        | cons d before =>
          obtain ⟨rfl, rfl⟩ := List.cons.inj hcs
          exact Or.inr ⟨before, after, rfl, hn⟩
      · rintro (⟨rfl, hn⟩ | ⟨before, after, rfl, hn⟩)
        · exact ⟨[], cs, rfl, by simpa using hn⟩
        · exact ⟨c :: before, after, rfl, hn⟩
    rw [hcons, ← htail]
    by_cases hc : c = '\n'
    · subst hc
      simp [startsAfterBreaks, show ('\n' : Char).utf8Size = 1 from rfl]
    · simp [startsAfterBreaks, hc]

theorem lt_of_mem_startsAfterBreaks (h : n ∈ startsAfterBreaks pos cs) : pos < n := by
  obtain ⟨before, after, -, rfl⟩ := mem_startsAfterBreaks.mp h
  omega

theorem pairwise_startsAfterBreaks (pos : Nat) (cs : List Char) : (startsAfterBreaks pos cs).Pairwise (· < ·) := by
  induction cs generalizing pos with
  | nil => exact .nil
  | cons c cs ih =>
    by_cases hc : c = '\n'
    · simp only [startsAfterBreaks, hc, ↓reduceIte]
      exact List.pairwise_cons.mpr ⟨fun m hm => lt_of_mem_startsAfterBreaks hm, ih _⟩
    · simpa [startsAfterBreaks, hc] using ih _

theorem pairwise_lineStarts (cs : List Char) : (lineStarts cs).Pairwise (· < ·) :=
  List.pairwise_cons.mpr ⟨fun _ hm => lt_of_mem_startsAfterBreaks hm, pairwise_startsAfterBreaks 0 cs⟩

theorem isBoundary_of_mem_lineStarts (h : n ∈ lineStarts cs) : isBoundary n cs := by
  rcases List.mem_cons.mp h with rfl | h
  · exact isBoundary_iff.mpr ⟨[], cs, rfl, rfl⟩
  · obtain ⟨before, after, rfl, rfl⟩ := mem_startsAfterBreaks.mp h
    exact isBoundary_iff.mpr ⟨before ++ ['\n'], after, by simp, by simp [show ('\n' : Char).utf8Size = 1 from rfl]⟩

/-! ### The table -/

theorem toList_lineTable (cs : List Char) : (lineTable cs).toList = lineStarts cs := rfl

/-- In a list that grows, the numbers up to a limit come first. -/
theorem le_iff_lt_countP {l : List Nat} (h : l.Pairwise (· < ·)) (limit : Nat) {i x : Nat} (hx : l[i]? = some x) :
    x ≤ limit ↔ i < l.countP (· ≤ limit) := by
  induction l generalizing i with
  | nil => simp at hx
  | cons y l ih =>
    obtain ⟨hy, hl⟩ := List.pairwise_cons.mp h
    by_cases hle : y ≤ limit
    · rw [List.countP_cons_of_pos (by simpa using hle)]
      cases i with
      | zero =>
        obtain rfl : y = x := Option.some.inj hx
        simp [hle]
      | succ i => exact (ih hl hx).trans (by omega)
    · -- Once the limit is passed, all later numbers are past it too.
      have hnone : ∀ z ∈ y :: l, ¬z ≤ limit := by
        refine List.forall_mem_cons.mpr ⟨hle, fun z hz => ?_⟩
        have := hy z hz
        omega
      have hzero : (y :: l).countP (· ≤ limit) = 0 := List.countP_eq_zero.mpr (by simpa using hnone)
      rw [hzero]
      exact iff_of_false (hnone x (List.mem_of_getElem? hx)) (Nat.not_lt_zero i)

/-- Halving finds an index `k` that splits the table, if it is looked for on both sides of `k`. -/
theorem partitionPoint_eq {table : Array Nat} {limit k : Nat}
    (hsplit : ∀ i < table.size, (table[i]?.any (· ≤ limit) = true ↔ i < k)) {lo hi : Nat} (hlo : lo ≤ k) (hhi : k ≤ hi)
    (hsize : hi ≤ table.size) : partitionPoint table limit lo hi = k := by
  fun_induction partitionPoint table limit lo hi with
  | case1 lo hi hlt mid hmid ih =>
    have hk : mid < k := (hsplit mid (by omega)).mp hmid
    exact ih hk hhi hsize
  | case2 lo hi hlt mid hmid ih =>
    have hk : ¬mid < k := fun h => hmid ((hsplit mid (by omega)).mpr h)
    exact ih hlo (by omega) (by omega)
  | case3 lo hi hle => omega

/-- A search of the whole table counts the lines that start up to a limit. -/
theorem partitionPoint_lineTable (cs : List Char) (limit : Nat) :
    partitionPoint (lineTable cs) limit 0 (lineTable cs).size = (lineStarts cs).countP (· ≤ limit) := by
  refine partitionPoint_eq (fun i hi => ?_) (Nat.zero_le _) List.countP_le_length (Nat.le_refl _)
  have hx : (lineStarts cs)[i]? = some (lineTable cs)[i] := by
    rw [← toList_lineTable, Array.getElem?_toList, Array.getElem?_eq_getElem hi]
  rw [← le_iff_lt_countP (pairwise_lineStarts cs) limit hx, Array.getElem?_eq_getElem hi]
  simp

/-! ### Texts of one line -/

theorem startsAfterBreaks_eq_nil (h : '\n' ∉ cs) : startsAfterBreaks pos cs = [] := by
  refine List.eq_nil_iff_forall_not_mem.mpr fun n hn => ?_
  obtain ⟨before, after, rfl, -⟩ := mem_startsAfterBreaks.mp hn
  simp at h

/-! ### Cutting -/

theorem seek_size_append (pos : Nat) (before rest : List Char) :
    seek (pos + size before) pos (before ++ rest) = (pos + size before, rest) := by
  induction before generalizing pos with
  | nil => cases rest <;> simp [seek]
  | cons c before ih =>
    have hpos := c.utf8Size_pos
    rw [List.cons_append, seek, if_neg (by rw [size_cons]; omega), size_cons, ← Nat.add_assoc, ih]

end Text

theorem tokenize_eq_scan (before rest : List Char) (stop : Nat) :
    tokenize (before ++ rest) ⟨Text.size before, stop⟩ = scan stop (Text.size before) rest := by
  have hseek := Text.seek_size_append 0 before rest
  rw [Nat.zero_add] at hseek
  simp only [tokenize, hseek]

namespace Buffer

/-! ### Where lines start and stop -/

/-- The table is that of the text. -/
def Fresh (b : Buffer) : Prop := b.starts = Text.lineTable b.text

theorem fresh_ofText (text : List Char) (cursor : Nat) : (ofText text cursor).Fresh := rfl

namespace Fresh
variable {b : Buffer} (hb : b.Fresh)
include hb

theorem getElem?_starts (k : Nat) : b.starts[k]? = (Text.lineStarts b.text)[k]? := by
  rw [hb, ← Text.toList_lineTable, Array.getElem?_toList]

theorem lineCount_eq : b.lineCount = (Text.lineStarts b.text).length := by
  rw [lineCount, hb, ← Text.toList_lineTable, Array.length_toList]

theorem lineOf_eq (pos : Nat) : b.lineOf pos = (Text.lineStarts b.text).countP (· ≤ min pos b.size) - 1 := by
  rw [lineOf, hb, Text.partitionPoint_lineTable]

theorem lineAt_lt (pos : Nat) (offset : Int) : b.lineAt pos offset < (Text.lineStarts b.text).length := by
  have : 0 < (Text.lineStarts b.text).length := by simp [Text.lineStarts]
  rw [lineAt, hb.lineCount_eq]
  omega

theorem getElem?_lineStarts (pos : Nat) (offset : Int) :
    (Text.lineStarts b.text)[b.lineAt pos offset]? = some (b.lineStart pos offset) := by
  simp [lineStart, hb.getElem?_starts, hb.lineAt_lt pos offset]

theorem isBoundary_lineStart (pos : Nat) (offset : Int) : Text.isBoundary (b.lineStart pos offset) b.text :=
  Text.isBoundary_of_mem_lineStarts (List.mem_of_getElem? (hb.getElem?_lineStarts pos offset))

theorem lineStop_eq (pos : Nat) (offset : Int) :
    ∃ before after, b.text = before ++ after ∧ b.lineStop pos offset = Text.size before ∧
      ∀ c ∈ after.head?, c = '\n' := by
  unfold lineStop
  split
  · next next hnext =>
    rw [hb.getElem?_starts] at hnext
    have hmem : next ∈ Text.startsAfterBreaks 0 b.text := List.mem_of_getElem? hnext
    obtain ⟨before, after, htext, rfl⟩ := Text.mem_startsAfterBreaks.mp hmem
    exact ⟨before, '\n' :: after, htext, by omega, by simp⟩
  · exact ⟨b.text, [], by simp, rfl, by simp⟩

theorem lineStart_le_lineStop {pos : Nat} {offset offset' : Int} (h : offset ≤ offset') :
    b.lineStart pos offset ≤ b.lineStop pos offset' := by
  unfold lineStop
  split
  · next next hnext =>
    rw [hb.getElem?_starts] at hnext
    obtain ⟨hstart, hstart'⟩ := List.getElem?_eq_some_iff.mp (hb.getElem?_lineStarts pos offset)
    obtain ⟨hstop, hstop'⟩ := List.getElem?_eq_some_iff.mp hnext
    have hline : b.lineAt pos offset < b.lineAt pos offset' + 1 := by
      unfold lineAt Text.saturate
      omega
    have hlt := List.pairwise_iff_getElem.mp (Text.pairwise_lineStarts b.text) _ _ hstart hstop hline
    rw [hstart', hstop'] at hlt
    omega
  · exact Text.isBoundary_le (hb.isBoundary_lineStart pos offset)

/-! ### The lines that are read -/

/-- The lines that are read cut the text in three, and what follows them begins with a line break. -/
theorem window_eq (pos : Nat) (d : Direction) (extendLines : Nat) :
    ∃ before inside after, b.text = before ++ (inside ++ after) ∧
      b.window pos d extendLines = ⟨Text.size before, Text.size before + Text.size inside⟩ ∧
      ∀ c ∈ after.head?, c = '\n' := by
  -- Whatever the direction, the first line that is read does not come after the last.
  obtain ⟨first, last, hwindow, hle⟩ : ∃ first last : Int, b.window pos d extendLines =
      ⟨b.lineStart pos first, b.lineStop pos last⟩ ∧ first ≤ last := by
    have hreach : 0 ≤ min (extendLines : Int) Text.maxLineOffset := by
      unfold Text.maxLineOffset
      omega
    cases d with
    | forward => exact ⟨0, _, rfl, hreach⟩
    | backward => exact ⟨_, 0, rfl, by omega⟩
  obtain ⟨before, rest, htext, hstart⟩ := Text.isBoundary_iff.mp (hb.isBoundary_lineStart pos first)
  obtain ⟨upTo, after, htext', hstop, hafter⟩ := hb.lineStop_eq pos last
  have hsize : Text.size before ≤ Text.size upTo := by
    rw [hstart, ← hstop]
    exact hb.lineStart_le_lineStop hle
  obtain ⟨inside, hupTo, hrest⟩ : ∃ inside, upTo = before ++ inside ∧ rest = inside ++ after := by
    rcases List.append_eq_append_iff.mp (htext.symm.trans htext') with h | ⟨more, hbefore, hmore⟩
    · exact h
    · have hnil : more = [] := by
        by_contra hne
        have := Text.size_pos hne
        rw [hbefore, Text.size_append] at hsize
        omega
      subst hnil
      exact ⟨[], by simpa using hbefore.symm, hmore.symm⟩
  refine ⟨before, inside, after, by rw [htext, hrest], ?_, hafter⟩
  rw [hwindow, ← hstart, hstop, hupTo, Text.size_append]

theorem window_of_single_line (h : '\n' ∉ b.text) (pos : Nat) (d : Direction) (extendLines : Nat) :
    b.window pos d extendLines = ⟨0, Text.size b.text⟩ := by
  have hstarts : Text.lineStarts b.text = [0] := by rw [Text.lineStarts, Text.startsAfterBreaks_eq_nil h]
  have hline : ∀ offset, b.lineAt pos offset = 0 := fun offset => by
    have := hb.lineAt_lt pos offset
    rw [hstarts] at this
    simpa using this
  cases d <;> simp [window, lineStart, lineStop, hb.getElem?_starts, hstarts, hline, size]

end Fresh
end Buffer
end SiblingSwap
