import Mathlib.Data.List.Zip
import SiblingSwap.Proofs.Exchange
import SiblingSwap.Proofs.Listing
import SiblingSwap.Swap.Run

/-! Carrying a word along. A swap moves a word of a list past its neighbour and takes the cursor with it, so the next
    swap finds the same word again. Swaps in a row carry it as far as there are words, and back. -/

namespace SiblingSwap

/-- The text and cursor after some swaps in a row, if none of them is skipped. -/
def Buffer.swapTimes (s : Settings) (d : Direction) : Nat → Buffer → Option Buffer
  | 0, b => some b
  | k + 1, b =>
    match b.swap s d with
    | (b', .swapped _ _) => swapTimes s d k b'
    | (_, .skipped _) => none

/-- The span of a pair that a swap carries along. -/
def Pair.moved (p : Pair) : Direction → Span
  | .forward => p.first
  | .backward => p.second

namespace Buffer
variable {b : Buffer} {s : Settings} {d : Direction} {p : Pair}

theorem swap_of_resolve {a x m y z : List Char} (htext : b.text = a ++ x ++ m ++ y ++ z)
    (hfirst : p.first = ⟨Text.size a, Text.size (a ++ x)⟩)
    (hsecond : p.second = ⟨Text.size (a ++ x ++ m), Text.size (a ++ x ++ m ++ y)⟩)
    (hresolve : b.resolve b.cursor d s.extendLines = .ok p) (hs : s.followSwap = true) :
    b.swap s d = (ofText (a ++ y ++ m ++ x ++ z) (p.cursorAfter d), .swapped p (p.cursorAfter d)) := by
  have hle : p.cursorAfter d ≤ Text.size (a ++ y ++ m ++ x ++ z) := by
    cases d with
    | forward =>
      simp only [Pair.cursorAfter, hsecond, Text.size_append]
      omega
    | backward =>
      simp only [Pair.cursorAfter, hfirst, Text.size_append]
      omega
  have hcursor : ∀ cursor, (ofText (a ++ y ++ m ++ x ++ z) cursor).setCursor (p.cursorAfter d) =
      ofText (a ++ y ++ m ++ x ++ z) (p.cursorAfter d) := fun cursor => by
    rw [setCursor, size, text_ofText, Nat.min_eq_left hle]
    rfl
  simp only [swap, hresolve, exchange_eq htext hfirst hsecond, hs, ↓reduceIte, hcursor, cursor_ofText]

theorem swapTimes_succ {b' : Buffer} {pos k : Nat} (h : b.swap s d = (b', .swapped p pos)) :
    b.swapTimes s d (k + 1) = b'.swapTimes s d k := by
  rw [swapTimes, h]

end Buffer

namespace Listing

/-- All separators around a word have one priority. -/
structure Tiered (priority : Int) (l : List (Word × Separator)) (r : List (Separator × Word)) : Prop where
  left : ∀ y ∈ l, y.2.priority = priority
  right : ∀ y ∈ r, y.1.priority = priority

theorem tiered_concat_iff {priority : Int} {l : List (Word × Separator)} {r : List (Separator × Word)} {v x : Word}
    {sep : Separator} : Tiered priority (l ++ [(v, sep)]) r ↔ Tiered priority l ((sep, x) :: r) := by
  constructor
  · intro h
    refine ⟨fun y hy => h.left y (List.mem_append_left _ hy), List.forall_mem_cons.mpr ⟨?_, h.right⟩⟩
    exact h.left (v, sep) (by simp)
  · intro h
    refine ⟨List.forall_mem_append.mpr ⟨h.left, ?_⟩, fun y hy => h.right y (List.mem_cons_of_mem _ hy)⟩
    simpa using h.right (sep, x) (by simp)

theorem Tiered.shift {priority : Int} {l : List (Word × Separator)} {moved r : List (Separator × Word)}
    (h : Tiered priority l (moved ++ r)) : Tiered priority (l ++ moved.map Prod.swap) r := by
  obtain ⟨hmoved, hright⟩ := List.forall_mem_append.mp h.right
  refine ⟨List.forall_mem_append.mpr ⟨h.left, ?_⟩, hright⟩
  intro y hy
  obtain ⟨m, hm, rfl⟩ := List.mem_map.mp hy
  exact hmoved m hm

namespace Frame
variable {f : Frame} {l : List (Word × Separator)} {w x : Word} {sep : Separator} {r : List (Separator × Word)}
variable {priority : Int} {pos : Nat} {s : Settings}

/-- The place of a word, after the words before it. -/
def span (f : Frame) (l : List (Word × Separator)) (w : Word) : Span := ⟨f.start l, f.start l + Text.size w.text⟩

theorem start_concat : f.start (l ++ [(w, sep)]) = f.start l + Text.size w.text + Text.size sep.text := by
  simp [start, Nat.add_assoc]

theorem contains_start (f : Frame) (l : List (Word × Separator)) (w : Word) :
    (f.span l w).contains (f.span l w).start = true := by
  simp [span, Span.contains]

theorem contains_stop (f : Frame) (l : List (Word × Separator)) (w : Word) :
    (f.span l w).contains (f.span l w).stop = true := by
  simp [span, Span.contains]

theorem items_lt_of_contains (hpos : (f.span l w).contains pos = true) :
    ∀ y ∈ items (Text.size f.head) l, y.1.span.stop < pos ∧ y.2.span.stop < pos := by
  have hle : f.start l ≤ pos := of_decide_eq_true (Bool.and_eq_true_iff.mp hpos).1
  intro y hy
  have hlt := items_stop_lt y hy
  rw [← start] at hlt
  omega

/-! ### One swap -/

theorem tree_of_text (f : Frame) (w : Word) (h : Tiered priority l r) (pos : Nat) (d : Direction) (extendLines : Nat) :
    ∃ ts n, (Buffer.ofText (f.around l w r) pos).tree pos d extendLines = ⟨[], [⟨ts, [n]⟩]⟩ ∧
      n.at? (List.replicate r.length 0) = some (.row (items (Text.size f.head) l) (w.token (f.start l))) := by
  have hfresh := Buffer.fresh_ofText (f.around l w r) pos
  rw [Buffer.tree, hfresh.window_of_single_line (f.break_notMem_around l w r)]
  exact f.tree_around h.left h.right

theorem at?_tree_of_text (f : Frame) (w : Word) (h : Tiered priority l r) (pos : Nat) (d : Direction)
    (extendLines : Nat) :
    ((Buffer.ofText (f.around l w r) pos).tree pos d extendLines).at? (List.replicate (r.length + 1 + 1) 0) =
      some (.row (items (Text.size f.head) l) (w.token (f.start l))) := by
  obtain ⟨ts, n, htree, hrow⟩ := tree_of_text f w h pos d extendLines
  rw [htree, List.replicate_add, List.replicate_add, List.append_assoc, Node.at?_append]
  exact hrow

theorem resolve_around {d : Direction} (h : Tiered priority l ((sep, x) :: r))
    (hpos : ((Pair.mk (f.span l w) (f.span (l ++ [(w, sep)]) x)).moved d).contains pos = true) (extendLines : Nat) :
    (Buffer.ofText (f.around l w ((sep, x) :: r)) pos).resolve pos d extendLines =
      .ok ⟨f.span l w, f.span (l ++ [(w, sep)]) x⟩ := by
  have h' : Tiered priority (l ++ [(w, sep)]) r := tiered_concat_iff.mpr h
  rw [around_cons]
  have hrow := at?_tree_of_text f x h' pos d extendLines
  have hops := items_role (Text.size f.head) h'.left
  rw [items_concat] at hrow hops
  have hops' := fun y hy => (hops y hy).2.2
  cases d with
  | forward =>
    exact Node.pairAt_forward_row hrow (items_lt_of_contains hpos) hpos hops' (w.role_token _) (x.role_token _)
  | backward =>
    have hlt := items_lt_of_contains hpos
    rw [items_concat] at hlt
    have hpriority : (w.token (f.start l)).priority ≠ priority := by
      rw [w.priority_token, ← h.right (sep, x) (by simp)]
      exact sep.priority_ne.symm
    exact Node.pairAt_backward_row hrow hlt hpos hops' (w.role_token _) hpriority (x.role_token _)

/-- Two words that stand side by side change places, and the separator between them stays. -/
theorem swap_around {d : Direction} (h : Tiered priority l ((sep, x) :: r)) {p : Pair}
    (hp : p = ⟨f.span l w, f.span (l ++ [(w, sep)]) x⟩) (hpos : (p.moved d).contains pos = true)
    (hs : s.followSwap = true) :
    (Buffer.ofText (f.around l w ((sep, x) :: r)) pos).swap s d =
      (.ofText (f.around l x ((sep, w) :: r)) (p.cursorAfter d), .swapped p (p.cursorAfter d)) := by
  subst hp
  have htext : ∀ v u, f.around l v ((sep, u) :: r) =
      f.head ++ lead l ++ v.text ++ sep.text ++ u.text ++ (tail r ++ f.closing) := fun v u => by
    simp [around, tail]
  rw [htext x w]
  refine Buffer.swap_of_resolve (htext w x) ?_ ?_ (resolve_around h hpos s.extendLines) hs
  · simp [span, start, Nat.add_assoc]
  · simp [span, start, Nat.add_assoc]

theorem swap_forward (h : Tiered priority l ((sep, x) :: r)) (hpos : (f.span l w).contains pos = true)
    (hs : s.followSwap = true) : ∃ p c, (Buffer.ofText (f.around l w ((sep, x) :: r)) pos).swap s .forward =
      (.ofText (f.around (l ++ [(x, sep)]) w r) (f.span (l ++ [(x, sep)]) w).stop, .swapped p c) := by
  have hstop : (f.span (l ++ [(x, sep)]) w).stop = (f.span (l ++ [(w, sep)]) x).stop := by
    simp only [span, start_concat]
    omega
  rw [← around_cons, hstop]
  exact ⟨_, _, swap_around h rfl hpos hs⟩

theorem swap_backward (h : Tiered priority l ((sep, x) :: r))
    (hpos : (f.span (l ++ [(x, sep)]) w).contains pos = true) (hs : s.followSwap = true) :
    ∃ p c, (Buffer.ofText (f.around (l ++ [(x, sep)]) w r) pos).swap s .backward =
      (.ofText (f.around l w ((sep, x) :: r)) (f.span l w).start, .swapped p c) := by
  have h' : Tiered priority l ((sep, w) :: r) := tiered_concat_iff.mp (tiered_concat_iff (v := w).mpr h)
  rw [← around_cons]
  exact ⟨_, _, swap_around h' rfl hpos hs⟩

/-! ### Swaps in a row -/

theorem swapTimes_forward {moved : List (Separator × Word)} (h : Tiered priority l (moved ++ r))
    (hpos : (f.span l w).contains pos = true) (hs : s.followSwap = true) :
    (Buffer.ofText (f.around l w (moved ++ r)) pos).swapTimes s .forward moved.length =
      some (.ofText (f.around (l ++ moved.map Prod.swap) w r)
        (if moved.isEmpty then pos else (f.span (l ++ moved.map Prod.swap) w).stop)) := by
  induction moved generalizing l pos with
  | nil => simp [Buffer.swapTimes]
  | cons m moved ih =>
    obtain ⟨sep, x⟩ := m
    rw [List.cons_append] at h
    obtain ⟨p, c, hswap⟩ := swap_forward (w := w) h hpos hs
    rw [List.length_cons, List.cons_append, Buffer.swapTimes_succ hswap,
      ih (tiered_concat_iff.mpr h) (f.contains_stop _ w)]
    cases moved <;> simp

theorem swapTimes_backward {moved : List (Separator × Word)} (h : Tiered priority l (moved ++ r))
    (hpos : (f.span (l ++ moved.map Prod.swap) w).contains pos = true) (hs : s.followSwap = true) :
    (Buffer.ofText (f.around (l ++ moved.map Prod.swap) w r) pos).swapTimes s .backward moved.length =
      some (.ofText (f.around l w (moved ++ r)) (if moved.isEmpty then pos else (f.span l w).start)) := by
  -- The last word that was passed is the first to be met on the way back.
  induction moved using List.reverseRecOn generalizing r pos with
  | nil => simp [Buffer.swapTimes]
  | append_singleton moved m ih =>
    obtain ⟨sep, x⟩ := m
    rw [List.append_assoc, List.singleton_append] at h
    have hlast : l ++ (moved ++ [(sep, x)]).map Prod.swap = l ++ moved.map Prod.swap ++ [(x, sep)] := by simp
    rw [hlast] at hpos ⊢
    obtain ⟨p, c, hswap⟩ := swap_backward (w := w) h.shift hpos hs
    rw [List.length_append, List.length_singleton, Buffer.swapTimes_succ hswap, ih h (f.contains_start _ w)]
    cases moved <;> simp

/-! ### At the ends -/

theorem swap_of_error {b : Buffer} {d : Direction} {why : Skip}
    (h : b.resolve b.cursor d s.extendLines = .error why) : b.swap s d = (b, .skipped why) := by
  rw [Buffer.swap, h]

theorem swap_forward_last (h : Tiered priority l []) (hpos : (f.span l w).contains pos = true) :
    (Buffer.ofText (f.around l w []) pos).swap s .forward = (.ofText (f.around l w []) pos, .skipped .noNeighbor) := by
  obtain ⟨ts, n, htree, hrow⟩ := tree_of_text f w h pos .forward s.extendLines
  obtain rfl : n = .row (items (Text.size f.head) l) (w.token (f.start l)) := Option.some.inj hrow
  refine swap_of_error ?_
  rw [Buffer.resolve, Buffer.cursor_ofText, htree]
  exact Node.pairAt_forward_end (items_lt_of_contains hpos) hpos

theorem swap_backward_first (h : Tiered priority [] r) (hpos : (f.span [] w).contains pos = true) :
    (Buffer.ofText (f.around [] w r) pos).swap s .backward = (.ofText (f.around [] w r) pos, .skipped .noNeighbor) := by
  have hrow := at?_tree_of_text f w h pos .backward s.extendLines
  exact swap_of_error (Node.pairAt_backward_start hrow hpos)

end Frame
end Listing

/-! ### Lists of words -/

/-- A name, brackets and the separators of a list, which are all of one tier. It can hold one word more than it has
    separators. -/
structure Listing extends Listing.Frame where
  separators : List Listing.Separator
  level : ∀ s ∈ separators, ∀ t ∈ separators, s.priority = t.priority

namespace Listing
variable {f : Listing} {l r : List Word} {w : Word}

/-- Words with separators between them. -/
def weave (separators : List Separator) : List Word → List Char
  | [] => []
  | w :: ws => w.text ++ (separators.zip ws).flatMap fun x => x.1.text ++ x.2.text

/-- The text of the list with some words in it. -/
def text (f : Listing) (ws : List Word) : List Char := f.head ++ weave f.separators ws ++ f.closing

/-- The place of a word in the text, after the words before it. -/
def place (f : Listing) (before : List Word) (w : Word) : Span := f.span (before.zip f.separators) w

theorem weave_append {ss ss' : List Separator} (h : ss.length = l.length) :
    weave (ss ++ ss') (l ++ w :: r) = lead (l.zip ss) ++ w.text ++ tail (ss'.zip r) := by
  induction l generalizing ss with
  | nil =>
    obtain rfl := List.length_eq_zero_iff.mp h
    rfl
  | cons v l ih =>
    cases ss with
    | nil => simp at h
    | cons s ss =>
      have hrest := ih (Nat.succ.inj h)
      have hcons : weave (s :: (ss ++ ss')) (v :: (l ++ w :: r)) =
          v.text ++ s.text ++ weave (ss ++ ss') (l ++ w :: r) := by
        cases l <;> simp [weave]
      rw [List.cons_append, List.cons_append, hcons, hrest]
      simp

theorem zip_append_left {ss ss' : List Separator} (h : ss.length = l.length) : l.zip (ss ++ ss') = l.zip ss := by
  have happ : (l ++ []).zip (ss ++ ss') = l.zip ss ++ [].zip ss' := List.zip_append h.symm
  simpa using happ

section
variable {ss ss' : List Separator} (hseparators : f.separators = ss ++ ss')
include hseparators

theorem text_eq_around (h : ss.length = l.length) : f.text (l ++ w :: r) = f.around (l.zip ss) w (ss'.zip r) := by
  rw [text, hseparators, weave_append h]
  simp [Frame.around]

theorem place_eq_span (h : ss.length = l.length) : f.place l w = f.span (l.zip ss) w := by
  rw [place, hseparators, zip_append_left h]

theorem exists_tiered (l r : List Word) : ∃ priority, Tiered priority (l.zip ss) (ss'.zip r) := by
  obtain ⟨priority, hpriority⟩ : ∃ priority, ∀ s ∈ f.separators, s.priority = priority := by
    cases hf : f.separators with
    | nil => exact ⟨0, by simp⟩
    | cons s ss => exact ⟨s.priority, fun t ht => f.level t (hf ▸ ht) s (by simp [hf])⟩
  rw [hseparators] at hpriority
  refine ⟨priority, fun y hy => ?_, fun y hy => ?_⟩
  · exact hpriority y.2 (List.mem_append_left _ (List.of_mem_zip hy).2)
  · exact hpriority y.1 (List.mem_append_right _ (List.of_mem_zip hy).1)

end

theorem swap_forward_last (hcount : (l ++ [w]).length = f.separators.length + 1) {s : Settings} {pos : Nat}
    (hpos : (f.place l w).contains pos = true) :
    (Buffer.ofText (f.text (l ++ [w])) pos).swap s .forward =
      (.ofText (f.text (l ++ [w])) pos, .skipped .noNeighbor) := by
  have hseparators : f.separators = f.separators ++ [] := (List.append_nil _).symm
  have hlength : f.separators.length = l.length := by simpa using hcount.symm
  obtain ⟨priority, htier⟩ := exists_tiered hseparators l []
  rw [text_eq_around hseparators hlength]
  exact Frame.swap_forward_last htier hpos

theorem swap_backward_first (f : Listing) {s : Settings} {pos : Nat} (hpos : (f.place [] w).contains pos = true) :
    (Buffer.ofText (f.text (w :: r)) pos).swap s .backward = (.ofText (f.text (w :: r)) pos, .skipped .noNeighbor) := by
  obtain ⟨priority, htier⟩ := exists_tiered (List.nil_append f.separators).symm [] r
  have htext : f.text (w :: r) = f.around [] w (f.separators.zip r) :=
    text_eq_around (l := []) (List.nil_append f.separators).symm rfl
  rw [htext]
  exact Frame.swap_backward_first htier hpos

/-- The separators before a word, those it is carried past, and those after it. -/
theorem exists_parts {xs : List Word} (hcount : (l ++ w :: (xs ++ r)).length = f.separators.length + 1) :
    ∃ ss ss' ss'', f.separators = ss ++ (ss' ++ ss'') ∧ ss.length = l.length ∧ ss'.length = xs.length := by
  simp only [List.length_append, List.length_cons] at hcount
  refine ⟨f.separators.take l.length, (f.separators.drop l.length).take xs.length,
    (f.separators.drop l.length).drop xs.length, by simp, ?_, ?_⟩
  · rw [List.length_take]
    omega
  · rw [List.length_take, List.length_drop]
    omega

/-- Swaps in a row carry a word forward past as many words as there are swaps, with the separators left in their places,
    and just as many swaps back undo that. Only the last word has nothing to be swapped with going forward, and only the
    first one going backward. -/
theorem swaps_carry_word (f : Listing) {l xs r : List Word} {w : Word}
    (hcount : (l ++ w :: (xs ++ r)).length = f.separators.length + 1) (hxs : xs ≠ []) {s : Settings}
    (hs : s.followSwap = true) {pos : Nat} (hpos : (f.place l w).contains pos = true) :
    (Buffer.ofText (f.text (l ++ w :: (xs ++ r))) pos).swapTimes s .forward xs.length =
        some (.ofText (f.text (l ++ xs ++ w :: r)) (f.place (l ++ xs) w).stop) ∧
      (Buffer.ofText (f.text (l ++ xs ++ w :: r)) (f.place (l ++ xs) w).stop).swapTimes s .backward xs.length =
        some (.ofText (f.text (l ++ w :: (xs ++ r))) (f.place l w).start) ∧
      (∀ ws v c, (ws ++ [v]).length = f.separators.length + 1 → (f.place ws v).contains c = true →
        (Buffer.ofText (f.text (ws ++ [v])) c).swap s .forward =
          (.ofText (f.text (ws ++ [v])) c, .skipped .noNeighbor)) ∧
      ∀ ws v c, (v :: ws).length = f.separators.length + 1 → (f.place [] v).contains c = true →
        (Buffer.ofText (f.text (v :: ws)) c).swap s .backward =
          (.ofText (f.text (v :: ws)) c, .skipped .noNeighbor) := by
  obtain ⟨ss, ss', ss'', hseparators, hl, hx⟩ := exists_parts hcount
  let moved := ss'.zip xs
  have hmoved : moved.length = xs.length := by simp [moved, hx]
  have hne : moved.isEmpty = false := by
    rw [List.isEmpty_eq_false_iff, ← List.length_pos_iff, hmoved]
    exact List.length_pos_iff.mpr hxs
  obtain ⟨priority, htier⟩ := exists_tiered hseparators l (xs ++ r)
  have hright : (ss' ++ ss'').zip (xs ++ r) = moved ++ ss''.zip r := List.zip_append hx
  have hleft : (l ++ xs).zip (ss ++ ss') = l.zip ss ++ moved.map Prod.swap := by
    rw [List.zip_append hl.symm, List.zip_swap]
  -- The text before and after, seen from the word that is carried.
  have htext : f.text (l ++ w :: (xs ++ r)) = f.around (l.zip ss) w (moved ++ ss''.zip r) := by
    rw [text_eq_around hseparators hl, hright]
  have hseparators' : f.separators = ss ++ ss' ++ ss'' := by rw [hseparators, List.append_assoc]
  have hlength : (ss ++ ss').length = (l ++ xs).length := by simp [hl, hx]
  have htext' : f.text (l ++ xs ++ w :: r) = f.around (l.zip ss ++ moved.map Prod.swap) w (ss''.zip r) := by
    rw [text_eq_around hseparators' hlength, hleft]
  have hplace' : f.place (l ++ xs) w = f.span (l.zip ss ++ moved.map Prod.swap) w := by
    rw [place_eq_span hseparators' hlength, hleft]
  rw [hright] at htier
  rw [place_eq_span hseparators hl] at hpos ⊢
  refine ⟨?_, ?_, fun ws v c hcount hpos => swap_forward_last hcount hpos,
    fun ws v c _ hpos => f.swap_backward_first hpos⟩
  · rw [htext, htext', hplace', ← hmoved, Frame.swapTimes_forward htier hpos hs, hne]
    rfl
  · rw [htext, htext', hplace', ← hmoved, Frame.swapTimes_backward htier (Frame.contains_stop _ _ w) hs, hne]
    rfl

/-- In `sum[a + bb - c]` two swaps carry `a` to the end, and two swaps bring it back. -/
theorem swaps_carry_word_of_sum :
    let first := "sum[a + bb - c]".toList
    let last := "sum[bb + c - a]".toList
    (Buffer.ofText first 5).swapTimes {} .forward 2 = some (.ofText last 14) ∧
      (Buffer.ofText last 14).swapTimes {} .backward 2 = some (.ofText first 4) := by
  let a : Word := ⟨['a'], by decide, List.all_eq_true.mp (by decide), by decide⟩
  let bb : Word := ⟨['b', 'b'], by decide, List.all_eq_true.mp (by decide), by decide⟩
  let c : Word := ⟨['c'], by decide, List.all_eq_true.mp (by decide), by decide⟩
  let f : Listing :=
    { name := some ⟨['s', 'u', 'm'], by decide, List.all_eq_true.mp (by decide), by decide⟩
      opening := ['[']
      closing := [']']
      matching := rfl
      separators := [.spaced ['+'] (by decide), .spaced ['-'] (by decide)]
      level := by decide }
  obtain ⟨hforward, hbackward, -⟩ := @swaps_carry_word f [] [bb, c] [] a rfl (List.cons_ne_nil _ _) {} rfl 5 (by decide)
  exact ⟨hforward, hbackward⟩

end Listing
end SiblingSwap
