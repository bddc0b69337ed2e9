import SiblingSwap.Proofs.Arena
import SiblingSwap.Proofs.WellFormed

/-! Growing a tree node by node is growing a draft. The nodes of the arena, found at the addresses that they are linked
    as, hold the tokens of the draft's tree, and what is stored with them is what their tokens tell (`Depicts`). Each
    token is put in the same place on both sides, so the loop that looks for the place ends (`Follows`). -/

namespace SiblingSwap

namespace Cell
variable {c : Cell} {n : Node} {t : Token}

/-- What is stored with a node is what its tokens tell. -/
structure Stored (c : Cell) : Prop where
  role : c.role = (c.tokens.getLast?.map (·.role)).getD .opener
  priority : c.priority = (c.tokens.getLast?.map (·.priority)).getD rootPriority
  span : c.span = ⟨(c.tokens.head?.map (·.span.start)).getD 0, (c.tokens.getLast?.map (·.span.stop)).getD 0⟩

theorem stored_root : Stored root := ⟨rfl, rfl, rfl⟩

/-- The cell of a node of a tree, as far as it can be told without the other cells. -/
structure Depicts (c : Cell) (n : Node) : Prop where
  tokens : c.tokens = n.tokens
  role : c.role = n.role
  priority : c.priority = n.priority
  span : c.span = n.span
  width : c.children.length = n.children.length

end Cell

namespace Arena
variable {A B : Arena} {tree n : Node} {name : Nat → Address} {t : Token} {i j k parent : Nat}

theorem cell_merge (hi : i < A.size) (c : Cell) (j : Nat) : (A.merge i c).cell j =
    if j = i then
      { A.cell i with priority := c.priority, role := c.role, span := ⟨(A.cell i).span.start, c.span.stop⟩
                      tokens := (A.cell i).tokens ++ c.tokens }
    else A.cell j :=
  cell_modify hi j

theorem Stored.merge (hi : i < A.size) (hne : (A.cell i).tokens ≠ []) (h : (A.cell i).Stored) (t : Token) :
    ((A.merge i (.ofToken t)).cell i).Stored := by
  have hhead : ((A.cell i).tokens ++ [t]).head? = (A.cell i).tokens.head? := List.head?_append_of_ne_nil _ hne
  rw [cell_merge hi, if_pos rfl]
  exact ⟨by simp [Cell.ofToken], by simp [Cell.ofToken], by simp [Cell.ofToken, h.span, hhead]⟩

/-- Links apart, a new node changes nothing. -/
theorem Placed.kept {c : Cell} (hB : Placed A c parent k B) (hj : j < A.size) :
    ∃ parent children index, B.cell j = { A.cell j with parent, children, index } := by
  by_cases hjp : j = parent
  · rw [hjp, hB.host]
    exact ⟨_, _, _, rfl⟩
  · by_cases hmoved : (A.cell parent).children[k]? = some j
    · rw [hB.moved j hmoved]
      exact ⟨_, _, _, rfl⟩
    · rw [hB.others j hj hjp hmoved]
      exact ⟨_, _, _, rfl⟩

/-! ### The tree in the arena -/

/-- The nodes of the arena are those of a tree. -/
structure Depicts (A : Arena) (tree : Node) (name : Nat → Address) : Prop extends Linked A name where
  tokens : ∀ i < A.size, tree.tokensAt? (name i) = some (A.cell i).tokens
  onto : ∀ a us, tree.tokensAt? a = some us → ∃ i < A.size, name i = a
  stored : ∀ i < A.size, (A.cell i).Stored

namespace Depicts

theorem width (h : Depicts A tree name) (hi : i < A.size) (hn : tree.at? (name i) = some n) :
    (A.cell i).children.length = n.children.length := by
  have hiff : ∀ k, k < (A.cell i).children.length ↔ k < n.children.length := by
    intro k
    constructor
    · intro hk
      obtain ⟨hj, hname⟩ := (h.down i hi k _).mp (List.getElem?_eq_getElem hk)
      have htokens := h.tokens _ hj
      rw [hname] at htokens
      obtain ⟨m, hm, -⟩ := Option.map_eq_some_iff.mp htokens
      rw [Node.at?, hn] at hm
      exact (List.getElem?_eq_some_iff.mp hm).1
    · intro hk
      have hchild : tree.tokensAt? (k :: name i) = some n.children[k].tokens := by
        rw [Node.tokensAt?, Node.at?, hn, Option.bind_some, List.getElem?_eq_getElem hk]
        rfl
      obtain ⟨j, hj, hname⟩ := h.onto _ _ hchild
      exact (List.getElem?_eq_some_iff.mp ((h.down i hi k j).mpr ⟨hj, hname⟩)).1
  have h₁ := hiff (A.cell i).children.length
  have h₂ := hiff n.children.length
  omega

/-- The node that an id stands for. -/
theorem exists_node (h : Depicts A tree name) (hi : i < A.size) :
    ∃ n, tree.at? (name i) = some n ∧ (A.cell i).Depicts n := by
  obtain ⟨n, hn, htokens⟩ := Option.map_eq_some_iff.mp (h.tokens i hi)
  obtain ⟨hrole, hpriority, hspan⟩ := h.stored i hi
  rw [← htokens] at hrole hpriority hspan
  exact ⟨n, hn, htokens.symm, hrole, hpriority, hspan, h.width hi hn⟩

theorem at? (h : Depicts A tree name) (hi : i < A.size) (hn : tree.at? (name i) = some n) : (A.cell i).Depicts n := by
  obtain ⟨m, hm, hcell⟩ := h.exists_node hi
  obtain rfl : n = m := Option.some.inj (hn.symm.trans hm)
  exact hcell

/-! ### Steps -/

theorem empty : Depicts .empty .root fun _ => [] := by
  have hcell : ∀ i, Arena.empty.cell i = .root := by
    intro i
    cases i <;> rfl
  have hsize : ∀ i, i < Arena.empty.size ↔ i = 0 := fun i => Nat.lt_one_iff
  refine ⟨⟨Nat.one_pos, rfl, rfl, ?_, ?_, ?_⟩, ?_, ?_, ?_⟩
  · intro i hi j hj _
    rw [(hsize i).mp hi, (hsize j).mp hj]
  · intro i _ k a h
    cases h
  · simp [hcell, Cell.root]
  · intro i _
    rw [hcell]
    rfl
  · intro a us ha
    rcases List.eq_nil_or_concat' a with rfl | ⟨a, i, rfl⟩
    · exact ⟨0, Nat.one_pos, rfl⟩
    · simp [Node.root] at ha
  · intro i _
    rw [hcell]
    exact Cell.stored_root

theorem merge (h : Depicts A tree name) (hi : i < A.size) (hne : (A.cell i).tokens ≠ []) (t : Token) :
    Depicts (A.merge i (.ofToken t)) (tree.modifyAt (name i) (·.absorb t)) name where
  toLinked := h.toLinked.merge hi _
  tokens j hj := by
    rw [size_merge] at hj
    rw [Node.tokensAt?_absorb, h.tokens j hj, cell_merge hi]
    by_cases hji : j = i
    · simp [hji, Cell.ofToken]
    · have hname : name j ≠ name i := fun heq => hji (h.inj j hj i hi heq)
      simp [hji, hname]
  onto a us ha := by
    rw [Node.tokensAt?_absorb] at ha
    obtain ⟨vs, hvs, -⟩ := Option.map_eq_some_iff.mp ha
    simpa using h.onto a vs hvs
  stored j hj := by
    rw [size_merge] at hj
    by_cases hji : j = i
    · rw [hji]
      exact Stored.merge hi hne (h.stored i hi) t
    · rw [cell_merge hi, if_neg hji]
      exact h.stored j hj

theorem placed (h : Depicts A tree name) (hp : parent < A.size) (hB : Placed A (.ofToken t) parent k B)
    {grown : Node} {move : Address → Address} (hg : tree.Grown t grown (k :: name parent) move)
    (hmove : ∀ j < A.size, move (name j) = Address.adopted (k :: name parent) (name j))
    (hnew : grown.tokensAt? (k :: name parent) = some [t]) :
    Depicts B grown (renamed A name (k :: name parent)) where
  toLinked := h.toLinked.placed hp hB
  tokens i hi := by
    by_cases hi' : i = A.size
    · rw [hi', renamed_new, hB.new, hnew]
      rfl
    · have hi' : i < A.size := by
        have hsize := hB.size
        omega
      obtain ⟨_, _, _, hcell⟩ := hB.kept hi'
      have hkept := hg.kept (name i) _ (h.tokens i hi')
      rw [hmove i hi', if_neg Address.adopted_ne] at hkept
      rw [renamed_old hi', hkept, hcell]
  onto a us ha := by
    have hsize := hB.size
    rcases hg.only a us ha with rfl | ⟨b, rfl, hb⟩
    · exact ⟨A.size, by omega, renamed_new⟩
    · obtain ⟨i, hi, rfl⟩ := h.onto b us hb
      exact ⟨i, by omega, by rw [renamed_old hi, hmove i hi]⟩
  stored i hi := by
    by_cases hi' : i = A.size
    · rw [hi', hB.new]
      exact ⟨rfl, rfl, rfl⟩
    · have hi' : i < A.size := by
        have hsize := hB.size
        omega
      obtain ⟨_, _, _, hcell⟩ := hB.kept hi'
      obtain ⟨hrole, hpriority, hspan⟩ := h.stored i hi'
      rw [hcell]
      exact ⟨hrole, hpriority, hspan⟩

theorem add (h : Depicts A tree name) (hp : parent < A.size) (hn : tree.at? (name parent) = some n) (t : Token) :
    Depicts ((A.alloc (.ofToken t)).add parent A.size) (tree.modifyAt (name parent) (·.addChild t))
      (renamed A name (n.children.length :: name parent)) := by
  have hB := placed_add hp (c := .ofToken t) rfl
  rw [h.width hp hn] at hB
  refine h.placed hp hB (Node.grown_addChild hn) (fun j hj => ?_) ?_
  · rw [← h.width hp hn, Address.adopted_of_not_suffix (h.vacant hp hj)]
    rfl
  · rw [Node.tokensAt?_addChild t hn, if_pos rfl]

theorem insert (h : Depicts A tree name) (hp : parent < A.size) (hn : tree.at? (name parent) = some n) (t : Token) :
    Depicts ((A.alloc (.ofToken t)).insert parent A.size) (tree.modifyAt (name parent) (·.wrapLast t))
      (renamed A name ((n.children.length - 1) :: name parent)) := by
  have hchildren : ∀ j ∈ (A.cell parent).children, j < A.size ∧ j ≠ parent := by
    intro j hj
    obtain ⟨k, hk⟩ := List.mem_iff_getElem?.mp hj
    obtain ⟨hj, hname⟩ := (h.down parent hp k j).mp hk
    refine ⟨hj, ?_⟩
    rintro rfl
    exact List.cons_ne_self _ _ hname.symm
  have hB := placed_insert hp hchildren (c := .ofToken t) rfl
  rw [h.width hp hn] at hB
  exact h.placed hp hB (Node.grown_wrapLast hn) (fun _ _ => rfl) (Node.tokensAt?_wrapLast_append t hn [])

/-! ### The climb -/

/-- The climb ends where the draft's does. -/
theorem climb (h : Depicts A tree name) (priority : Int) (hi : i < A.size) :
    ∃ j < A.size, A.climb priority i = some j ∧ name j = Draft.looserAt tree priority (name i) := by
  induction ha : name i generalizing i with
  | nil =>
    obtain rfl := h.eq_root hi ha
    refine ⟨0, hi, ?_, ha⟩
    rw [Arena.climb, h.parent_root]
    split <;> rfl
  | cons k a ih =>
    obtain ⟨-, p, hp, hname, hparent⟩ := h.up i hi k a ha
    obtain ⟨n, hn, hcell⟩ := h.exists_node hi
    rw [Arena.climb, Draft.looserAt, ← ha, hn, Option.getD_some, hparent, hcell.priority]
    split
    · exact ih hp hname
    · exact ⟨i, hi, rfl, rfl⟩

end Depicts
end Arena

/-! ### Both ways of growing -/

namespace Growth
variable {g : Growth} {d : Draft} {name : Nat → Address} {t : Token}

/-- The arena holds the tree of the draft, with the same element in focus and the same brackets awaited. -/
structure Follows (g : Growth) (d : Draft) (name : Nat → Address) : Prop where
  depicts : g.arena.Depicts d.tree name
  focus_lt : g.focus < g.arena.size
  focus : name g.focus = d.focus
  awaited_lt : ∀ w ∈ g.awaited, w.2 < g.arena.size
  awaited : d.awaited = g.awaited.map fun w => (w.1, name w.2)

namespace Follows

theorem empty : Follows .empty .empty fun _ => [] where
  depicts := .empty
  focus_lt := Nat.one_pos
  focus := rfl
  awaited_lt := by simp [Growth.empty]
  awaited := rfl

theorem focused (h : Follows g d name) : g.focused.Depicts d.focused := by
  obtain ⟨n, hn, hcell⟩ := h.depicts.exists_node h.focus_lt
  rw [Draft.focused, ← h.focus, hn]
  exact hcell

theorem host (h : Follows g d name) : g.host < g.arena.size ∧ name g.host = d.host := by
  rw [Growth.host, Draft.host, ← h.focused.role, ← h.focus]
  split
  · exact ⟨h.focus_lt, rfl⟩
  · cases hname : name g.focus with
    | nil =>
      have hroot := h.depicts.eq_root h.focus_lt hname
      rw [Growth.focused, hroot, h.depicts.parent_root]
      exact ⟨h.depicts.size_pos, h.depicts.name_root⟩
    | cons k a =>
      obtain ⟨-, p, hp, hpname, hparent⟩ := h.depicts.up g.focus h.focus_lt k a hname
      rw [Growth.focused, hparent]
      exact ⟨hp, hpname⟩

/-- A token that joins an element. -/
theorem merge (h : Follows g d name) (hd : d.WellFormed) {i : Nat} (hi : i < g.arena.size) (hne : name i ≠ [])
    {awaited : List (List Char × Nat)} (hsub : awaited ⊆ g.awaited) (t : Token) :
    Follows ⟨g.arena.merge i (.ofToken t), i, awaited⟩
      ⟨d.tree.modifyAt (name i) (·.absorb t), name i, awaited.map fun w => (w.1, name w.2)⟩ name where
  depicts := by
    refine h.depicts.merge hi (fun hempty => ?_) t
    exact hd.filled _ hne (hempty ▸ h.depicts.tokens i hi)
  focus_lt := by simpa using hi
  focus := rfl
  awaited_lt w hw := by simpa using h.awaited_lt w (hsub hw)
  awaited := rfl

/-- A token that becomes the last child of the host. -/
theorem append (h : Follows g d name) (hd : d.WellFormed) (t : Token) :
    ∃ name', Follows (g.append (.ofToken t)) (d.append t) name' := by
  obtain ⟨hlt, hname⟩ := h.host
  obtain ⟨n, hn⟩ := hd.exists_at? d.host_suffix
  rw [← hname] at hn
  have hdepicts := h.depicts.add hlt hn t
  have hvacant : ∀ i < g.arena.size, ¬n.children.length :: name g.host <:+ name i :=
    fun i hi => h.depicts.width hlt hn ▸ h.depicts.vacant hlt hi
  refine ⟨Arena.renamed g.arena name (n.children.length :: name g.host), ?_, ?_, ?_, ?_, ?_⟩
  · rw [Draft.append, ← hname]
    exact hdepicts
  · simp [Growth.append]
  · rw [Growth.append, Draft.append, Arena.renamed_new, ← hname, Draft.width_eq hn]
  · intro w hw
    exact Nat.lt_of_lt_of_eq (Nat.lt_succ_of_lt (h.awaited_lt w hw)) (by simp [Growth.append])
  · refine h.awaited.trans (List.map_congr_left fun w hw => ?_)
    have hw := h.awaited_lt w hw
    rw [Arena.renamed_old hw, Address.adopted_of_not_suffix (hvacant _ hw)]

theorem addAtom (h : Follows g d name) (hd : d.WellFormed) (t : Token) :
    ∃ name', Follows (g.addAtom (.ofToken t)) (d.addAtom t) name' := by
  rw [Growth.addAtom, Draft.addAtom, h.focused.role]
  split
  · next hrole =>
    have hmerge := h.merge hd h.focus_lt (h.focus ▸ hd.focus_ne_nil hrole) (List.Subset.refl _) t
    rw [← h.awaited, h.focus] at hmerge
    exact ⟨name, hmerge⟩
  · exact h.append hd t

theorem addOpener (h : Follows g d name) (hd : d.WellFormed) (t : Token) :
    ∃ name', Follows (g.addOpener (.ofToken t)) (d.addOpener t) name' := by
  obtain ⟨name', h'⟩ := h.addAtom hd t
  have hlexeme : (Cell.ofToken t).lexeme = t.text := rfl
  refine ⟨name', ?_⟩
  simp only [Growth.addOpener, Draft.addOpener, hlexeme]
  cases closerOf? t.text with
  | none => exact h'
  | some closer =>
    refine ⟨h'.depicts, h'.focus_lt, h'.focus, ?_, ?_⟩
    · intro w hw
      rcases List.mem_cons.mp hw with rfl | hw
      · exact h'.focus_lt
      · exact h'.awaited_lt w hw
    · rw [List.map_cons, ← h'.awaited, h'.focus]

/-- An operator finds its place, and the elements that wait for a bracket keep waiting wherever they are moved. -/
theorem addOperator (h : Follows g d name) (hd : d.WellFormed) (t : Token) :
    ∃ g' name', g.addOperator (.ofToken t) = some g' ∧ Follows g' (d.addOperator t) name' := by
  obtain ⟨hlt, hname⟩ := h.host
  obtain ⟨parent, hp, hclimb, hparent⟩ := h.depicts.climb t.priority hlt
  rw [hname] at hparent
  obtain ⟨n, hn⟩ := hd.exists_at? ((Draft.looserAt_suffix d.tree t.priority d.host).trans d.host_suffix)
  rw [← hparent] at hn
  have hdepicts := h.depicts.insert hp hn t
  have hadd : g.addOperator (.ofToken t) = some { g with
      arena := (g.arena.alloc (.ofToken t)).insert parent g.arena.size, focus := g.arena.size } :=
    congrArg _ hclimb
  have hslot : (d.width (name parent) - 1) :: name parent = (n.children.length - 1) :: name parent := by
    rw [Draft.width_eq hn]
  refine ⟨_, Arena.renamed g.arena name ((n.children.length - 1) :: name parent), hadd, ?_, ?_, ?_, ?_, ?_⟩
  · rw [Draft.addOperator, ← hparent]
    exact hdepicts
  · simp
  · rw [Arena.renamed_new, Draft.addOperator, ← hparent, hslot]
  · intro w hw
    exact Nat.lt_of_lt_of_eq (Nat.lt_succ_of_lt (h.awaited_lt w hw)) (by simp)
  · rw [Draft.addOperator, ← hparent, hslot, h.awaited, List.map_map]
    refine List.map_congr_left fun w hw => ?_
    rw [Arena.renamed_old (h.awaited_lt w hw)]
    rfl

theorem addCloser (h : Follows g d name) (hd : d.WellFormed) (t : Token) :
    ∃ g' name', g.addCloser (.ofToken t) = some g' ∧ Follows g' (d.addCloser t) name' := by
  have hlexeme : (Cell.ofToken t).lexeme = t.text := rfl
  rw [Growth.addCloser, Draft.addCloser, hlexeme, h.focused.role]
  split
  · split
    · exact ⟨g, name, rfl, h⟩
    · exact h.addOperator hd t
  · cases hawaited : g.awaited with
    | nil =>
      rw [h.awaited, hawaited]
      exact h.addOperator hd t
    | cons w rest =>
      obtain ⟨closer, i⟩ := w
      rw [h.awaited, hawaited]
      simp only [List.map_cons]
      split
      · have hi : i < g.arena.size := h.awaited_lt (closer, i) (by simp [hawaited])
        have hne : name i ≠ [] := (hd.awaited closer (name i) (by simp [h.awaited, hawaited])).1
        exact ⟨_, name, rfl, h.merge hd hi hne (by simp [hawaited]) t⟩
      · exact h.addOperator hd t

/-- Whatever the token, both sides put it in the same place. -/
theorem add (h : Follows g d name) (hd : d.WellFormed) (t : Token) :
    ∃ g' name', g.add t = some g' ∧ Follows g' (d.add t) name' := by
  have hrole : (Cell.ofToken t).role = t.role := rfl
  simp only [Growth.add, Draft.add, hrole]
  cases t.role with
  | atom =>
    obtain ⟨name', h'⟩ := h.addAtom hd t
    exact ⟨_, name', rfl, h'⟩
  | opener =>
    obtain ⟨name', h'⟩ := h.addOpener hd t
    exact ⟨_, name', rfl, h'⟩
  | closer => exact h.addCloser hd t
  | operator => exact h.addOperator hd t

end Follows

theorem ofTokens_concat (ts : List Token) (t : Token) : ofTokens (ts ++ [t]) = (ofTokens ts).bind (·.add t) := by
  rw [ofTokens, List.foldlM_append]
  refine congrArg _ (funext fun g => ?_)
  simp

/-- Every list of tokens grows into a tree, which is that of the draft. -/
theorem exists_follows (ts : List Token) :
    ∃ g name, ofTokens ts = some g ∧ Follows g (Draft.ofTokens ts) name := by
  induction ts using List.reverseRecOn with
  | nil => exact ⟨_, _, rfl, .empty⟩
  | append_singleton ts t ih =>
    obtain ⟨g, name, hg, h⟩ := ih
    obtain ⟨g', name', hadd, h'⟩ := h.add (Draft.WellFormed.ofTokens ts) t
    refine ⟨g', name', by rw [ofTokens_concat, hg, Option.bind_some, hadd], ?_⟩
    rw [Draft.ofTokens, List.foldl_append]
    exact h'

end Growth
end SiblingSwap
