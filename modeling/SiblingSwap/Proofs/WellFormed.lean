import Mathlib.Data.List.Nodup
import SiblingSwap.Tree.Locate
import SiblingSwap.Proofs.Level

/-! Growing a tree keeps it well formed, whatever tokens are read: their texts, priorities, roles and places are
    arbitrary, so an operator may adopt an opener that waits for its bracket, and the focus may leave the right edge
    of the tree. Each token changes the node at one address (`Grown`); the addresses of all nodes are listed once. -/

namespace SiblingSwap
namespace Node
variable {tree n : Node} {t : Token} {a b : Address}

/-! ### A change at one address -/

theorem at?_modifyAt_append (tree : Node) (f : Node → Node) (below above : Address) :
    (tree.modifyAt above f).at? (below ++ above) = (tree.at? above).bind fun n => (f n).at? below := by
  induction above generalizing below f with
  | nil => rw [List.append_nil]; rfl
  | cons i up ih =>
    rw [modifyAt, List.append_cons, ih, at?, Option.bind_assoc]
    refine congrArg _ (funext fun n => ?_)
    rw [at?_concat, List.getElem?_modify_eq]
    cases n.children[i]? <;> rfl

theorem tokensAt?_modifyAt_append (f : Node → Node) (h : tree.at? a = some n) (below : Address) :
    (tree.modifyAt a f).tokensAt? (below ++ a) = (f n).tokensAt? below := by
  rw [tokensAt?, at?_modifyAt_append, h]
  rfl

/-- The tokens of a node do not depend on what is below it. -/
theorem tokensAt?_modifyAt_of_not_suffix (tree : Node) (f : Node → Node) (h : ¬a <:+ b) :
    (tree.modifyAt a f).tokensAt? b = tree.tokensAt? b := by
  induction a generalizing f with
  | nil => exact absurd List.nil_suffix h
  | cons i up ih =>
    rw [modifyAt]
    by_cases hup : up <:+ b
    · obtain ⟨x, rfl⟩ := hup
      rw [tokensAt?, tokensAt?, at?_modifyAt_append, at?_append, Option.map_bind, Option.map_bind]
      refine congrArg _ (funext fun n => ?_)
      rcases List.eq_nil_or_concat' x with rfl | ⟨x, j, rfl⟩
      · rfl
      · have hne : i ≠ j := by
          rintro rfl
          exact h (List.suffix_append_self_iff.mpr (List.suffix_append x [i]))
        simp only [Function.comp, at?_concat, List.getElem?_modify_ne _ _ hne]
    · exact ih _ hup

/-! ### One token more -/

/-- A tree with one token more, at the end of the node at `place`. What lay at `a` before lies at `move a`, and there
    is nothing else. -/
structure Grown (tree : Node) (t : Token) (grown : Node) (place : Address) (move : Address → Address) : Prop where
  place_ne : place ≠ []
  move_nil : move [] = []
  /-- Nodes that lay at or below one another still do. -/
  suffix_iff : ∀ a b, move a <:+ move b ↔ a <:+ b
  placed : ∃ us, grown.tokensAt? place = some (us ++ [t])
  kept : ∀ a us, tree.tokensAt? a = some us →
    grown.tokensAt? (move a) = some (if move a = place then us ++ [t] else us)
  only : ∀ b us, grown.tokensAt? b = some us → b = place ∨ ∃ a, move a = b ∧ tree.tokensAt? a = some us

theorem tokensAt?_absorb (tree : Node) (t : Token) (a b : Address) :
    (tree.modifyAt a (·.absorb t)).tokensAt? b = (tree.tokensAt? b).map fun us => if b = a then us ++ [t] else us := by
  by_cases hb : a <:+ b
  · obtain ⟨x, rfl⟩ := hb
    rw [tokensAt?, tokensAt?, at?_modifyAt_append, at?_append]
    cases tree.at? a with
    | none => rfl
    | some n =>
      rcases List.eq_nil_or_concat' x with rfl | ⟨x, i, rfl⟩
      · simp [absorb, at?]
      · have hne : x ++ [i] ++ a ≠ a := fun h => by simpa using List.append_left_eq_self.mp h
        simp only [Option.bind_some, at?_concat, absorb, hne, if_false, Option.map_id']
  · have hne : b ≠ a := fun h => hb (h ▸ List.suffix_refl _)
    rw [tokensAt?_modifyAt_of_not_suffix _ _ hb]
    simp [hne]

theorem grown_absorb (ha : a ≠ []) (hn : tree.at? a = some n) :
    Grown tree t (tree.modifyAt a (·.absorb t)) a id where
  place_ne := ha
  move_nil := rfl
  suffix_iff _ _ := Iff.rfl
  placed := ⟨n.tokens, by rw [tokensAt?_absorb, tokensAt?, hn]; simp⟩
  kept b us hb := by
    rw [id, tokensAt?_absorb, hb]
    rfl
  only b us hb := by
    by_cases hplace : b = a
    · exact Or.inl hplace
    · rw [tokensAt?_absorb] at hb
      exact Or.inr ⟨b, rfl, by simpa [hplace] using hb⟩

/-- There is no node at or below the place of a new last child. -/
theorem tokensAt?_vacant (hn : tree.at? a = some n) (below : Address) :
    tree.tokensAt? (below ++ n.children.length :: a) = none := by
  rw [tokensAt?, List.append_cons, at?_append, hn, Option.bind_some, at?_concat,
    List.getElem?_eq_none (Nat.le_refl _)]
  rfl

theorem tokensAt?_addChild (t : Token) (hn : tree.at? a = some n) (b : Address) :
    (tree.modifyAt a (·.addChild t)).tokensAt? b =
      if b = n.children.length :: a then some [t] else tree.tokensAt? b := by
  by_cases hb : a <:+ b
  · obtain ⟨x, rfl⟩ := hb
    rw [tokensAt?_modifyAt_append _ hn]
    by_cases hx : [n.children.length] <:+ x
    · obtain ⟨x, rfl⟩ := hx
      rw [List.append_assoc, List.singleton_append, tokensAt?_vacant hn, tokensAt?_concat]
      have hnew : (n.addChild t).children[n.children.length]? = some (leaf t) := by simp [addChild]
      rw [hnew, Option.bind_some]
      rcases List.eq_nil_or_concat' x with rfl | ⟨x, i, rfl⟩
      · rw [List.nil_append, if_pos rfl]
        rfl
      · have hne : x ++ [i] ++ n.children.length :: a ≠ n.children.length :: a :=
          fun h => by simpa using List.append_left_eq_self.mp h
        rw [if_neg hne, tokensAt?_concat]
        rfl
    · have hne : x ++ a ≠ n.children.length :: a := by
        intro h
        have hx' : x = [n.children.length] := List.append_cancel_right h
        exact hx (hx' ▸ List.suffix_refl _)
      have hold : tree.tokensAt? (x ++ a) = n.tokensAt? x := by
        rw [tokensAt?, at?_append, hn]
        rfl
      rw [if_neg hne, hold]
      exact tokensAt?_push n (leaf t) hx
  · have hne : b ≠ n.children.length :: a := by
      rintro rfl
      exact hb (List.suffix_cons _ a)
    rw [tokensAt?_modifyAt_of_not_suffix _ _ hb, if_neg hne]

theorem grown_addChild (hn : tree.at? a = some n) :
    Grown tree t (tree.modifyAt a (·.addChild t)) (n.children.length :: a) id where
  place_ne := by simp
  move_nil := rfl
  suffix_iff _ _ := Iff.rfl
  placed := ⟨[], by rw [tokensAt?_addChild t hn, if_pos rfl]; rfl⟩
  kept b us hb := by
    have hne : b ≠ n.children.length :: a := by
      rintro rfl
      cases (tokensAt?_vacant hn []).symm.trans hb
    rw [id, tokensAt?_addChild t hn, if_neg hne, if_neg hne, hb]
  only b us hb := by
    by_cases hplace : b = n.children.length :: a
    · exact Or.inl hplace
    · rw [tokensAt?_addChild t hn, if_neg hplace] at hb
      exact Or.inr ⟨b, rfl, hb⟩

theorem getElem?_wrapLast (n : Node) (t : Token) :
    (n.wrapLast t).children[n.children.length - 1]? = some ⟨[t], n.children.getLast?.toList⟩ := by
  rw [wrapLast, ← List.length_dropLast, List.getElem?_concat_length]

theorem getElem?_wrapLast_of_ne (n : Node) (t : Token) {i : Nat} (h : i ≠ n.children.length - 1) :
    (n.wrapLast t).children[i]? = n.children[i]? := by
  obtain ⟨us, cs⟩ := n
  rcases List.eq_nil_or_concat' cs with rfl | ⟨cs, c, rfl⟩
  · exact List.getElem?_eq_none (by simp [wrapLast] at h ⊢; omega)
  · have hi : i ≠ cs.length := by simpa using h
    simp only [wrapLast, List.dropLast_concat, List.getElem?_append]
    split
    · rfl
    · rw [List.getElem?_eq_none (by simp; omega), List.getElem?_eq_none (by simp; omega)]

theorem tokensAt?_wrapLast_append (t : Token) (hn : tree.at? a = some n) (below : Address) :
    (tree.modifyAt a (·.wrapLast t)).tokensAt? (below ++ (n.children.length - 1) :: a) =
      (⟨[t], n.children.getLast?.toList⟩ : Node).tokensAt? below := by
  rw [List.append_cons, tokensAt?_modifyAt_append _ hn, tokensAt?_concat, getElem?_wrapLast]
  rfl

theorem tokensAt?_wrapLast_of_not_suffix (t : Token) (hn : tree.at? a = some n)
    (hb : ¬(n.children.length - 1) :: a <:+ b) :
    (tree.modifyAt a (·.wrapLast t)).tokensAt? b = tree.tokensAt? b := by
  by_cases hab : a <:+ b
  · obtain ⟨x, rfl⟩ := hab
    have hold : tree.tokensAt? (x ++ a) = n.tokensAt? x := by
      rw [tokensAt?, at?_append, hn]
      rfl
    rw [tokensAt?_modifyAt_append _ hn, hold]
    rcases List.eq_nil_or_concat' x with rfl | ⟨x, i, rfl⟩
    · rfl
    · have hi : i ≠ n.children.length - 1 := by
        rintro rfl
        exact hb (List.suffix_append_self_iff.mpr (List.suffix_append x [n.children.length - 1]))
      rw [tokensAt?_concat, tokensAt?_concat, getElem?_wrapLast_of_ne n t hi]
  · exact tokensAt?_modifyAt_of_not_suffix _ _ hab

theorem tokensAt?_wrapLast_adopted (t : Token) (hn : tree.at? a = some n) (b : Address) :
    (tree.modifyAt a (·.wrapLast t)).tokensAt? (Address.adopted ((n.children.length - 1) :: a) b) =
      tree.tokensAt? b := by
  by_cases hb : (n.children.length - 1) :: a <:+ b
  · obtain ⟨x, rfl⟩ := hb
    have hold : tree.tokensAt? (x ++ (n.children.length - 1) :: a) = n.children.getLast?.bind (·.tokensAt? x) := by
      rw [tokensAt?, List.append_cons, at?_append, hn, Option.bind_some, at?_concat, List.getLast?_eq_getElem?,
        Option.map_bind]
      rfl
    rw [Address.adopted_append, List.append_cons, tokensAt?_wrapLast_append t hn, tokensAt?_concat, hold]
    cases n.children.getLast? <;> rfl
  · rw [Address.adopted_of_not_suffix hb]
    exact tokensAt?_wrapLast_of_not_suffix t hn hb

theorem grown_wrapLast (hn : tree.at? a = some n) :
    Grown tree t (tree.modifyAt a (·.wrapLast t)) ((n.children.length - 1) :: a)
      (Address.adopted ((n.children.length - 1) :: a)) where
  place_ne := by simp
  move_nil := Address.adopted_of_length_lt (by simp)
  suffix_iff _ _ := Address.adopted_suffix_iff
  placed := ⟨[], tokensAt?_wrapLast_append t hn []⟩
  kept b us hb := by rw [tokensAt?_wrapLast_adopted t hn, hb, if_neg Address.adopted_ne]
  only b us hb := by
    by_cases hplace : (n.children.length - 1) :: a <:+ b
    · obtain ⟨x, rfl⟩ := hplace
      rcases List.eq_nil_or_concat' x with rfl | ⟨x, i, rfl⟩
      · exact Or.inl rfl
      · -- The newcomer has at most one child.
        obtain rfl : i = 0 := by
          rw [tokensAt?_wrapLast_append t hn, tokensAt?_concat] at hb
          cases i with
          | zero => rfl
          | succ i => cases hc : n.children.getLast? <;> simp [hc] at hb
        have hadopted : Address.adopted ((n.children.length - 1) :: a) (x ++ (n.children.length - 1) :: a) =
            x ++ [0] ++ (n.children.length - 1) :: a := by
          rw [Address.adopted_append, List.append_cons x 0]
        exact Or.inr ⟨_, hadopted, by rw [← tokensAt?_wrapLast_adopted t hn, hadopted, hb]⟩
    · rw [tokensAt?_wrapLast_of_not_suffix t hn hplace] at hb
      exact Or.inr ⟨b, Address.adopted_of_not_suffix hplace, hb⟩

end Node

/-! ### Well-formed drafts -/

namespace Draft
variable {d d' : Draft} {t : Token} {a : Address}

/-- The root holds no token and every other node holds one. The focus is a node, and each bracket that is awaited
    belongs to an element that holds its opener. -/
structure WellFormed (d : Draft) : Prop where
  root : d.tree.tokensAt? [] = some []
  filled : ∀ a, a ≠ [] → d.tree.tokensAt? a ≠ some []
  focus : (d.tree.at? d.focus).isSome
  awaited : ∀ closer a, (closer, a) ∈ d.awaited → a ≠ [] ∧
    ∃ us, d.tree.tokensAt? a = some us ∧ ∃ u ∈ us, u.role = .opener ∧ closerOf? u.text = some closer

/-- The token has been placed at the focus. Each bracket awaited was awaited before, at the same element, or the token
    asks for it. -/
structure Grows (d : Draft) (t : Token) (d' : Draft) (move : Address → Address) : Prop where
  tree : Node.Grown d.tree t d'.tree d'.focus move
  awaited : ∀ closer b, (closer, b) ∈ d'.awaited → (∃ a, move a = b ∧ (closer, a) ∈ d.awaited) ∨
    (b = d'.focus ∧ t.role = .opener ∧ closerOf? t.text = some closer)

theorem WellFormed.grows {move : Address → Address} (h : d.WellFormed) (hg : d.Grows t d' move) : d'.WellFormed := by
  obtain ⟨hne, hnil, -, ⟨vs, hplaced⟩, hkept, honly⟩ := hg.tree
  have hroot : d'.tree.tokensAt? [] = some [] := by
    have hroot := hkept [] [] h.root
    rwa [hnil, if_neg hne.symm] at hroot
  have hmove : ∀ b us, d.tree.tokensAt? b = some us → b ≠ [] → move b ≠ [] := by
    intro b us hb hb' hnil
    have hold := hkept b us hb
    rw [hnil, hroot, if_neg hne.symm, Option.some.injEq] at hold
    exact h.filled b hb' (hold ▸ hb)
  refine ⟨hroot, ?_, ?_, ?_⟩
  · intro b hb hempty
    rcases honly b [] hempty with rfl | ⟨a, rfl, ha⟩
    · simp [hplaced] at hempty
    · refine h.filled a ?_ ha
      rintro rfl
      exact hb hnil
  · obtain ⟨n, hn, -⟩ := Option.map_eq_some_iff.mp hplaced
    rw [hn]
    rfl
  · intro closer b hb
    rcases hg.awaited closer b hb with ⟨a, rfl, ha⟩ | ⟨rfl, hrole, hcloser⟩
    · obtain ⟨ha, us, hus, u, hu, hopens⟩ := h.awaited closer a ha
      refine ⟨hmove a us hus ha, _, hkept a us hus, u, ?_, hopens⟩
      split <;> simp [hu]
    · exact ⟨hne, _, hplaced, t, by simp, hrole, hcloser⟩

theorem host_suffix (d : Draft) : d.host <:+ d.focus := by
  rw [host]
  split
  · exact List.suffix_refl _
  · exact List.tail_suffix _

theorem looserAt_suffix (tree : Node) (priority : Int) (a : Address) : looserAt tree priority a <:+ a := by
  induction a with
  | nil => exact List.suffix_refl _
  | cons i up ih =>
    rw [looserAt]
    split
    · exact ih.trans (List.suffix_cons i up)
    · exact List.suffix_refl _

theorem width_eq {n : Node} (h : d.tree.at? a = some n) : d.width a = n.children.length := by
  rw [width, h]
  rfl

/-- A node that the focus is at or below. -/
theorem WellFormed.exists_at? (h : d.WellFormed) (ha : a <:+ d.focus) : ∃ n, d.tree.at? a = some n :=
  Option.isSome_iff_exists.mp (Node.isSome_at?_of_suffix ha h.focus)

theorem WellFormed.focus_ne_nil (h : d.WellFormed) (hrole : d.focused.role = .atom) : d.focus ≠ [] := by
  intro hnil
  have hroot : d.tree.tokens = [] := Option.some.inj h.root
  have htree : d.focused = d.tree := by
    rw [focused, hnil]
    rfl
  rw [htree, Node.role, hroot] at hrole
  cases hrole

theorem grows_join {n : Node} (ha : a ≠ []) (hn : d.tree.at? a = some n) : d.Grows t (d.join a t) id where
  tree := Node.grown_absorb ha hn
  awaited _ b hb := Or.inl ⟨b, rfl, hb⟩

theorem grows_append (h : d.WellFormed) : d.Grows t (d.append t) id where
  tree := by
    obtain ⟨n, hn⟩ := h.exists_at? d.host_suffix
    rw [append, width_eq hn]
    exact Node.grown_addChild hn
  awaited _ b hb := Or.inl ⟨b, rfl, hb⟩

theorem grows_addAtom (h : d.WellFormed) : d.Grows t (d.addAtom t) id := by
  rw [addAtom]
  split
  · next hrole =>
    obtain ⟨n, hn⟩ := h.exists_at? (List.suffix_refl _)
    exact grows_join (h.focus_ne_nil hrole) hn
  · exact grows_append h

theorem grows_addOpener (h : d.WellFormed) (hrole : t.role = .opener) : d.Grows t (d.addOpener t) id := by
  have hatom := grows_addAtom (t := t) h
  rw [addOpener]
  split
  · next closer hcloser =>
    refine ⟨hatom.tree, fun other b hb => ?_⟩
    rcases List.mem_cons.mp hb with heq | hb
    · obtain ⟨rfl, rfl⟩ := Prod.mk.inj heq
      exact Or.inr ⟨rfl, hrole, hcloser⟩
    · exact hatom.awaited other b hb
  · exact hatom

theorem grows_addOperator (h : d.WellFormed) :
    d.Grows t (d.addOperator t) (Address.adopted (d.addOperator t).focus) where
  tree := by
    obtain ⟨n, hn⟩ := h.exists_at? ((looserAt_suffix d.tree t.priority d.host).trans d.host_suffix)
    have hslot : (d.addOperator t).focus = (n.children.length - 1) :: looserAt d.tree t.priority d.host := by
      rw [addOperator, width_eq hn]
    rw [hslot]
    exact Node.grown_wrapLast hn
  awaited closer b hb := by
    obtain ⟨⟨other, a⟩, ha, heq⟩ := List.mem_map.mp hb
    obtain ⟨rfl, rfl⟩ := Prod.mk.inj heq
    exact Or.inl ⟨a, rfl, ha⟩

/-- A token leaves no trace or is placed, and it is a line break that leaves none. -/
theorem add_cases (h : d.WellFormed) (t : Token) :
    (d.add t = d ∧ t.role = .closer ∧ t.text = ['\n'] ∧ d.focused.role.expectsMore = true) ∨
      ∃ move, d.Grows t (d.add t) move := by
  rw [add]
  split
  · exact Or.inr ⟨id, grows_addAtom h⟩
  · next hrole => exact Or.inr ⟨id, grows_addOpener h hrole⟩
  · next hrole =>
    rw [addCloser]
    split
    · next hline =>
      split
      · next hmore => exact Or.inl ⟨rfl, hrole, hline, hmore⟩
      · exact Or.inr ⟨_, grows_addOperator h⟩
    · split
      · next closer a rest hawaited =>
        split
        · obtain ⟨ha, us, hus, -⟩ := h.awaited closer a (by simp [hawaited])
          obtain ⟨n, hn, -⟩ := Option.map_eq_some_iff.mp hus
          refine Or.inr ⟨id, Node.grown_absorb ha hn, fun other b hb => ?_⟩
          exact Or.inl ⟨b, rfl, hawaited ▸ List.mem_cons_of_mem _ hb⟩
        · exact Or.inr ⟨_, grows_addOperator h⟩
      · exact Or.inr ⟨_, grows_addOperator h⟩
  · exact Or.inr ⟨_, grows_addOperator h⟩

theorem wellFormed_empty : WellFormed empty where
  root := rfl
  filled a ha := by
    rcases List.eq_nil_or_concat' a with rfl | ⟨a, i, rfl⟩
    · exact absurd rfl ha
    · simp [empty, Node.root]
  focus := rfl
  awaited _ _ h := by cases h

theorem WellFormed.add (h : d.WellFormed) (t : Token) : (d.add t).WellFormed := by
  rcases add_cases h t with ⟨heq, -⟩ | ⟨move, hg⟩
  · rw [heq]
    exact h
  · exact h.grows hg

theorem WellFormed.ofTokens (ts : List Token) : (ofTokens ts).WellFormed := by
  induction ts using List.reverseRecOn with
  | nil => exact wellFormed_empty
  | append_singleton ts t ih =>
    rw [Draft.ofTokens, List.foldl_append]
    exact ih.add t

end Draft
end SiblingSwap
