import Mathlib.Data.List.Nodup
import Mathlib.Data.List.Perm.Basic
import SiblingSwap.Proofs.Address
import SiblingSwap.Tree.Locate

/-! Every node of a tree, one after the other. The addresses of a tree name each of its nodes once, and so does the
    post-order, where all below a node comes before the node. The search for a place walks the tree with a list of open
    nodes in place of a recursion. What is still to come is at every point the post-order of the rest: of each open node
    the children that were not entered, with all below them, and then the node. So the walk meets the nodes in
    post-order, and its answer is the first one that covers the place. -/

namespace SiblingSwap
namespace Node
variable {tree n : Node} {a b here : Address} {pos : Nat}

/-- What holds of a node as soon as it holds of its children holds of every node. -/
@[elab_as_elim]
theorem children_induction {motive : Node → Prop} (step : ∀ n : Node, (∀ c ∈ n.children, motive c) → motive n)
    (n : Node) : motive n :=
  step n fun c _ => children_induction step c
termination_by sizeOf n
decreasing_by
  obtain ⟨ts, cs⟩ := n
  have hlt := List.sizeOf_lt_of_mem ‹c ∈ cs›
  simp only [mk.sizeOf_spec]
  omega

/-! ### Addresses -/

theorem addressesAmong_eq (here : Address) (i : Nat) (cs : List Node) :
    addressesAmong here i cs = (cs.zipIdx i).flatMap fun c => addresses (c.2 :: here) c.1 := by
  induction cs generalizing i with
  | nil => rfl
  | cons c cs ih => rw [addressesAmong, ih, List.zipIdx_cons, List.flatMap_cons]

theorem mem_addressesAmong {cs : List Node} :
    a ∈ addressesAmong here 0 cs ↔ ∃ i c, cs[i]? = some c ∧ a ∈ addresses (i :: here) c := by
  simp only [addressesAmong_eq, List.mem_flatMap, Prod.exists, List.mk_mem_zipIdx_iff_getElem?]
  exact exists_comm

theorem mem_addresses : a ∈ n.addresses here ↔ ∃ x, a = x ++ here ∧ (n.at? x).isSome := by
  induction n using children_induction generalizing here with
  | step n ih =>
    obtain ⟨ts, cs⟩ := n
    rw [addresses, List.mem_cons, mem_addressesAmong]
    constructor
    · rintro (rfl | ⟨i, c, hc, ha⟩)
      · exact ⟨[], rfl, rfl⟩
      · obtain ⟨x, rfl, hx⟩ := (ih c (List.mem_of_getElem? hc)).mp ha
        refine ⟨x ++ [i], by simp, ?_⟩
        rw [at?_concat, hc]
        exact hx
    · rintro ⟨x, rfl, hx⟩
      rcases List.eq_nil_or_concat' x with rfl | ⟨x, i, rfl⟩
      · exact Or.inl rfl
      · rw [at?_concat] at hx
        cases hc : cs[i]? with
        | none => simp [hc] at hx
        | some c =>
          refine Or.inr ⟨i, c, hc, (ih c (List.mem_of_getElem? hc)).mpr ⟨x, by simp, ?_⟩⟩
          simpa [hc] using hx

/-- The addresses of a tree are those with a node. -/
theorem mem_addresses_nil : a ∈ tree.addresses [] ↔ (tree.at? a).isSome := by
  simp [mem_addresses]

/-! ### Post-order -/

mutual

/-- The addresses of a node and of all below it: child by child what lies there, and then the node. -/
def postorder (here : Address) : Node → List Address
  | ⟨_, cs⟩ => postorderAmong here 0 cs ++ [here]

/-- The addresses of the children of a node from the `i`-th on, and of all below them, in post-order. -/
def postorderAmong (here : Address) (i : Nat) : List Node → List Address
  | [] => []
  | c :: cs => postorder (i :: here) c ++ postorderAmong here (i + 1) cs

end

theorem postorderAmong_eq (here : Address) (i : Nat) (cs : List Node) :
    postorderAmong here i cs = (cs.zipIdx i).flatMap fun c => postorder (c.2 :: here) c.1 := by
  induction cs generalizing i with
  | nil => rfl
  | cons c cs ih => rw [postorderAmong, ih, List.zipIdx_cons, List.flatMap_cons]

theorem postorder_perm (here : Address) (n : Node) : (n.postorder here).Perm (n.addresses here) := by
  induction n using children_induction generalizing here with
  | step n ih =>
    obtain ⟨ts, cs⟩ := n
    have hamong : (postorderAmong here 0 cs).Perm (addressesAmong here 0 cs) := by
      rw [postorderAmong_eq, addressesAmong_eq]
      exact List.Perm.flatMap_left _ fun c hc => ih c.1 (List.fst_mem_of_mem_zipIdx hc) _
    rw [postorder, addresses]
    exact (hamong.append_right [here]).trans (List.perm_append_singleton here _)

theorem mem_postorder : a ∈ tree.postorder [] ↔ (tree.at? a).isSome :=
  (postorder_perm [] tree).mem_iff.trans mem_addresses_nil

theorem suffix_of_mem_postorder (h : a ∈ n.postorder here) : here <:+ a := by
  obtain ⟨x, rfl, -⟩ := mem_addresses.mp ((postorder_perm here n).mem_iff.mp h)
  exact List.suffix_append x here

/-- No node comes before one at or below it. -/
theorem pairwise_postorder (here : Address) (n : Node) : (n.postorder here).Pairwise fun a b => ¬a <:+ b := by
  induction n using children_induction generalizing here with
  | step n ih =>
    obtain ⟨ts, cs⟩ := n
    rw [postorder, postorderAmong_eq, List.pairwise_append, List.pairwise_flatMap]
    refine ⟨⟨fun c hc => ih c.1 (List.fst_mem_of_mem_zipIdx hc) _, ?_⟩, List.pairwise_singleton _ _, ?_⟩
    · have hindices : (cs.zipIdx.map Prod.snd).Nodup := by
        rw [List.zipIdx_map_snd]
        exact List.nodup_range'
      refine (List.pairwise_map.mp hindices).imp fun hne a ha b hb hab => ?_
      -- The way up from `b` would lead through two children of one node.
      have hsame := List.suffix_of_suffix_length_le ((suffix_of_mem_postorder ha).trans hab)
        (suffix_of_mem_postorder hb) (Nat.le_refl _)
      exact hne (List.cons.inj (hsame.eq_of_length rfl)).1
    · intro a ha b hb hab
      obtain ⟨c, -, ha⟩ := List.mem_flatMap.mp ha
      obtain rfl := List.mem_singleton.mp hb
      exact absurd ((suffix_of_mem_postorder ha).trans hab).length_le (Nat.not_succ_le_self _)

theorem nodup_postorder (here : Address) (n : Node) : (n.postorder here).Nodup := by
  refine (pairwise_postorder here n).imp fun h heq => ?_
  subst heq
  exact h (List.suffix_refl _)

theorem nodup_addresses (here : Address) : (n.addresses here).Nodup :=
  (postorder_perm here n).nodup_iff.mp (nodup_postorder here n)

/-! ### The walk -/

/-- The node at an address is an element, and its own tokens reach over the place; both ends count. -/
def Covers (tree : Node) (pos : Nat) (a : Address) : Prop :=
  a ≠ [] ∧ ∃ n, tree.at? a = some n ∧ n.span.start ≤ pos ∧ pos ≤ n.span.stop

theorem covers_iff (hn : tree.at? a = some n) : tree.Covers pos a ↔ a ≠ [] ∧ n.span.contains pos = true := by
  simp [Covers, Span.contains, hn]

theorem Covers.mem_postorder (h : tree.Covers pos a) : a ∈ tree.postorder [] := by
  obtain ⟨-, n, hn, -⟩ := h
  exact Node.mem_postorder.mpr (by rw [hn]; rfl)

instance (tree : Node) (pos : Nat) (a : Address) : Decidable (tree.Covers pos a) :=
  decidable_of_iff (a ≠ [] ∧ (tree.at? a).any (·.span.contains pos) = true) <| by
    simp [Covers, Span.contains, Option.any_eq_true]

/-- A node of the tree, with the children that are still to be searched. -/
def Visit.Of (tree : Node) (v : Visit) : Prop :=
  tree.at? v.address = some v.node ∧ v.rest = v.node.children.drop v.index

/-- To enter the next child leads from nodes of the tree to nodes of the tree. -/
theorem Visit.Of.enter {n c : Node} {i : Nat} {cs : List Node} (h : (⟨n, b, i, c :: cs⟩ : Visit).Of tree) :
    (Visit.enter (i :: b) c).Of tree ∧ (⟨n, b, i + 1, cs⟩ : Visit).Of tree := by
  obtain ⟨hn, hrest⟩ := h
  have hc : n.children[i]? = some c := by
    rw [← Nat.add_zero i, ← List.getElem?_drop, ← hrest]
    rfl
  have hcs : cs = n.children.drop (i + 1) := by
    rw [← List.tail_drop, ← hrest]
    rfl
  refine ⟨⟨?_, rfl⟩, hn, hcs⟩
  show tree.at? (i :: b) = some c
  rw [at?, hn]
  exact hc

/-- What the walk still has to meet at an open node. -/
def Visit.pending (v : Visit) : List Address := postorderAmong v.address v.index v.rest ++ [v.address]

theorem Visit.pending_enter (a : Address) (n : Node) : (Visit.enter a n).pending = n.postorder a := by
  obtain ⟨ts, cs⟩ := n
  rfl

theorem Visit.pending_last (n : Node) (a : Address) (i : Nat) : (⟨n, a, i, []⟩ : Visit).pending = [a] := rfl

/-- At every point the walk looks for the first address that covers the place among all that are still to come. -/
theorem walk_eq_find? {visits : List Visit} (hvisits : ∀ v ∈ visits, v.Of tree) :
    walk pos visits = (visits.flatMap Visit.pending).find? fun a => tree.Covers pos a := by
  fun_induction walk pos visits with
  | case1 => rfl
  | case2 n b i c cs outer ih =>
    obtain ⟨hvisit, houter⟩ := List.forall_mem_cons.mp hvisits
    obtain ⟨hchild, hparent⟩ := hvisit.enter
    rw [ih (List.forall_mem_cons.mpr ⟨hchild, List.forall_mem_cons.mpr ⟨hparent, houter⟩⟩)]
    simp only [List.flatMap_cons, Visit.pending_enter]
    simp only [Visit.pending, postorderAmong, List.append_assoc]
  | case3 n b i outer hfound =>
    have hcovers : tree.Covers pos b := (covers_iff (hvisits _ List.mem_cons_self).1).mpr hfound
    rw [List.flatMap_cons, Visit.pending_last, List.singleton_append, List.find?_cons_of_pos (by simpa using hcovers)]
  | case4 n b i outer hother ih =>
    obtain ⟨hvisit, houter⟩ := List.forall_mem_cons.mp hvisits
    have hcovers : ¬tree.Covers pos b := fun h => hother ((covers_iff hvisit.1).mp h)
    rw [ih houter, List.flatMap_cons, Visit.pending_last, List.singleton_append,
      List.find?_cons_of_neg (by simpa using hcovers)]

theorem locate?_eq_find? (tree : Node) (pos : Nat) :
    tree.locate? pos = (tree.postorder []).find? fun a => tree.Covers pos a := by
  have hvisits : ∀ v ∈ [Visit.enter [] tree], v.Of tree := by
    intro v hv
    obtain rfl := List.mem_singleton.mp hv
    exact ⟨rfl, rfl⟩
  rw [locate?, walk_eq_find? hvisits, List.flatMap_singleton, Visit.pending_enter]

theorem covers_of_locate? (h : tree.locate? pos = some a) : tree.Covers pos a := by
  rw [locate?_eq_find?] at h
  simpa using List.find?_some h

/-- What is found at a place is an element whose own tokens reach over it. -/
theorem locate?_eq_some (h : tree.locate? pos = some a) :
    a ≠ [] ∧ ∃ n, tree.at? a = some n ∧ n.span.contains pos = true := by
  have hcovers := covers_of_locate? h
  obtain ⟨n, hn, -⟩ := hcovers.2
  obtain ⟨hne, hcontains⟩ := (covers_iff hn).mp hcovers
  exact ⟨hne, n, hn, hcontains⟩

theorem locate?_eq_none_iff : tree.locate? pos = none ↔ ∀ a, ¬tree.Covers pos a := by
  rw [locate?_eq_find?, List.find?_eq_none]
  constructor
  · intro h a ha
    exact h a ha.mem_postorder (decide_eq_true ha)
  · intro h a _
    simpa using h a

/-- Nothing below the element that is found covers the place: the walk would have met it before. -/
theorem not_covers_below (h : tree.locate? pos = some a) (hb : a.Above b) : ¬tree.Covers pos b := by
  intro hcovers
  rw [locate?_eq_find?, List.find?_eq_some_iff_append] at h
  obtain ⟨-, before, after, horder, hbefore⟩ := h
  have hmem := hcovers.mem_postorder
  have hpairs := pairwise_postorder [] tree
  rw [horder] at hmem hpairs
  rcases List.mem_append.mp hmem with hmem | hmem
  · simpa [hcovers] using hbefore b hmem
  · rcases List.mem_cons.mp hmem with rfl | hmem
    · exact hb.2 rfl
    · exact (List.pairwise_cons.mp (List.pairwise_append.mp hpairs).2.1).1 b hmem hb.1

/-- However tokens are classified and placed, the element at a place in their tree is the first one in post-order that
    covers the place. The post-order names every node once. There is no element at a place that none covers, and none
    below the one that is found covers the place. -/
theorem locate?_first_in_postorder (ts : List Token) (pos : Nat) :
    let tree := Node.ofTokens ts
    let order := tree.postorder []
    (order.Nodup ∧ ∀ a, a ∈ order ↔ (tree.at? a).isSome) ∧
    (tree.locate? pos = order.find? fun a => tree.Covers pos a) ∧
    (tree.locate? pos = none ↔ ∀ a, ¬tree.Covers pos a) ∧
    ∀ a, tree.locate? pos = some a → tree.Covers pos a ∧ ∀ b, a.Above b → ¬tree.Covers pos b := by
  intro tree order
  refine ⟨⟨nodup_postorder [] tree, fun a => mem_postorder⟩, locate?_eq_find? tree pos, locate?_eq_none_iff, ?_⟩
  exact fun a ha => ⟨covers_of_locate? ha, fun b hb => not_covers_below ha hb⟩

/-- A bracket and an operator below it both reach over the place, and the operands of the operator do not. The operator
    comes first. -/
theorem locate?_first_in_postorder_of_wide_bracket :
    let tree := Node.ofTokens [⟨['('], 0, .opener, ⟨0, 9⟩⟩, ⟨['a'], 32, .atom, ⟨7, 2⟩⟩, ⟨['+'], 12, .operator, ⟨0, 5⟩⟩,
      ⟨['b'], 32, .atom, ⟨3, 4⟩⟩]
    tree.postorder [] = [[0, 0, 0], [1, 0, 0], [0, 0], [0], []] ∧ tree.Covers 5 [0] ∧
      tree.locate? 5 = some [0, 0] ∧ ¬tree.Covers 5 [1, 0, 0] := by
  intro tree
  obtain ⟨-, hfirst, -, hbelow⟩ := locate?_first_in_postorder [⟨['('], 0, .opener, ⟨0, 9⟩⟩, ⟨['a'], 32, .atom, ⟨7, 2⟩⟩,
    ⟨['+'], 12, .operator, ⟨0, 5⟩⟩, ⟨['b'], 32, .atom, ⟨3, 4⟩⟩] 5
  have hfound : tree.locate? 5 = some [0, 0] := hfirst.trans (by decide +kernel)
  exact ⟨by decide +kernel, by decide +kernel, hfound,
    (hbelow _ hfound).2 [1, 0, 0] ⟨List.suffix_cons 1 [0, 0], by decide⟩⟩

end Node
end SiblingSwap
