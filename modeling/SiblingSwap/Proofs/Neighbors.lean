import SiblingSwap.Proofs.Leaning
import SiblingSwap.Proofs.Traversal

/-! Neighbours in both directions. The climb to the left replaces a neighbour by its last child where the neighbour
    binds like the operator above it. The climb to the right keeps the last child of an operator that binds like its
    parent. The tiers make the two tests one: nothing but an operator binds like an operator. The climb to the right
    remembers one node on its way up, the lowest that is kept; this is all that a recursion over the parents would bring
    back down. -/

namespace SiblingSwap
namespace Node
variable {tree n parent : Node} {a l : Address} {i : Nat}

/-! ### Both directions -/

theorem next?_lastChild? (h : tree.lastChild? a = some l) : tree.next? l = none := by
  unfold lastChild? at h
  split at h
  · next ts c cs ha =>
    obtain rfl := Option.some.inj h
    simp [next?, at?, ha]
  · cases h

/-- A child that binds like the operator above it is a link of the operator's chain. -/
theorem isChainLink_of_priority_eq (hn : tree.at? (i :: a) = some n) (hparent : tree.at? a = some parent)
    (hclassified : n.Classified ∧ parent.Classified) (hrole : parent.role = .operator)
    (hpriority : n.priority = parent.priority) : tree.isChainLink (i :: a) = true := by
  have hoperator : n.role = .operator := by
    by_contra hne
    exact hclassified.1.priority_ne hclassified.2 hne hrole hpriority
  simp [isChainLink, hn, hparent, hoperator, hpriority]

/-- Where a link of a chain has a next sibling, its last element has that one as its right neighbour. -/
theorem rightNeighbors_of_lastChild? (hlink : tree.isChainLink (i :: a) = true)
    (hlast : tree.lastChild? (i :: a) = some l) (hnext : tree.next? (i :: a) = some ((i + 1) :: a)) :
    tree.rightNeighbors l = ⟨some l, some ((i + 1) :: a)⟩ := by
  have hend := next?_lastChild? hlast
  obtain ⟨j, rfl⟩ := lastChild?_eq_some hlast
  simp [rightNeighbors, rightFrom, hend, hlink, hnext]

/-- Two neighbours that are found to the left from any element are found to the right from the left one of them. -/
theorem rightNeighbors_of_leftNeighbors {ts : List Token} (hts : ∀ t ∈ ts, t.Classified) {r : Address}
    (ha : a ∈ (Node.ofTokens ts).addresses []) (h : (Node.ofTokens ts).leftNeighbors a = ⟨some l, some r⟩) :
    (Node.ofTokens ts).rightNeighbors l = ⟨some l, some r⟩ := by
  rw [Node.ofTokens_eq hts] at ha h ⊢
  obtain ⟨i, up, n, parent, rfl, hsuffix, hn, hparent, hleft⟩ := leftNeighbors_cases h
  have hnext : (Spine.ofTokens ts).tree.next? (i :: up) = some ((i + 1) :: up) :=
    if_pos (isSome_at?_of_suffix hsuffix (mem_addresses_nil.mp ha))
  rcases hleft with rfl | ⟨hrole, hpriority, hlast⟩
  · simp [rightNeighbors, rightFrom, hnext]
  · have hclassified := And.intro (classified_of_at? hts hn) (classified_of_at? hts hparent)
    exact rightNeighbors_of_lastChild? (isChainLink_of_priority_eq hn hparent hclassified hrole hpriority) hlast hnext

/-- In `a, b, c * d` the climb from `c` leaves the product and finds `b` at the end of the inner comma; from `b` the
    climb to the right leaves that comma and finds the product. -/
theorem rightNeighbors_of_leftNeighbors_of_list :
    let ts : List Token := [.ofLexeme ['a'] ⟨0, 1⟩, .ofLexeme [','] ⟨1, 2⟩, .ofLexeme ['b'] ⟨3, 4⟩,
      .ofLexeme [','] ⟨4, 5⟩, .ofLexeme ['c'] ⟨6, 7⟩, .ofLexeme ['*'] ⟨8, 9⟩, .ofLexeme ['d'] ⟨10, 11⟩]
    (Node.ofTokens ts).leftNeighbors [0, 1, 0] = ⟨some [1, 0, 0], some [1, 0]⟩ ∧
      (Node.ofTokens ts).rightNeighbors [1, 0, 0] = ⟨some [1, 0, 0], some [1, 0]⟩ := by
  intro ts
  have hleft : (Node.ofTokens ts).leftNeighbors [0, 1, 0] = ⟨some [1, 0, 0], some [1, 0]⟩ := by decide +kernel
  exact ⟨hleft, rightNeighbors_of_leftNeighbors (by decide) (by decide +kernel) hleft⟩

/-! ### The climb to the right as a recursion -/

/-- The node at an address has a parent, is an operator and binds like its parent. -/
def ContinuesChain (tree : Node) (a : Address) : Prop :=
  ∃ i up n parent, a = i :: up ∧ tree.at? a = some n ∧ tree.at? up = some parent ∧
    n.role = .operator ∧ n.priority = parent.priority

theorem isChainLink_iff : tree.isChainLink a = true ↔ tree.ContinuesChain a := by
  cases a with
  | nil => simp [isChainLink, ContinuesChain]
  | cons i up => simp [isChainLink_cons_iff, ContinuesChain]

instance (tree : Node) (a : Address) : Decidable (tree.ContinuesChain a) := decidable_of_iff _ isChainLink_iff

/-- The neighbours to the right by way of the parent. A node without a next sibling has the right neighbour that its
    parent has. Below an operator that continues a chain the node itself stands to the left of it, and else what stands
    there for the parent. -/
def rightByParent (tree : Node) : Address → Neighbors
  | [] => ⟨some [], none⟩
  | i :: up =>
    if (tree.at? ((i + 1) :: up)).isSome then ⟨some (i :: up), some ((i + 1) :: up)⟩
    else if tree.ContinuesChain up then ⟨some (i :: up), (rightByParent tree up).right⟩
    else rightByParent tree up

/-- A node that is kept on the way takes the place of whatever the rest of the way would put on the left. -/
theorem rightFrom_eq (kept : Option Address) (a : Address) :
    tree.rightFrom kept a = ⟨kept <|> (tree.rightByParent a).left, (tree.rightByParent a).right⟩ := by
  induction a generalizing kept with
  | nil => cases kept <;> rfl
  | cons i up ih =>
    rw [rightFrom, rightByParent, next?]
    by_cases hnext : (tree.at? ((i + 1) :: up)).isSome
    · rw [if_pos hnext, if_pos hnext]
      cases kept <;> rfl
    · rw [if_neg hnext, if_neg hnext, ih]
      by_cases hlink : tree.ContinuesChain up
      · rw [if_pos hlink, if_pos (isChainLink_iff.mpr hlink)]
        cases kept <;> rfl
      · rw [if_neg hlink, if_neg fun h => hlink (isChainLink_iff.mp h)]
        cases kept <;> rfl

/-- However tokens are classified and placed, the climb from any node of their tree gives the neighbours that the
    recursion over its parents gives. -/
theorem rightNeighbors_eq_recursion (ts : List Token) (a : Address) :
    (Node.ofTokens ts).rightNeighbors a = (Node.ofTokens ts).rightByParent a :=
  rightFrom_eq none a

end Node
end SiblingSwap
