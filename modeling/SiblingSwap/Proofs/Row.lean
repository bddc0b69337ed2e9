import Mathlib.Data.List.Induction
import SiblingSwap.Proofs.Address
import SiblingSwap.Swap.Resolve

/-! Rows: words with operators of one priority between them. The tree of a row leans to the left, so the words up to
    any place make a row of their own, which is reached by going down first children only. A place in the last word of
    such a row is found there, and its neighbours are the words on both sides of it. -/

namespace SiblingSwap
namespace Node

/-- The row of some words, each with the operator after it, and a last word. -/
def row (items : List (Token × Token)) : Token → Node :=
  items.foldl (fun left item last => ⟨[item.2], [left item.1, .leaf last]⟩) .leaf

@[simp]
theorem row_nil (t : Token) : row [] t = .leaf t := rfl

@[simp]
theorem row_concat (items : List (Token × Token)) (t op u : Token) :
    row (items ++ [(t, op)]) u = ⟨[op], [row items t, .leaf u]⟩ := by
  simp [row]

section
variable (t : Token) (cs : List Node)

@[simp]
theorem span_single : (⟨[t], cs⟩ : Node).span = t.span := rfl

@[simp]
theorem role_single : (⟨[t], cs⟩ : Node).role = t.role := rfl

@[simp]
theorem priority_single : (⟨[t], cs⟩ : Node).priority = t.priority := rfl

end

/-! ### Finding a word -/

section
variable {pos : Nat} {a : Address} {outer : List Visit}

theorem walk_of_not_contains {n : Node} {i : Nat} (h : n.span.contains pos = false) :
    walk pos (⟨n, a, i, []⟩ :: outer) = walk pos outer := by
  rw [walk, if_neg (by simp [h])]

theorem walk_of_contains {n : Node} {i : Nat} (ha : a ≠ []) (h : n.span.contains pos = true) :
    walk pos (⟨n, a, i, []⟩ :: outer) = some a := by
  rw [walk, if_pos ⟨ha, h⟩]

theorem walk_row_of_lt {items : List (Token × Token)} {t : Token}
    (hitems : ∀ x ∈ items, x.1.span.stop < pos ∧ x.2.span.stop < pos) (ht : t.span.stop < pos) :
    walk pos (.enter a (row items t) :: outer) = walk pos outer := by
  have hleaf : ∀ u : Token, u.span.stop < pos → ∀ cs, (⟨[u], cs⟩ : Node).span.contains pos = false := by
    intro u hu cs
    rw [span_single]
    simp [Span.contains, hu]
  induction items using List.reverseRecOn generalizing t a outer with
  | nil => exact walk_of_not_contains (hleaf t ht [])
  | append_singleton items x ih =>
    obtain ⟨u, op⟩ := x
    obtain ⟨hu, hop⟩ := hitems (u, op) (by simp)
    rw [row_concat, Visit.enter, walk, ih (fun y hy => hitems y (by simp [hy])) hu, walk, Visit.enter, leaf,
      walk_of_not_contains (hleaf t ht []), walk_of_not_contains (hleaf op hop _)]

/-- The walk first goes down along the first children. -/
theorem exists_walk_eq (pos : Nat) (a : Address) (outer : List Visit) {n m : Node} {k : Nat}
    (h : n.at? (List.replicate k 0) = some m) :
    ∃ outer', walk pos (.enter a n :: outer) = walk pos (.enter (List.replicate k 0 ++ a) m :: outer') := by
  induction k generalizing m with
  | zero =>
    obtain rfl : n = m := by simpa [at?] using h
    exact ⟨outer, rfl⟩
  | succ k ih =>
    rw [List.replicate_succ, at?, Option.bind_eq_some_iff] at h
    obtain ⟨⟨ts, cs⟩, hp, hm⟩ := h
    obtain ⟨outer', hwalk⟩ := ih hp
    obtain ⟨cs, rfl⟩ : ∃ cs', cs = m :: cs' := by
      cases cs with
      | nil => simp at hm
      | cons c cs => exact ⟨cs, by simpa using hm⟩
    exact ⟨_, by rw [hwalk, Visit.enter, walk]; rfl⟩

end

/-- Where the last word of a row is, when the row is at an address. -/
def lastWord (items : List (Token × Token)) (a : Address) : Address := if items.isEmpty then a else 1 :: a

@[simp]
theorem lastWord_nil (a : Address) : lastWord [] a = a := rfl

@[simp]
theorem lastWord_concat (items : List (Token × Token)) (x : Token × Token) (a : Address) :
    lastWord (items ++ [x]) a = 1 :: a := by
  simp [lastWord]

section
variable {tree : Node} {items : List (Token × Token)} {t : Token} {a : Address} {pos : Nat}

theorem at?_lastWord (h : tree.at? a = some (row items t)) : tree.at? (lastWord items a) = some (.leaf t) := by
  rcases List.eq_nil_or_concat' items with rfl | ⟨items, x, rfl⟩
  · exact h
  · rw [lastWord_concat, at?, h, row_concat]
    rfl

theorem locate?_lastWord {k : Nat} (h : tree.at? (List.replicate (k + 1) 0) = some (row items t))
    (hitems : ∀ x ∈ items, x.1.span.stop < pos ∧ x.2.span.stop < pos) (ht : t.span.contains pos = true) :
    tree.locate? pos = some (lastWord items (List.replicate (k + 1) 0)) := by
  obtain ⟨outer, hwalk⟩ := exists_walk_eq pos [] [] h
  have hspan : (leaf t).span.contains pos = true := ht
  rw [locate?, hwalk, List.append_nil]
  rcases List.eq_nil_or_concat' items with rfl | ⟨items, ⟨v, op⟩, rfl⟩
  · exact walk_of_contains (by simp [List.replicate_succ]) hspan
  · obtain ⟨hv, -⟩ := hitems (v, op) (by simp)
    rw [row_concat, Visit.enter, walk, walk_row_of_lt (fun y hy => hitems y (by simp [hy])) hv, walk, lastWord_concat]
    exact walk_of_contains (by simp) hspan

end

/-! ### Neighbours on both sides of an operator -/

section
variable {tree left right : Node} {op : Token} {a : Address} (h : tree.at? a = some ⟨[op], [left, right]⟩)
include h

theorem at?_left : tree.at? (0 :: a) = some left := by
  rw [at?, h]
  rfl

theorem at?_right : tree.at? (1 :: a) = some right := by
  rw [at?, h]
  rfl

theorem next?_left : tree.next? (0 :: a) = some (1 :: a) := by
  simp [next?, at?_right h]

theorem next?_right : tree.next? (1 :: a) = none := by
  simp [next?, at?, h]

theorem rightNeighbors_left : tree.rightNeighbors (0 :: a) = ⟨some (0 :: a), some (1 :: a)⟩ := by
  rw [rightNeighbors, rightFrom, next?_left h]
  rfl

theorem leftNeighbors_right (hne : left.priority ≠ op.priority) :
    tree.leftNeighbors (1 :: a) = ⟨some (0 :: a), some (1 :: a)⟩ := by
  have hprev : tree.prev? (1 :: a) = some (0 :: a) := by simp [prev?, at?_left h]
  rw [leftNeighbors, hprev]
  simp [h, at?_left h, hne]

end

section
variable {tree x y right : Node} {op op' : Token} {a : Address}
  (h : tree.at? a = some ⟨[op], [⟨[op'], [x, y]⟩, right]⟩) (hpriority : op'.priority = op.priority)
include h hpriority

/-- The link below is part of the same chain, so its last element is kept while the climb goes on from there. -/
theorem rightNeighbors_left_of_link (hop : op'.role = .operator) :
    tree.rightNeighbors (1 :: 0 :: a) = ⟨some (1 :: 0 :: a), some (1 :: a)⟩ := by
  have hlink : tree.isChainLink (0 :: a) = true := by
    simp [isChainLink, at?_left h, h, hop, hpriority]
  rw [rightNeighbors, rightFrom, next?_right (at?_left h), hlink]
  simp [rightFrom, next?_left h]

theorem leftNeighbors_right_of_link (hop : op.role = .operator) :
    tree.leftNeighbors (1 :: a) = ⟨some (1 :: 0 :: a), some (1 :: a)⟩ := by
  have hprev : tree.prev? (1 :: a) = some (0 :: a) := by simp [prev?, at?_left h]
  rw [leftNeighbors, hprev]
  simp [h, at?_left h, hop, hpriority, lastChild?]

end

section
variable {tree : Node} {items : List (Token × Token)} {t op u : Token} {a : Address}
  (h : tree.at? a = some ⟨[op], [row items t, .leaf u]⟩)
include h

theorem rightNeighbors_lastWord (hitems : ∀ x ∈ items, x.2.role = .operator ∧ x.2.priority = op.priority) :
    tree.rightNeighbors (lastWord items (0 :: a)) = ⟨some (lastWord items (0 :: a)), some (1 :: a)⟩ := by
  rcases List.eq_nil_or_concat' items with rfl | ⟨items, ⟨v, op'⟩, rfl⟩
  · exact rightNeighbors_left h
  · obtain ⟨hrole, hpriority⟩ := hitems (v, op') (by simp)
    rw [row_concat] at h
    rw [lastWord_concat]
    exact rightNeighbors_left_of_link h hpriority hrole

theorem leftNeighbors_row_right (hop : op.role = .operator) (ht : t.priority ≠ op.priority)
    (hitems : ∀ x ∈ items, x.2.priority = op.priority) :
    tree.leftNeighbors (1 :: a) = ⟨some (lastWord items (0 :: a)), some (1 :: a)⟩ := by
  rcases List.eq_nil_or_concat' items with rfl | ⟨items, ⟨v, op'⟩, rfl⟩
  · exact leftNeighbors_right h ht
  · rw [row_concat] at h
    rw [lastWord_concat]
    exact leftNeighbors_right_of_link h (hitems (v, op') (by simp)) hop

end

/-! ### What to swap -/

section
variable {tree : Node} {items : List (Token × Token)} {t op u : Token} {pos k : Nat} {priority : Int}

theorem bound_leaf (t : Token) : (leaf t).bound = t.span := by
  simp [bound, leaf, leftEdge, rightEdge, rightEdgeAmong]

theorem elementPair_leaf (ht : t.role = .atom) (hu : u.role = .atom) :
    elementPair (.leaf t) (.leaf u) = .ok ⟨t.span, u.span⟩ := by
  simp [elementPair, leaf, ht, hu, ← bound_leaf]

theorem pairAt_of_neighbors {d : Direction} {target left right : Address} (hlocate : tree.locate? pos = some target)
    (hneighbors : tree.neighbors target d = ⟨some left, some right⟩) (hleft : tree.at? left = some (.leaf t))
    (hright : tree.at? right = some (.leaf u)) (ht : t.role = .atom) (hu : u.role = .atom) :
    tree.pairAt pos d = .ok ⟨t.span, u.span⟩ := by
  simp [pairAt, hlocate, hneighbors, hleft, hright, elementPair_leaf ht hu]

theorem pairAt_eq_noNeighbor {d : Direction} {target : Address} (hlocate : tree.locate? pos = some target)
    (hdeep : 2 ≤ target.length)
    (hnone : (tree.neighbors target d).left = none ∨ (tree.neighbors target d).right = none) :
    tree.pairAt pos d = .error .noNeighbor := by
  obtain ⟨i, j, up, rfl⟩ : ∃ i j up, target = i :: j :: up := by
    match target, hdeep with
    | i :: j :: up, _ => exact ⟨i, j, up, rfl⟩
  simp only [pairAt, hlocate]
  split
  · next hleft hright => rcases hnone with hnone | hnone <;> simp [hnone] at hleft hright
  · rfl

theorem pairAt_forward_row (h : tree.at? (List.replicate (k + 1) 0) = some (row (items ++ [(t, op)]) u))
    (hitems : ∀ x ∈ items, x.1.span.stop < pos ∧ x.2.span.stop < pos) (hpos : t.span.contains pos = true)
    (hops : ∀ x ∈ items ++ [(t, op)], x.2.role = .operator ∧ x.2.priority = priority)
    (ht : t.role = .atom) (hu : u.role = .atom) : tree.pairAt pos .forward = .ok ⟨t.span, u.span⟩ := by
  rw [row_concat] at h
  have hleft : tree.at? (List.replicate (k + 1 + 1) 0) = some (row items t) := at?_left h
  have hchain : ∀ x ∈ items, x.2.role = .operator ∧ x.2.priority = op.priority := fun x hx => by
    rw [(hops (t, op) (by simp)).2]
    exact hops x (by simp [hx])
  exact pairAt_of_neighbors (locate?_lastWord hleft hitems hpos) (rightNeighbors_lastWord h hchain)
    (at?_lastWord hleft) (at?_right h) ht hu

theorem pairAt_backward_row (h : tree.at? (List.replicate (k + 1) 0) = some (row (items ++ [(t, op)]) u))
    (hitems : ∀ x ∈ items ++ [(t, op)], x.1.span.stop < pos ∧ x.2.span.stop < pos)
    (hpos : u.span.contains pos = true)
    (hops : ∀ x ∈ items ++ [(t, op)], x.2.role = .operator ∧ x.2.priority = priority)
    (ht : t.role = .atom) (hpriority : t.priority ≠ priority) (hu : u.role = .atom) :
    tree.pairAt pos .backward = .ok ⟨t.span, u.span⟩ := by
  have hlocate := locate?_lastWord h hitems hpos
  rw [lastWord_concat] at hlocate
  rw [row_concat] at h
  obtain ⟨hrole, hp⟩ : op.role = .operator ∧ op.priority = priority := hops (t, op) (by simp)
  have hchain : ∀ x ∈ items, x.2.priority = op.priority := fun x hx => by
    rw [hp]
    exact (hops x (by simp [hx])).2
  exact pairAt_of_neighbors hlocate (leftNeighbors_row_right h hrole (by rwa [hp]) hchain)
    (at?_lastWord (at?_left h)) (at?_right h) ht hu

theorem pairAt_forward_end {ts gs : List Token}
    (hitems : ∀ x ∈ items, x.1.span.stop < pos ∧ x.2.span.stop < pos) (hpos : t.span.contains pos = true) :
    (⟨ts, [⟨gs, [row items t]⟩]⟩ : Node).pairAt pos .forward = .error .noNeighbor := by
  let tree : Node := ⟨ts, [⟨gs, [row items t]⟩]⟩
  have hrow : tree.at? [0, 0] = some (row items t) := rfl
  have hlocate : tree.locate? pos = some (lastWord items [0, 0]) := locate?_lastWord (k := 1) hrow hitems hpos
  have hclimb : ∀ kept, (tree.rightFrom kept [0, 0]).right = none := fun kept => rfl
  have hright : (tree.rightNeighbors (lastWord items [0, 0])).right = none := by
    rcases List.eq_nil_or_concat' items with rfl | ⟨items, ⟨v, op⟩, rfl⟩
    · exact hclimb none
    · rw [row_concat] at hrow
      rw [lastWord_concat, rightNeighbors, rightFrom, next?_right hrow]
      exact hclimb _
  refine pairAt_eq_noNeighbor hlocate ?_ (Or.inr hright)
  unfold lastWord
  split <;> simp

theorem leftNeighbors_replicate (k : Nat) : tree.leftNeighbors (List.replicate k 0) = ⟨none, some []⟩ := by
  induction k with
  | zero => rfl
  | succ k ih => exact ih

theorem pairAt_backward_start (h : tree.at? (List.replicate (k + 2) 0) = some (row [] t))
    (hpos : t.span.contains pos = true) : tree.pairAt pos .backward = .error .noNeighbor := by
  have hlocate : tree.locate? pos = some (List.replicate (k + 2) 0) := locate?_lastWord h (by simp) hpos
  refine pairAt_eq_noNeighbor hlocate (by simp) (Or.inl ?_)
  rw [neighbors, leftNeighbors_replicate]

end
end Node
end SiblingSwap
