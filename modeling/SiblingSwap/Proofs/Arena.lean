import SiblingSwap.Tree.Arena
import SiblingSwap.Proofs.Address

/-! Links between nodes that are known by their ids. Each id is given an address, and a node has to be linked as its
    address tells: to the parent whose address is the rest of its own, and to those below it whose addresses begin with
    their index (`Linked`). A node that is taken off its parent and put below another changes its address and those of
    all below it, while of all that is stored only its own link and the two lists of children change. -/

namespace SiblingSwap

/-! ### Addresses of adopted nodes -/

namespace Address
variable {slot a b up : Address} {i k : Nat}

theorem adopted_self (slot : Address) : adopted slot slot = 0 :: slot := adopted_append [] slot

theorem adopted_parent (i : Nat) (up : Address) : adopted (i :: up) up = up :=
  adopted_of_length_lt (Nat.lt_succ_self _)

/-- A node that is not adopted itself keeps its index. -/
theorem adopted_cons (h : i :: up ≠ slot) : adopted slot (i :: up) = i :: adopted slot up := by
  by_cases hup : slot <:+ up
  · obtain ⟨x, rfl⟩ := hup
    rw [adopted_append, ← List.cons_append, adopted_append]
    rfl
  · have hcons : ¬slot <:+ i :: up := by
      intro hs
      rcases List.suffix_cons_iff.mp hs with heq | hs
      · exact h heq.symm
      · exact hup hs
    rw [adopted_of_not_suffix hcons, adopted_of_not_suffix hup]

theorem adopted_inj (h : adopted slot a = adopted slot b) : a = b :=
  eq_of_suffix_iff (fun _ _ => adopted_suffix_iff) h

/-- Below a parent there is the adopted node, if the parent is the newcomer, or else a node that was there before. -/
theorem adopted_eq_cons (h : adopted (i :: up) b = k :: a) :
    b = i :: up ∧ k = 0 ∧ a = i :: up ∨ b ≠ i :: up ∧ ∃ c, b = k :: c ∧ a = adopted (i :: up) c := by
  by_cases hb : b = i :: up
  · rw [hb, adopted_self] at h
    obtain ⟨rfl, rfl⟩ := List.cons.inj h
    exact Or.inl ⟨hb, rfl, rfl⟩
  · cases b with
    | nil =>
      rw [adopted_of_length_lt (by simp)] at h
      cases h
    | cons j c =>
      rw [adopted_cons hb] at h
      obtain ⟨rfl, rfl⟩ := List.cons.inj h
      exact Or.inr ⟨hb, c, rfl, rfl⟩

/-- The children of a node stay its children, at their old indices, unless one of them is adopted. -/
theorem adopted_eq_cons_iff (h : k :: a ≠ i :: up) :
    adopted (i :: up) b = k :: adopted (i :: up) a ↔ b = k :: a := by
  constructor
  · intro heq
    rcases adopted_eq_cons heq with ⟨-, -, hslot⟩ | ⟨-, c, rfl, hc⟩
    · exact absurd hslot adopted_ne
    · rw [adopted_inj hc]
  · rintro rfl
    exact adopted_cons h

/-- The one child of the newcomer is the node it has adopted. -/
theorem adopted_eq_cons_slot_iff : adopted (i :: up) a = k :: i :: up ↔ a = i :: up ∧ k = 0 := by
  constructor
  · intro heq
    rcases adopted_eq_cons heq with ⟨ha, hk, -⟩ | ⟨-, c, -, hc⟩
    · exact ⟨ha, hk⟩
    · exact absurd hc.symm adopted_ne
  · rintro ⟨rfl, rfl⟩
    exact adopted_self _

end Address

namespace Arena
variable {A : Arena} {name : Nat → Address} {c : Cell} {f : Cell → Cell} {i j parent child : Nat}

/-! ### What a write changes -/

@[simp]
theorem size_modify : (A.modify i f).size = A.size := Array.size_modify ..

@[simp]
theorem size_alloc : (A.alloc c).size = A.size + 1 := Array.size_push ..

@[simp]
theorem size_add : (A.add parent child).size = A.size := by simp [add]

theorem size_pop (A : Arena) (parent : Nat) : (A.pop parent).1.size = A.size := by
  rw [pop]
  split <;> simp

@[simp]
theorem size_insert : (A.insert parent child).size = A.size := by
  have hpop := A.size_pop parent
  rw [insert]
  split <;> simp_all

@[simp]
theorem size_merge : (A.merge i c).size = A.size := size_modify

theorem cell_modify (hi : i < A.size) (j : Nat) :
    (A.modify i f).cell j = if j = i then f (A.cell i) else A.cell j := by
  simp only [cell, modify, Array.getD_eq_getD_getElem?, Array.getElem?_modify]
  by_cases hj : j = i
  · have hget : A.cells[i]? = some A.cells[i] := Array.getElem?_eq_getElem hi
    simp [hj, hget]
  · simp [hj, Ne.symm hj]

theorem cell_alloc (j : Nat) : (A.alloc c).cell j = if j = A.size then c else A.cell j := by
  simp only [cell, alloc, size, Array.getD_eq_getD_getElem?, Array.getElem?_push]
  split <;> rfl

theorem cell_add (hp : parent < A.size) (hc : child < A.size) (hne : child ≠ parent) (j : Nat) :
    (A.add parent child).cell j =
      if j = child then { A.cell child with parent := some parent, index := (A.cell parent).children.length }
      else if j = parent then { A.cell parent with children := (A.cell parent).children ++ [child] }
      else A.cell j := by
  rw [add, cell_modify (by simpa using hc), cell_modify hp, cell_modify hp, if_neg hne]

/-- A node without its last child, which has no parent and its old index. -/
theorem cell_pop (hp : parent < A.size) (hlast : (A.cell parent).children.getLast? = some child)
    (hc : child < A.size) (hne : child ≠ parent) :
    ∃ B : Arena, A.pop parent = (B, some child) ∧ B.size = A.size ∧ ∀ j, B.cell j =
      if j = parent then { A.cell parent with children := (A.cell parent).children.dropLast }
      else if j = child then { A.cell child with parent := none }
      else A.cell j := by
  simp only [pop, hlast]
  refine ⟨_, rfl, by simp, fun j => ?_⟩
  rw [cell_modify (by simpa using hc), cell_modify hp, cell_modify hp, if_neg hne]
  by_cases hj : j = child
  · simp [hj, hne]
  · simp [hj]

/-- A new node has been put at an index below another, and whom it has found there below itself. -/
structure Placed (A : Arena) (c : Cell) (parent k : Nat) (B : Arena) : Prop where
  index_le : k ≤ (A.cell parent).children.length
  le_index : (A.cell parent).children.length ≤ k + 1
  size : B.size = A.size + 1
  new : B.cell A.size = { c with parent := some parent, index := k, children := (A.cell parent).children[k]?.toList }
  host : B.cell parent = { A.cell parent with children := (A.cell parent).children.take k ++ [A.size] }
  moved : ∀ j, (A.cell parent).children[k]? = some j → B.cell j = { A.cell j with parent := some A.size, index := 0 }
  others : ∀ j < A.size, j ≠ parent → (A.cell parent).children[k]? ≠ some j → B.cell j = A.cell j

theorem placed_add (hp : parent < A.size) (hnew : c.children = []) :
    Placed A c parent (A.cell parent).children.length ((A.alloc c).add parent A.size) := by
  have hp' : parent ≠ A.size := Nat.ne_of_lt hp
  have hadd := cell_add (A := A.alloc c) (by simp; omega) (by simp) hp'.symm
  have hnone : (A.cell parent).children[(A.cell parent).children.length]? = none :=
    List.getElem?_eq_none (Nat.le_refl _)
  refine ⟨Nat.le_refl _, Nat.le_succ _, by simp, ?_, ?_, ?_, ?_⟩
  · rw [hadd, if_pos rfl, cell_alloc, cell_alloc, if_pos rfl, if_neg hp', hnone, Option.toList_none, ← hnew]
  · rw [hadd, if_neg hp', if_pos rfl, cell_alloc, if_neg hp', List.take_length]
  · intro j hj
    rw [hnone] at hj
    cases hj
  · intro j hj hne _
    have hj' : j ≠ A.size := Nat.ne_of_lt hj
    rw [hadd, if_neg hj', if_neg hne, cell_alloc, if_neg hj']

theorem placed_insert (hp : parent < A.size) (hchildren : ∀ j ∈ (A.cell parent).children, j < A.size ∧ j ≠ parent)
    (hnew : c.children = []) :
    Placed A c parent ((A.cell parent).children.length - 1) ((A.alloc c).insert parent A.size) := by
  have hp' : parent ≠ A.size := Nat.ne_of_lt hp
  have hparent : (A.alloc c).cell parent = A.cell parent := by rw [cell_alloc, if_neg hp']
  cases hlast : (A.cell parent).children.getLast? with
  | none =>
    -- There is nobody to adopt.
    have hempty : (A.cell parent).children = [] := List.getLast?_eq_none_iff.mp hlast
    have hinsert : (A.alloc c).insert parent A.size = (A.alloc c).add parent A.size := by
      simp [insert, pop, hparent, hlast]
    have hplaced := placed_add hp hnew
    rw [hinsert]
    rwa [hempty] at hplaced ⊢
  | some child =>
    obtain ⟨hc, hne⟩ := hchildren child (List.mem_of_getLast? hlast)
    have hc' : child ≠ A.size := Nat.ne_of_lt hc
    obtain ⟨B, hpop, hsize, hB⟩ := cell_pop (A := A.alloc c) (by simp; omega) (by rw [hparent, hlast])
      (by simp; omega) hne
    rw [size_alloc] at hsize
    simp only [cell_alloc, hp', hc', if_false] at hB
    -- The newcomer takes the place that was left, and then the node that left it.
    have hadd := cell_add (A := B) (by omega) (by omega) hp'.symm
    have hadd' := cell_add (A := B.add parent A.size) (by simp; omega) (by simp; omega) hc'
    have hinsert : (A.alloc c).insert parent A.size = (B.add parent A.size).add A.size child := by
      simp [insert, hpop]
    rw [hinsert]
    rw [List.getLast?_eq_getElem?] at hlast
    refine ⟨by omega, by omega, by simp [hsize], ?_, ?_, ?_, ?_⟩
    · rw [hadd', if_neg hc'.symm, if_pos rfl, hadd, if_pos rfl, hB, hB]
      simp [hp'.symm, hc'.symm, hnew, hlast]
    · rw [hadd', if_neg hne.symm, if_neg hp', hadd, if_neg hp', if_pos rfl, hB]
      simp [List.dropLast_eq_take]
    · intro j hj
      obtain rfl : child = j := Option.some.inj (hlast.symm.trans hj)
      rw [hadd', if_pos rfl, hadd, hadd, if_neg hc', if_neg hne, if_pos rfl, hB, hB]
      simp [hne, hp'.symm, hc'.symm, hnew]
    · intro j hj hj' hother
      have hj'' : j ≠ A.size := Nat.ne_of_lt hj
      have hmoved : j ≠ child := fun heq => hother (heq ▸ hlast)
      rw [hadd', if_neg hmoved, if_neg hj'', hadd, if_neg hj'', if_neg hj', hB]
      simp [hj', hj'', hmoved]

/-! ### Links -/

/-- Every node is linked as its address tells, and no two nodes have the same one. -/
structure Linked (A : Arena) (name : Nat → Address) : Prop where
  size_pos : 0 < A.size
  name_root : name 0 = []
  parent_root : (A.cell 0).parent = none
  inj : ∀ i < A.size, ∀ j < A.size, name i = name j → i = j
  up : ∀ i < A.size, ∀ k a, name i = k :: a →
    (A.cell i).index = k ∧ ∃ p < A.size, name p = a ∧ (A.cell i).parent = some p
  down : ∀ i < A.size, ∀ k j, (A.cell i).children[k]? = some j ↔ j < A.size ∧ name j = k :: name i

/-- Where the nodes are once a new node has taken the place `slot`. -/
def renamed (A : Arena) (name : Nat → Address) (slot : Address) (j : Nat) : Address :=
  if j = A.size then slot else Address.adopted slot (name j)

theorem renamed_new {slot : Address} : renamed A name slot A.size = slot := if_pos rfl

theorem renamed_old {slot : Address} (hj : j < A.size) : renamed A name slot j = Address.adopted slot (name j) :=
  if_neg (Nat.ne_of_lt hj)

namespace Linked

theorem eq_root (h : Linked A name) (hi : i < A.size) (hname : name i = []) : i = 0 :=
  h.inj i hi 0 h.size_pos (hname.trans h.name_root.symm)

/-- A change of what a node holds. -/
theorem merge (h : Linked A name) (hi : i < A.size) (c : Cell) : Linked (A.merge i c) name := by
  have hlinks : ∀ j, ((A.merge i c).cell j).parent = (A.cell j).parent ∧
      ((A.merge i c).cell j).index = (A.cell j).index ∧ ((A.merge i c).cell j).children = (A.cell j).children := by
    intro j
    rw [Arena.merge, cell_modify hi]
    split
    · next hj => exact hj ▸ ⟨rfl, rfl, rfl⟩
    · exact ⟨rfl, rfl, rfl⟩
  obtain ⟨hpos, hroot, hparent, hinj, hup, hdown⟩ := h
  refine ⟨by simpa, hroot, ?_, by simpa, ?_, ?_⟩
  · rw [(hlinks 0).1, hparent]
  · simpa only [size_merge, hlinks] using hup
  · simpa only [size_merge, hlinks] using hdown

/-- There is no node at or below the place of a new last child. -/
theorem vacant (h : Linked A name) (hp : parent < A.size) (hi : i < A.size) :
    ¬(A.cell parent).children.length :: name parent <:+ name i := by
  induction ha : name i generalizing i with
  | nil => simp
  | cons k a ih =>
    rw [List.suffix_cons_iff]
    rintro (heq | hs)
    · have hchild := (h.down parent hp _ i).mpr ⟨hi, ha.trans heq.symm⟩
      rw [List.getElem?_eq_none (Nat.le_refl _)] at hchild
      cases hchild
    · obtain ⟨-, q, hq, hqa, -⟩ := h.up i hi k a ha
      exact ih hq hqa hs

section Placed
variable {B : Arena} {k : Nat}

/-- The children of an old node: only at one place there is another node than before. -/
theorem getElem?_children_placed (h : Linked A name) (hp : parent < A.size) (hB : Placed A c parent k B)
    (hi : i < A.size) (n : Nat) :
    (B.cell i).children[n]? = if n :: name i = k :: name parent then some A.size else (A.cell i).children[n]? := by
  by_cases hip : i = parent
  · have htake : ((A.cell parent).children.take k).length = k := List.length_take_of_le hB.index_le
    rw [hip, hB.host]
    simp only [List.cons.injEq, and_true]
    rcases Nat.lt_trichotomy n k with hn | rfl | hn
    · rw [if_neg (Nat.ne_of_lt hn), List.getElem?_append_left (by omega), List.getElem?_take_of_lt hn]
    · rw [if_pos rfl, List.getElem?_append_right (by omega), htake, Nat.sub_self]
      rfl
    · have hle := hB.le_index
      rw [if_neg (Nat.ne_of_gt hn), List.getElem?_eq_none (by simp; omega), List.getElem?_eq_none (by omega)]
  · have hne : n :: name i ≠ k :: name parent := fun heq => hip (h.inj i hi parent hp (List.cons.inj heq).2)
    rw [if_neg hne]
    by_cases hmoved : (A.cell parent).children[k]? = some i
    · rw [hB.moved i hmoved]
    · rw [hB.others i hi hip hmoved]

/-- The links up of an old node, unless it is adopted. -/
theorem parent_index_placed (hB : Placed A c parent k B) (hi : i < A.size)
    (hmoved : (A.cell parent).children[k]? ≠ some i) :
    (B.cell i).parent = (A.cell i).parent ∧ (B.cell i).index = (A.cell i).index := by
  by_cases hip : i = parent
  · rw [hip, hB.host]
    exact ⟨rfl, rfl⟩
  · rw [hB.others i hi hip hmoved]
    exact ⟨rfl, rfl⟩

theorem down_new (h : Linked A name) (hp : parent < A.size) (hB : Placed A c parent k B) {n : Nat} :
    (B.cell A.size).children[n]? = some j ↔
      j < B.size ∧ renamed A name (k :: name parent) j = n :: k :: name parent := by
  have hsize := hB.size
  have hone : (A.cell parent).children[k]?.toList[n]? = some j ↔ n = 0 ∧ (A.cell parent).children[k]? = some j := by
    cases (A.cell parent).children[k]? <;> cases n <;> simp
  rw [hB.new, hone, h.down parent hp]
  constructor
  · rintro ⟨rfl, hj, hname⟩
    exact ⟨by omega, by rw [renamed_old hj, hname, Address.adopted_self]⟩
  · rintro ⟨hj, heq⟩
    by_cases hj' : j = A.size
    · rw [hj', renamed_new] at heq
      exact absurd heq.symm (List.cons_ne_self _ _)
    · have hj' : j < A.size := by omega
      rw [renamed_old hj', Address.adopted_eq_cons_slot_iff] at heq
      exact ⟨heq.2, hj', heq.1⟩

theorem down_old (h : Linked A name) (hp : parent < A.size) (hB : Placed A c parent k B) (hi : i < A.size) {n : Nat} :
    (B.cell i).children[n]? = some j ↔
      j < B.size ∧ renamed A name (k :: name parent) j = n :: Address.adopted (k :: name parent) (name i) := by
  have hsize := hB.size
  rw [getElem?_children_placed h hp hB hi]
  by_cases hslot : n :: name i = k :: name parent
  · -- Here the newcomer is found, and nobody else.
    obtain ⟨rfl, hname⟩ := List.cons.inj hslot
    rw [if_pos hslot, hname, Address.adopted_parent, Option.some.injEq]
    constructor
    · rintro rfl
      exact ⟨by omega, renamed_new⟩
    · rintro ⟨hj, heq⟩
      by_contra hj'
      rw [renamed_old (by omega)] at heq
      exact Address.adopted_ne heq
  · rw [if_neg hslot, h.down i hi]
    constructor
    · rintro ⟨hj, hname⟩
      exact ⟨by omega, by rw [renamed_old hj, (Address.adopted_eq_cons_iff hslot).mpr hname]⟩
    · rintro ⟨hj, heq⟩
      by_cases hj' : j = A.size
      · rw [hj', renamed_new] at heq
        obtain ⟨rfl, hup⟩ := List.cons.inj heq
        have hname := Address.adopted_inj ((Address.adopted_parent k (name parent)).trans hup)
        exact absurd (congrArg _ hname.symm) hslot
      · have hj' : j < A.size := by omega
        rw [renamed_old hj'] at heq
        exact ⟨hj', (Address.adopted_eq_cons_iff hslot).mp heq⟩

/-- A new node in its place, with the node that was there below it. -/
theorem placed (h : Linked A name) (hp : parent < A.size) (hB : Placed A c parent k B) :
    Linked B (renamed A name (k :: name parent)) := by
  have hpos := h.size_pos
  have hsize := hB.size
  have hold : ∀ {j}, j < B.size → j ≠ A.size → j < A.size := fun hj hne => by omega
  have hmoved : ∀ {j}, j < A.size → ((A.cell parent).children[k]? = some j ↔ name j = k :: name parent) :=
    fun hj => (h.down parent hp k _).trans (and_iff_right hj)
  refine ⟨by omega, ?_, ?_, ?_, ?_, ?_⟩
  · rw [renamed_old hpos, h.name_root, Address.adopted_of_length_lt (by simp)]
  · have hroot : (A.cell parent).children[k]? ≠ some 0 := by
      rw [ne_eq, hmoved hpos, h.name_root]
      simp
    rw [(parent_index_placed hB hpos hroot).1, h.parent_root]
  · intro i hi j hj heq
    by_cases hi' : i = A.size <;> by_cases hj' : j = A.size
    · rw [hi', hj']
    · rw [hi', renamed_new, renamed_old (hold hj hj')] at heq
      exact absurd heq.symm Address.adopted_ne
    · rw [hj', renamed_new, renamed_old (hold hi hi')] at heq
      exact absurd heq Address.adopted_ne
    · rw [renamed_old (hold hi hi'), renamed_old (hold hj hj')] at heq
      exact h.inj i (hold hi hi') j (hold hj hj') (Address.adopted_inj heq)
  · intro i hi n a heq
    by_cases hi' : i = A.size
    · rw [hi', renamed_new] at heq
      obtain ⟨rfl, rfl⟩ := List.cons.inj heq
      rw [hi', hB.new]
      exact ⟨rfl, parent, by omega, by rw [renamed_old hp, Address.adopted_parent], rfl⟩
    · have hi' := hold hi hi'
      rw [renamed_old hi'] at heq
      rcases Address.adopted_eq_cons heq with ⟨hslot, rfl, rfl⟩ | ⟨hslot, b, hname, rfl⟩
      · rw [hB.moved i ((hmoved hi').mpr hslot)]
        exact ⟨rfl, A.size, by omega, renamed_new, rfl⟩
      · obtain ⟨hparent, hindex⟩ := parent_index_placed hB hi' fun hmem => hslot ((hmoved hi').mp hmem)
        obtain ⟨hk, q, hq, rfl, hq'⟩ := h.up i hi' _ _ hname
        exact ⟨hindex.trans hk, q, by omega, renamed_old hq, hparent.trans hq'⟩
  · intro i hi n j
    by_cases hi' : i = A.size
    · rw [hi', renamed_new]
      exact h.down_new hp hB
    · rw [renamed_old (hold hi hi')]
      exact h.down_old hp hB (hold hi hi')

end Placed
end Linked
end Arena
end SiblingSwap
