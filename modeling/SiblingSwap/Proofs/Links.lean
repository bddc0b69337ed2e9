import Mathlib.Data.List.Forall2
import Mathlib.Data.List.Nodup
import Mathlib.Logic.Relation
import SiblingSwap.Proofs.Growth
import SiblingSwap.Proofs.Traversal

/-! How the nodes of an arena hang together once tokens have grown into it. Every node but the root is one child of one
    parent, at the index that is stored with it, and following parents from any node leads to the root. So the loops
    that follow links end, and they end where the navigation of the tree does. -/

namespace SiblingSwap
namespace Arena
variable {A : Arena} {tree n : Node} {name : Nat → Address} {i j pos : Nat}

/-! ### Parents and children -/

namespace Linked

theorem mem_children_iff (h : Linked A name) (hi : i < A.size) :
    j ∈ (A.cell i).children ↔ j < A.size ∧ ∃ k, name j = k :: name i := by
  rw [List.mem_iff_getElem?]
  simp only [h.down i hi]
  exact exists_and_left

/-- A node of which another is the parent holds it at its index. -/
theorem holds (h : Linked A name) (hi : i < A.size) {k : Nat} {a : Address} (hname : name i = k :: a) :
    ∃ p < A.size, name p = a ∧ (A.cell i).parent = some p ∧ (A.cell i).index = k ∧
      (A.cell p).children[k]? = some i := by
  obtain ⟨hindex, p, hp, hpname, hparent⟩ := h.up i hi k a hname
  exact ⟨p, hp, hpname, hparent, hindex, (h.down p hp k i).mpr ⟨hi, by rw [hname, hpname]⟩⟩

theorem nodup_children (h : Linked A name) (hi : i < A.size) : (A.cell i).children.Nodup := by
  rw [List.nodup_iff_getElem?_ne_getElem?]
  intro k l hkl hl heq
  have hget := List.getElem?_eq_getElem hl
  have hk := ((h.down i hi k _).mp (heq.trans hget)).2
  have hl := ((h.down i hi l _).mp hget).2
  have := (List.cons.inj (hk.symm.trans hl)).1
  omega

/-- Every node but the root occurs once among the children of all. -/
theorem children_perm (h : Linked A name) :
    ((List.range A.size).flatMap fun i => (A.cell i).children).Perm (List.range' 1 (A.size - 1)) := by
  refine (List.perm_ext_iff_of_nodup ?_ List.nodup_range').mpr fun j => ?_
  · refine List.nodup_flatMap.mpr ⟨fun i hi => h.nodup_children (List.mem_range.mp hi), ?_⟩
    refine List.Pairwise.imp_of_mem (fun {i i'} hi hi' hne j hj hj' => hne ?_) List.nodup_range
    rw [List.mem_range] at hi hi'
    obtain ⟨-, k, hk⟩ := (h.mem_children_iff hi).mp hj
    obtain ⟨-, k', hk'⟩ := (h.mem_children_iff hi').mp hj'
    exact h.inj i hi i' hi' (List.cons.inj (hk.symm.trans hk')).2
  · simp only [List.mem_flatMap, List.mem_range, List.mem_range'_1]
    constructor
    · rintro ⟨i, hi, hj⟩
      obtain ⟨hlt, k, hname⟩ := (h.mem_children_iff hi).mp hj
      have hne : j ≠ 0 := by
        rintro rfl
        rw [h.name_root] at hname
        cases hname
      omega
    · rintro ⟨hpos, hlt⟩
      have hlt : j < A.size := by omega
      cases hname : name j with
      | nil =>
        have := h.eq_root hlt hname
        omega
      | cons k a =>
        obtain ⟨p, hp, -, -, -, hchild⟩ := h.holds hlt hname
        exact ⟨p, hp, List.mem_of_getElem? hchild⟩

theorem reachable (h : Linked A name) (hi : i < A.size) :
    Relation.ReflTransGen (fun p j => j ∈ (A.cell p).children) 0 i := by
  induction ha : name i generalizing i with
  | nil => rw [h.eq_root hi ha]
  | cons k a ih =>
    obtain ⟨p, hp, hname, -, -, hchild⟩ := h.holds hi ha
    exact (ih hp hname).tail (List.mem_of_getElem? hchild)

theorem rooted (h : Linked A name) (hi : i < A.size) :
    Relation.ReflTransGen (fun j p => (A.cell j).parent = some p) i 0 := by
  induction ha : name i generalizing i with
  | nil => rw [h.eq_root hi ha]
  | cons k a ih =>
    obtain ⟨p, hp, hname, hparent, -, -⟩ := h.holds hi ha
    exact (ih hp hname).head hparent

/-! ### Siblings -/

theorem next?_eq_some_iff (h : Linked A name) (hi : i < A.size) :
    A.next? i = some j ↔ j < A.size ∧ ∃ k a, name i = k :: a ∧ name j = (k + 1) :: a := by
  cases hname : name i with
  | nil =>
    rw [next?, h.eq_root hi hname, h.parent_root]
    simp
  | cons k a =>
    obtain ⟨p, hp, rfl, hparent, hindex, -⟩ := h.holds hi hname
    rw [next?, hparent, Option.bind_some, hindex, h.down p hp]
    simp

theorem prev?_eq_some_iff (h : Linked A name) (hi : i < A.size) :
    A.prev? i = some j ↔ j < A.size ∧ ∃ k a, name i = (k + 1) :: a ∧ name j = k :: a := by
  cases hname : name i with
  | nil =>
    rw [prev?, h.eq_root hi hname, h.parent_root]
    simp
  | cons k a =>
    obtain ⟨p, hp, rfl, hparent, hindex, -⟩ := h.holds hi hname
    rw [prev?, hparent, Option.bind_some, hindex]
    cases k with
    | zero => simp
    | succ k =>
      simp only [h.down p hp]
      simp

theorem next?_iff_prev? (h : Linked A name) (hi : i < A.size) (hj : j < A.size) :
    A.next? i = some j ↔ A.prev? j = some i := by
  rw [h.next?_eq_some_iff hi, h.prev?_eq_some_iff hj, and_iff_right hi, and_iff_right hj]
  simp only [and_comm]

end Linked

/-! ### Navigation -/

namespace Depicts

theorem isSome_at?_iff (h : Depicts A tree name) {a : Address} : (tree.at? a).isSome ↔ ∃ i < A.size, name i = a := by
  constructor
  · intro ha
    obtain ⟨n, hn⟩ := Option.isSome_iff_exists.mp ha
    exact h.onto a n.tokens (by rw [Node.tokensAt?, hn]; rfl)
  · rintro ⟨i, hi, rfl⟩
    obtain ⟨n, hn, -⟩ := h.exists_node hi
    rw [hn]
    rfl

/-- An optional node is in the arena where its address is in the tree. -/
theorem map_eq_ite (h : Depicts A tree name) {o : Option Nat} {a : Address}
    (ho : ∀ j, o = some j ↔ j < A.size ∧ name j = a) :
    o.map name = if (tree.at? a).isSome then some a else none := by
  cases o with
  | none =>
    rw [if_neg]
    · rfl
    · intro ha
      obtain ⟨j, hj, hname⟩ := h.isSome_at?_iff.mp ha
      cases (ho j).mpr ⟨hj, hname⟩
  | some j =>
    obtain ⟨hj, hname⟩ := (ho j).mp rfl
    rw [if_pos (h.isSome_at?_iff.mpr ⟨j, hj, hname⟩), Option.map_some, hname]

theorem next? (h : Depicts A tree name) (hi : i < A.size) : (A.next? i).map name = tree.next? (name i) := by
  cases hname : name i with
  | nil =>
    rw [Arena.next?, h.eq_root hi hname, h.parent_root]
    rfl
  | cons k a =>
    rw [Node.next?]
    exact h.map_eq_ite fun j => (h.next?_eq_some_iff hi).trans (by simp [hname])

theorem prev? (h : Depicts A tree name) (hi : i < A.size) : (A.prev? i).map name = tree.prev? (name i) := by
  cases hname : name i with
  | nil =>
    rw [Arena.prev?, h.eq_root hi hname, h.parent_root]
    rfl
  | cons k a =>
    cases k with
    | zero =>
      have hnone : A.prev? i = none := by
        rw [Option.eq_none_iff_forall_ne_some]
        intro j hj
        obtain ⟨-, k, b, hk, -⟩ := (h.prev?_eq_some_iff hi).mp hj
        simp [hname] at hk
      rw [hnone]
      rfl
    | succ k =>
      rw [Node.prev?]
      exact h.map_eq_ite fun j => (h.prev?_eq_some_iff hi).trans (by simp [hname])

theorem isChainLink (h : Depicts A tree name) (hi : i < A.size) : A.isChainLink i = tree.isChainLink (name i) := by
  cases hname : name i with
  | nil =>
    rw [Arena.isChainLink, h.eq_root hi hname, h.parent_root]
    rfl
  | cons k a =>
    obtain ⟨-, p, hp, rfl, hparent⟩ := h.up i hi k a hname
    obtain ⟨n, hn, hcell⟩ := h.exists_node hi
    obtain ⟨m, hm, hpcell⟩ := h.exists_node hp
    rw [hname] at hn
    simp only [Arena.isChainLink, Node.isChainLink, hparent, hn, hm, hcell.role, hcell.priority, hpcell.priority]

/-- The last child in the arena is that of the tree. -/
theorem lastChild? (h : Depicts A tree name) (hi : i < A.size) :
    (A.cell i).children.getLast?.map name = tree.lastChild? (name i) := by
  obtain ⟨⟨us, cs⟩, hn, hcell⟩ := h.exists_node hi
  have hwidth : (A.cell i).children.length = cs.length := hcell.width
  rw [Node.lastChild?, hn, List.getLast?_eq_getElem?, hwidth]
  cases cs with
  | nil =>
    rw [List.getElem?_eq_none (by simp [hwidth])]
    rfl
  | cons c cs =>
    have hlt : cs.length < (A.cell i).children.length := by simp [hwidth]
    obtain ⟨-, hname⟩ := (h.down i hi _ _).mp (List.getElem?_eq_getElem hlt)
    rw [List.length_cons, Nat.add_sub_cancel, List.getElem?_eq_getElem hlt, Option.map_some, hname]

/-- The arena has an answer, and it is that of the tree. -/
def Finds (A : Arena) (name : Nat → Address) (found : Option Beside) (ns : Node.Neighbors) : Prop :=
  ∃ l r, found = some (l, r) ∧ (∀ j ∈ l, j < A.size) ∧ (∀ j ∈ r, j < A.size) ∧ ns = ⟨l.map name, r.map name⟩

theorem rightFrom (h : Depicts A tree name) (hi : i < A.size) (kept : Option Nat) (hkept : ∀ j ∈ kept, j < A.size) :
    Finds A name (A.rightFrom kept i) (tree.rightFrom (kept.map name) (name i)) := by
  induction ha : name i generalizing i kept with
  | nil =>
    rw [Arena.rightFrom, h.eq_root hi ha, h.parent_root]
    cases kept with
    | none => exact ⟨_, _, rfl, by simpa using h.size_pos, by simp, by simp [Node.rightFrom, h.name_root]⟩
    | some j => exact ⟨_, _, rfl, hkept, by simp, rfl⟩
  | cons k a ih =>
    obtain ⟨-, p, hp, rfl, hparent⟩ := h.up i hi k a ha
    have hnext := h.next? hi
    rw [ha] at hnext
    rw [Arena.rightFrom, Node.rightFrom, hparent, ← hnext]
    cases hright : A.next? i with
    | some right =>
      have hlt := ((h.next?_eq_some_iff hi).mp hright).1
      cases kept with
      | none => exact ⟨_, _, rfl, by simpa using hi, by simpa using hlt, by simp [ha]⟩
      | some j => exact ⟨_, _, rfl, hkept, by simpa using hlt, rfl⟩
    | none =>
      -- The element kept first stays, else this one is kept below a link of a chain.
      simp only [Option.map_none, ← h.isChainLink hp]
      cases kept with
      | some j => exact ih hp (some j) hkept rfl
      | none =>
        cases A.isChainLink p with
        | false => exact ih hp none (by simp) rfl
        | true =>
          have hkeep := ih hp (some i) (by simpa using hi) rfl
          rw [Option.map_some, ha] at hkeep
          exact hkeep

theorem leftNeighbors (h : Depicts A tree name) (hi : i < A.size) :
    Finds A name (A.leftNeighbors i) (tree.leftNeighbors (name i)) := by
  induction ha : name i generalizing i with
  | nil =>
    rw [Arena.leftNeighbors, h.eq_root hi ha, h.parent_root]
    exact ⟨_, _, rfl, by simp, by simpa using h.size_pos, by simp [Node.leftNeighbors, h.name_root]⟩
  | cons k a ih =>
    obtain ⟨-, p, hp, rfl, hparent⟩ := h.up i hi k a ha
    have hprev := h.prev? hi
    rw [ha] at hprev
    rw [Arena.leftNeighbors, Node.leftNeighbors, hparent, ← hprev]
    cases hbefore : A.prev? i with
    | none => exact ih hp rfl
    | some before =>
      have hlt := ((h.prev?_eq_some_iff hi).mp hbefore).1
      obtain ⟨n, hn, hcell⟩ := h.exists_node hlt
      obtain ⟨m, hm, hpcell⟩ := h.exists_node hp
      simp only [Option.map_some, hn, hm, hcell.priority, hpcell.role, hpcell.priority]
      split
      · refine ⟨_, _, rfl, ?_, by simpa using hi, by rw [h.lastChild? hlt, Option.map_some, ha]⟩
        intro j hj
        exact ((h.mem_children_iff hlt).mp (List.mem_of_getLast? hj)).1
      · exact ⟨_, _, rfl, by simpa using hlt, by simpa using hi, by rw [Option.map_some, Option.map_some, ha]⟩

/-! ### Bounds -/

/-- The node that a child of a cell stands for. -/
theorem getElem?_children (h : Depicts A tree name) (hi : i < A.size) (hn : tree.at? (name i) = some n) {k : Nat}
    (hj : (A.cell i).children[k]? = some j) :
    j < A.size ∧ ∃ m, n.children[k]? = some m ∧ tree.at? (name j) = some m ∧ (A.cell j).Depicts m := by
  obtain ⟨hj, hname⟩ := (h.down i hi k j).mp hj
  obtain ⟨m, hm, hcell⟩ := h.exists_node hj
  refine ⟨hj, m, ?_, hm, hcell⟩
  rwa [hname, Node.at?, hn] at hm

theorem leftEdge (h : Depicts A tree name) (hi : i < A.size) (hn : tree.at? (name i) = some n) (acc : Nat) :
    A.leftEdge acc i = some (n.leftEdge acc) := by
  induction n using Node.children_induction generalizing i acc with
  | step n ih =>
    have hwidth := h.width hi hn
    obtain ⟨us, cs⟩ := n
    rw [Arena.leftEdge, List.head?_eq_getElem?]
    cases hc : (A.cell i).children[0]? with
    | none =>
      have hempty : cs = [] := List.length_eq_zero_iff.mp (hwidth ▸ Nat.le_zero.mp (List.getElem?_eq_none_iff.mp hc))
      rw [hempty, Node.leftEdge]
    | some j =>
      obtain ⟨hj, m, hchild, hm, hcell⟩ := h.getElem?_children hi hn hc
      cases cs with
      | nil => cases hchild
      | cons c cs =>
        obtain rfl : c = m := Option.some.inj hchild
        rw [Node.leftEdge, ← hcell.span]
        exact ih c List.mem_cons_self hj hm _

theorem rightEdge (h : Depicts A tree name) (hi : i < A.size) (hn : tree.at? (name i) = some n) (acc : Nat) :
    A.rightEdge acc i = some (n.rightEdge acc) := by
  induction n using Node.children_induction generalizing i acc with
  | step n ih =>
    have hwidth := h.width hi hn
    obtain ⟨us, cs⟩ := n
    rw [Arena.rightEdge, List.getLast?_eq_getElem?]
    rcases List.eq_nil_or_concat' cs with rfl | ⟨cs, c, rfl⟩
    · rw [List.getElem?_eq_none (by simp [hwidth])]
      rfl
    · have hlt : cs.length < (A.cell i).children.length := by simp [hwidth]
      have hlast : (A.cell i).children.length - 1 = cs.length := by simp [hwidth]
      have hc := List.getElem?_eq_getElem hlt
      obtain ⟨hj, m, hchild, hm, hcell⟩ := h.getElem?_children hi hn hc
      obtain rfl : c = m := Option.some.inj (List.getElem?_concat_length.symm.trans hchild)
      rw [hlast, hc, Node.rightEdge, Node.rightEdgeAmong_concat, ← hcell.span]
      exact ih c (by simp) hj hm _

theorem bound (h : Depicts A tree name) (hi : i < A.size) (hn : tree.at? (name i) = some n) :
    A.bound i = some n.bound := by
  rw [Arena.bound, h.leftEdge hi hn, h.rightEdge hi hn, (h.at? hi hn).span]
  rfl

/-! ### The element at a place -/

theorem isSome_parent_iff (h : Depicts A tree name) (hi : i < A.size) :
    (A.cell i).parent.isSome = true ↔ name i ≠ [] := by
  cases hname : name i with
  | nil =>
    rw [h.eq_root hi hname, h.parent_root]
    simp
  | cons k a =>
    obtain ⟨-, p, -, -, hparent⟩ := h.up i hi k a hname
    simp [hparent]

/-- An open node of both walks, with the same child to be searched next. -/
structure Tracks (A : Arena) (tree : Node) (name : Nat → Address) (s : Nat × Nat) (v : Node.Visit) : Prop where
  lt : s.1 < A.size
  address : v.address = name s.1
  index : v.index = s.2
  of : v.Of tree

theorem Tracks.enter (h : Depicts A tree name) {k l : Nat} {b : Address} {c : Node} {cs : List Node}
    (hv : Tracks A tree name (i, k) ⟨n, b, l, c :: cs⟩) :
    ∃ j, (A.cell i).children[k]? = some j ∧ Tracks A tree name (j, 0) (.enter (l :: b) c) ∧
      Tracks A tree name (i, k + 1) ⟨n, b, l + 1, cs⟩ := by
  have hi : i < A.size := hv.lt
  obtain rfl : b = name i := hv.address
  obtain rfl : l = k := hv.index
  obtain ⟨hchild, hparent⟩ := hv.of.enter
  obtain ⟨j, hj, hname⟩ := h.isSome_at?_iff.mp (Option.isSome_of_eq_some hchild.1)
  exact ⟨j, (h.down i hi _ j).mpr ⟨hj, hname⟩, ⟨hj, hname.symm, rfl, hchild⟩, hi, rfl, rfl, hparent⟩

theorem Tracks.leave (h : Depicts A tree name) {k l : Nat} {b : Address}
    (hv : Tracks A tree name (i, k) ⟨n, b, l, []⟩) (pos : Nat) :
    (A.cell i).children[k]? = none ∧
      ((A.cell i).parent.isSome ∧ (A.cell i).span.contains pos ↔ b ≠ [] ∧ n.span.contains pos) := by
  have hi : i < A.size := hv.lt
  obtain rfl : b = name i := hv.address
  obtain rfl : l = k := hv.index
  obtain ⟨hn, hrest⟩ := hv.of
  have hcell := h.at? hi hn
  refine ⟨List.getElem?_eq_none ?_, ?_⟩
  · rw [hcell.width]
    exact List.drop_eq_nil_iff.mp hrest.symm
  · rw [h.isSome_parent_iff hi, hcell.span]

/-- Step by step both walks enter and leave the same nodes. -/
theorem walk (h : Depicts A tree name) {stack : List (Nat × Nat)} {visits : List Node.Visit}
    (hs : List.Forall₂ (Tracks A tree name) stack visits) :
    ∃ found, A.walk pos stack = some found ∧ (∀ j ∈ found, j < A.size) ∧ Node.walk pos visits = found.map name := by
  fun_induction Node.walk pos visits generalizing stack with
  | case1 =>
    cases hs
    exact ⟨none, by rw [Arena.walk], by simp, rfl⟩
  | case2 n b l c cs outer ih =>
    cases hs with
    | @cons s _ stack _ hv houter =>
      obtain ⟨i, k⟩ := s
      obtain ⟨j, hj, hchild, hparent⟩ := hv.enter h
      rw [Arena.walk, hj]
      exact ih (.cons hchild (.cons hparent houter))
  | case3 n b l outer hfound =>
    cases hs with
    | @cons s _ stack _ hv houter =>
      obtain ⟨i, k⟩ := s
      obtain ⟨hnone, htest⟩ := hv.leave h pos
      refine ⟨some i, ?_, by simpa using hv.lt, congrArg some hv.address⟩
      rw [Arena.walk, hnone]
      exact if_pos (htest.mpr hfound)
  | case4 n b l outer hother ih =>
    cases hs with
    | @cons s _ stack _ hv houter =>
      obtain ⟨i, k⟩ := s
      obtain ⟨hnone, htest⟩ := hv.leave h pos
      rw [Arena.walk, hnone]
      simp only [if_neg fun ht => hother (htest.mp ht)]
      exact ih houter

theorem locate (h : Depicts A tree name) (pos : Nat) :
    ∃ found, A.locate pos = some found ∧ (∀ j ∈ found, j < A.size) ∧ tree.locate? pos = found.map name :=
  h.walk (.cons ⟨h.size_pos, h.name_root.symm, rfl, rfl, rfl⟩ .nil)

end Depicts

/-! ### The arena of any tokens -/

/-- The root is an opener that holds nothing and binds most loosely. All ids that nodes refer to are those of nodes.
    Every other node holds a token and is one child of one parent, at the index that is stored with it. All nodes are
    reached from the root, and the root from all of them. -/
structure WellLinked (A : Arena) : Prop where
  root : 0 < A.size ∧ (A.cell 0).parent = none ∧ (A.cell 0).tokens = [] ∧ (A.cell 0).role = .opener ∧
    (A.cell 0).priority = -1 ∧ (A.cell 0).span = ⟨0, 0⟩
  parent_lt : ∀ i < A.size, ∀ p, (A.cell i).parent = some p → p < A.size
  child_lt : ∀ i < A.size, ∀ j ∈ (A.cell i).children, j < A.size
  held : ∀ i < A.size, i ≠ 0 → (A.cell i).tokens ≠ [] ∧
    ∃ p, (A.cell i).parent = some p ∧ (A.cell p).children[(A.cell i).index]? = some i
  once : ((List.range A.size).flatMap fun i => (A.cell i).children).Perm (List.range' 1 (A.size - 1))
  reachable : ∀ i < A.size, Relation.ReflTransGen (fun p j => j ∈ (A.cell p).children) 0 i
  rooted : ∀ i < A.size, Relation.ReflTransGen (fun j p => (A.cell j).parent = some p) i 0

theorem Depicts.wellLinked (h : Depicts A tree name) (hroot : tree.tokensAt? [] = some [])
    (hfilled : ∀ a, a ≠ [] → tree.tokensAt? a ≠ some []) : WellLinked A where
  root := by
    have htokens : (A.cell 0).tokens = [] := by
      have htokens := h.tokens 0 h.size_pos
      rw [h.name_root, hroot] at htokens
      exact (Option.some.inj htokens).symm
    obtain ⟨hrole, hpriority, hspan⟩ := h.stored 0 h.size_pos
    rw [htokens] at hrole hpriority hspan
    exact ⟨h.size_pos, h.parent_root, htokens, hrole, hpriority, hspan⟩
  parent_lt i hi p hp := by
    cases hname : name i with
    | nil =>
      rw [h.eq_root hi hname, h.parent_root] at hp
      cases hp
    | cons k a =>
      obtain ⟨-, q, hq, -, hparent⟩ := h.up i hi k a hname
      obtain rfl : q = p := Option.some.inj (hparent.symm.trans hp)
      exact hq
  child_lt i hi j hj := ((h.mem_children_iff hi).mp hj).1
  held i hi hne := by
    cases hname : name i with
    | nil => exact absurd (h.eq_root hi hname) hne
    | cons k a =>
      obtain ⟨p, -, -, hparent, rfl, hchild⟩ := h.holds hi hname
      refine ⟨fun hempty => hfilled (name i) (by simp [hname]) ?_, p, hparent, hchild⟩
      rw [h.tokens i hi, hempty]
  once := h.children_perm
  reachable _ := h.reachable
  rooted _ := h.rooted

end Arena

/-- However tokens are classified and placed, each of them grows into the arena, for the climb of an operator ends, and
    the links are sound after each of them; the focus and all who wait for a bracket are nodes. So the next sibling of a
    node is the one whose previous sibling it is. The arena holds the tree of the draft, and all loops that follow links
    end, with the bounds, the neighbours and the element at a place that this tree has. -/
theorem Growth.links_sound (ts : List Token) :
    ∃ g name, Growth.ofTokens ts = some g ∧ (∀ t, g.add t = Growth.ofTokens (ts ++ [t])) ∧
      g.arena.WellLinked ∧ g.focus < g.arena.size ∧ (∀ w ∈ g.awaited, w.2 < g.arena.size) ∧
      (∀ i < g.arena.size, ∀ j < g.arena.size, g.arena.next? i = some j ↔ g.arena.prev? j = some i) ∧
      g.Follows (Draft.ofTokens ts) name ∧
      (∀ i < g.arena.size, ∃ n l r l' r', (Node.ofTokens ts).at? (name i) = some n ∧
        g.arena.bound i = some n.bound ∧
        g.arena.rightNeighbors i = some (l, r) ∧
        (Node.ofTokens ts).rightNeighbors (name i) = ⟨l.map name, r.map name⟩ ∧
        g.arena.leftNeighbors i = some (l', r') ∧
        (Node.ofTokens ts).leftNeighbors (name i) = ⟨l'.map name, r'.map name⟩) ∧
      ∀ pos, ∃ found, g.arena.locate pos = some found ∧ (Node.ofTokens ts).locate? pos = found.map name := by
  obtain ⟨g, name, hg, hfollows⟩ := Growth.exists_follows ts
  have hd : (Draft.ofTokens ts).WellFormed := Draft.WellFormed.ofTokens ts
  have hdepicts : g.arena.Depicts (Node.ofTokens ts) name := hfollows.depicts
  refine ⟨g, name, hg, fun t => ?_, hdepicts.wellLinked hd.root hd.filled, hfollows.focus_lt, hfollows.awaited_lt,
    fun i hi j hj => hdepicts.next?_iff_prev? hi hj, hfollows, fun i hi => ?_, fun pos => ?_⟩
  · rw [Growth.ofTokens_concat, hg, Option.bind_some]
  · obtain ⟨n, hn, -⟩ := hdepicts.exists_node hi
    obtain ⟨l, r, hright, -, -, hrtree⟩ := hdepicts.rightFrom hi none (by simp)
    obtain ⟨l', r', hleft, -, -, hltree⟩ := hdepicts.leftNeighbors hi
    exact ⟨n, l, r, l', r', hn, hdepicts.bound hi hn, hright, hrtree, hleft, hltree⟩
  · obtain ⟨found, hfound, -, htree⟩ := hdepicts.locate pos
    exact ⟨found, hfound, htree⟩

end SiblingSwap
