import Mathlib.Data.List.Infix
import SiblingSwap.Tree.Draft

/-! Addresses in a tree and after a change of it. An address names the way to a node from the node upwards, so the nodes
    at and above it have its suffixes as addresses, and those below it have it as a suffix. When a newcomer takes the
    place of a node, the node and all below it move down by one level; who is above whom stays the same. -/

namespace SiblingSwap
namespace Node

theorem at?_append (tree : Node) (below above : Address) :
    tree.at? (below ++ above) = (tree.at? above).bind (·.at? below) := by
  induction below with
  | nil =>
    show tree.at? above = _
    cases tree.at? above <;> rfl
  | cons i below ih =>
    rw [List.cons_append, at?, ih]
    cases tree.at? above <;> rfl

theorem at?_concat (tree : Node) (below : Address) (i : Nat) :
    tree.at? (below ++ [i]) = tree.children[i]?.bind (·.at? below) :=
  at?_append tree below [i]

theorem isSome_at?_of_suffix {tree : Node} {a b : Address} (h : a <:+ b) (hb : (tree.at? b).isSome) :
    (tree.at? a).isSome := by
  obtain ⟨x, rfl⟩ := h
  rw [at?_append] at hb
  cases ha : tree.at? a with
  | none => simp [ha] at hb
  | some n => rfl

/-- What passes from a node to its children holds of all nodes below. -/
theorem inherited_at? {P : Node → Prop} (children : ∀ n, P n → ∀ c ∈ n.children, P c) {n m : Node} (h : P n)
    {a : Address} (hm : n.at? a = some m) : P m := by
  induction a generalizing m with
  | nil =>
    simp only [at?, Option.some.injEq] at hm
    exact hm ▸ h
  | cons i up ih =>
    obtain ⟨p, hp, hi⟩ := Option.bind_eq_some_iff.mp hm
    exact children p (ih hp) m (List.mem_of_getElem? hi)

end Node

namespace Address
variable {slot a b up : Address} {i : Nat}

/-- The node at `b` lies below the one at `a`. -/
def Above (a b : Address) : Prop := a <:+ b ∧ a ≠ b

theorem Above.length_lt (h : Above a b) : a.length < b.length :=
  Nat.lt_of_le_of_ne h.1.length_le fun hlen => h.2 (h.1.eq_of_length hlen)

theorem above_cons_iff : Above a (i :: up) ↔ a <:+ up := by
  constructor
  · rintro ⟨hsuffix, hne⟩
    exact (List.suffix_cons_iff.mp hsuffix).resolve_left hne
  · intro hsuffix
    refine ⟨hsuffix.trans (List.suffix_cons i up), fun heq => ?_⟩
    have hlength := hsuffix.length_le
    rw [heq, List.length_cons] at hlength
    omega

/-- A move that keeps who is at or above whom takes no two nodes to one place. -/
theorem eq_of_suffix_iff {move : Address → Address} (h : ∀ a b, move a <:+ move b ↔ a <:+ b) (hab : move a = move b) :
    a = b := by
  have hle : a <:+ b := (h a b).mp (hab ▸ List.suffix_refl _)
  have hge : b <:+ a := (h b a).mp (hab ▸ List.suffix_refl _)
  exact hle.eq_of_length (Nat.le_antisymm hle.length_le hge.length_le)

theorem adopted_append (below slot : Address) : adopted slot (below ++ slot) = below ++ 0 :: slot := by
  unfold adopted
  rw [if_pos (List.isSuffixOf_iff_suffix.mpr (List.suffix_append below slot))]
  simp

theorem adopted_of_not_suffix (h : ¬slot <:+ a) : adopted slot a = a :=
  if_neg fun hs => h (List.isSuffixOf_iff_suffix.mp hs)

theorem adopted_of_length_lt (h : a.length < slot.length) : adopted slot a = a :=
  adopted_of_not_suffix fun hs => Nat.not_le.mpr h hs.length_le

theorem adopted_suffix_iff : adopted slot a <:+ adopted slot b ↔ a <:+ b := by
  by_cases ha : slot <:+ a
  · obtain ⟨x, rfl⟩ := ha
    rw [adopted_append]
    have hslot : slot <:+ x ++ 0 :: slot := (List.suffix_cons 0 slot).trans (List.suffix_append x _)
    by_cases hb : slot <:+ b
    · obtain ⟨y, rfl⟩ := hb
      rw [adopted_append, List.suffix_append_self_iff, List.suffix_append_self_iff]
    · rw [adopted_of_not_suffix hb]
      exact ⟨fun h => absurd (hslot.trans h) hb, fun h => absurd ((List.suffix_append x slot).trans h) hb⟩
  · rw [adopted_of_not_suffix ha]
    by_cases hb : slot <:+ b
    · -- What is above neither the old nor the new place of the node is above the newcomer's place.
      obtain ⟨y, rfl⟩ := hb
      rw [adopted_append]
      have hslot : slot <:+ y ++ 0 :: slot := (List.suffix_cons 0 slot).trans (List.suffix_append y _)
      constructor
      · intro h
        have hup := (List.suffix_or_suffix_of_suffix h hslot).resolve_right ha
        exact hup.trans (List.suffix_append y slot)
      · intro h
        have hup := (List.suffix_or_suffix_of_suffix h (List.suffix_append y slot)).resolve_right ha
        exact hup.trans hslot
    · rw [adopted_of_not_suffix hb]

/-- What is above the newcomer, or in its place, after the move was above that place before. -/
theorem suffix_of_adopted_suffix (h : adopted (i :: up) a <:+ i :: up) : a <:+ up := by
  by_cases ha : i :: up <:+ a
  · obtain ⟨x, rfl⟩ := ha
    rw [adopted_append] at h
    have hlength := h.length_le
    simp only [List.length_append, List.length_cons] at hlength
    omega
  · rw [adopted_of_not_suffix ha] at h
    rcases List.suffix_cons_iff.mp h with rfl | h
    · exact absurd (List.suffix_refl _) ha
    · exact h

theorem adopted_ne : adopted slot a ≠ slot := by
  by_cases ha : slot <:+ a
  · obtain ⟨x, rfl⟩ := ha
    rw [adopted_append]
    intro h
    have hlength := congrArg List.length h
    simp only [List.length_append, List.length_cons] at hlength
    omega
  · rw [adopted_of_not_suffix ha]
    rintro rfl
    exact ha (List.suffix_refl _)

end Address
end SiblingSwap
