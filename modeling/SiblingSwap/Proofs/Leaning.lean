import SiblingSwap.Proofs.Level

/-! Which way operators lean. An operator comes to rest below something that binds more loosely, and it is only ever
    adopted as a first child. Later a bracket may close the element above it, which then binds like a closing bracket
    and still more loosely than any operator. So among operators of one priority the inner one is the first child of the
    outer one, whatever the tokens are. -/

namespace SiblingSwap
namespace Node

theorem isChainLink_cons_iff {tree : Node} {i : Nat} {up : Address} :
    tree.isChainLink (i :: up) = true ↔ ∃ n parent, tree.at? (i :: up) = some n ∧ tree.at? up = some parent ∧
      n.role = .operator ∧ n.priority = parent.priority := by
  rw [isChainLink]
  split
  · next n parent hn hparent => simp [hn, hparent]
  · next hother =>
    refine iff_of_false Bool.false_ne_true ?_
    rintro ⟨n, parent, hn, hparent, -⟩
    exact hother n parent hn hparent

/-- The child, if it is an operator, binds more tightly than the parent. -/
def LooserThan (parent child : Node) : Prop := child.role = .operator → parent.priority < child.priority

/-- At every node each operator among the children but the first binds more tightly than the node. -/
inductive Leaning : Node → Prop
  | mk {n : Node} (later : ∀ c ∈ n.children.tail, n.LooserThan c) (children : ∀ c ∈ n.children, Leaning c) : Leaning n

namespace Leaning
variable {n m c : Node} {t : Token}

theorem later (h : Leaning n) : ∀ c ∈ n.children.tail, n.LooserThan c := by
  cases h
  assumption

theorem children (h : Leaning n) : ∀ c ∈ n.children, Leaning c := by
  cases h
  assumption

theorem at? (h : Leaning n) {a : Address} (hm : n.at? a = some m) : Leaning m :=
  inherited_at? (fun _ h => h.children) h hm

theorem of_under {ps : List Node} (h : Leaning (n.under ps)) : Leaning n := h.at? (at?_under n ps)

theorem root : Leaning root := ⟨by simp [Node.root], by simp [Node.root]⟩

theorem leaf (t : Token) : Leaning (.leaf t) := ⟨by simp [Node.leaf], by simp [Node.leaf]⟩

theorem push_iff : Leaning (n.push c) ↔ Leaning n ∧ Leaning c ∧ (n.children ≠ [] → n.LooserThan c) := by
  have htail : n.children ≠ [] → (n.push c).children.tail = n.children.tail ++ [c] :=
    List.tail_append_of_ne_nil
  constructor
  · intro h
    refine ⟨⟨fun d hd => ?_, fun d hd => h.children d (List.mem_append_left _ hd)⟩, h.children c (by simp),
      fun hne => ?_⟩
    · have hne : n.children ≠ [] := List.ne_nil_of_mem (List.mem_of_mem_tail hd)
      exact h.later d (by rw [htail hne]; exact List.mem_append_left _ hd)
    · exact h.later c (by rw [htail hne]; simp)
  · rintro ⟨hn, hc, hlast⟩
    refine ⟨fun d hd => ?_, List.forall_mem_append.mpr ⟨hn.children, by simpa using hc⟩⟩
    by_cases hne : n.children = []
    · simp [hne] at hd
    · rw [htail hne] at hd
      rcases List.mem_append.mp hd with hd | hd
      · exact hn.later d hd
      · exact List.mem_singleton.mp hd ▸ hlast hne

/-- A change of the last node of a spine, which stays in its place below the others. -/
theorem under {ps : List Node} (h : Leaning (n.under ps)) (hm : Leaning m)
    (hplace : ∀ p : Node, p.LooserThan n → p.LooserThan m) : Leaning (m.under ps) := by
  induction ps generalizing n m with
  | nil => exact hm
  | cons p ps ih =>
    obtain ⟨hp, -, hlast⟩ := push_iff.mp (of_under (n := p.push n) h)
    exact ih (n := p.push n) h (push_iff.mpr ⟨hp, hm, fun hne => hplace p (hlast hne)⟩) fun _ => id

theorem absorb (h : Leaning n) (ht : ∀ c ∈ n.children, c.role = .operator → t.priority < c.priority) :
    Leaning (n.absorb t) := by
  refine ⟨fun c hc hrole => ?_, h.children⟩
  have hpriority : (n.absorb t).priority = t.priority := by simp [Node.absorb, Node.priority]
  rw [hpriority]
  exact ht c (List.mem_of_mem_tail hc) hrole

theorem addChild (h : Leaning n) (ht : t.role ≠ .operator) : Leaning (n.addChild t) :=
  push_iff.mpr ⟨h, leaf t, fun _ hrole => absurd hrole ht⟩

theorem wrapLast (h : Leaning n) (ht : n.priority < t.priority) : Leaning (n.wrapLast t) := by
  obtain ⟨ts, cs⟩ := n
  rcases List.eq_nil_or_concat' cs with rfl | ⟨cs, c, rfl⟩
  · exact push_iff.mpr ⟨h, leaf t, fun _ _ => ht⟩
  · obtain ⟨hn, hc, -⟩ := (push_iff (n := ⟨ts, cs⟩)).mp h
    rw [wrapLast_concat]
    exact push_iff.mpr ⟨hn, push_iff.mpr ⟨leaf t, hc, fun hne => absurd rfl hne⟩, fun _ _ => ht⟩

/-- A link of a chain is the first child of the operator that continues the chain. -/
theorem eq_zero_of_isChainLink {tree : Node} (h : Leaning tree) {i : Nat} {up : Address}
    (hlink : tree.isChainLink (i :: up) = true) : i = 0 := by
  obtain ⟨n, parent, hn, hparent, hrole, hpriority⟩ := isChainLink_cons_iff.mp hlink
  cases i with
  | zero => rfl
  | succ i =>
    have hchild : parent.children.tail[i]? = some n := by simpa [Node.at?, hparent] using hn
    have hlt := (h.at? hparent).later n (List.mem_of_getElem? hchild) hrole
    exact absurd hpriority (Int.ne_of_gt hlt)

end Leaning
end Node

/-! ### Reading -/

namespace Spine
variable {s s' : Spine} {t : Token}

/-- An operator comes to rest below something that binds more loosely. -/
theorem Sound.priority_climb_lt (h : Sound s) {priority : Int} (hp : 0 < priority) :
    (s.climb priority).focus.priority < priority := by
  rcases climb_stops priority s with hroot | hlt
  · have htokens : (s.climb priority).focus.tokens = [] := by
      simpa [tree, hroot, Node.under] using (h.climbs (h.climbs_climb hp)).root
    have hpriority : (s.climb priority).focus.priority = rootPriority := by simp [Node.priority, htokens]
    exact hpriority ▸ Int.lt_trans (by decide) hp
  · exact hlt

/-- What a token does to a tree that leans to the left. A token that joins an element is no operator and makes none of
    it, and a bracket that closes one binds more loosely than all operators below. -/
theorem Reads.leaning (h : Reads s t s') (hs : Sound s) (ht : t.Classified)
    (hclassified : ∀ u ∈ s.tree.allTokens, u.Classified) (hl : s.tree.Leaning) : s'.tree.Leaning := by
  have joined : ∀ n p : Node, t.role ≠ .operator → p.LooserThan n → p.LooserThan (n.absorb t) := by
    intro n p hr _ hrole
    exact absurd (by simpa [Node.role, Node.absorb] using hrole) hr
  cases h with
  | drop => exact hl
  | join role focus =>
    refine hl.under (hl.of_under.absorb fun c hc => ?_) fun p => joined _ p (by rcases role with h | h <;> simp [h])
    rw [hs.leaf focus] at hc
    cases hc
  | append role =>
    rw [← hs.climbs_host.tree_eq] at hl
    exact hl.under (hl.of_under.addChild (by rcases role with h | h <;> simp [h])) fun _ => id
  | @close w role _ waiting =>
    have htree := (climbs_waiting? waiting).1.tree_eq
    rw [← htree] at hl hclassified
    refine hl.under (hl.of_under.absorb fun c hc hrole => ?_) fun p => joined _ p (by simp [role])
    have hchild : c.Classified := fun u hu => hclassified u
      (Node.mem_allTokens_under (Node.mem_allTokens_of_child hc (Node.mem_allTokens_of_mem_tokens hu)))
    exact Int.lt_of_le_of_lt (ht.priority_le_of_closer role) (hchild.lt_priority_of_operator hrole)
  | wrap role =>
    obtain ⟨hbracket, hclimb, -⟩ := hs.climbs_operator ht role
    rw [← hclimb.tree_eq] at hl
    have hlt := (hs.climbs hs.climbs_host).priority_climb_lt (ht.priority_pos hbracket)
    exact hl.under (hl.of_under.wrapLast hlt) fun _ => id

theorem leaning_ofTokens {ts : List Token} (hts : ∀ t ∈ ts, t.Classified) : (ofTokens ts).tree.Leaning := by
  refine ofTokens_induction (P := fun _ s => s.tree.Leaning) Node.Leaning.root ?_ hts
  intro ts t hinit ht hs ih
  exact (reads_add (ofTokens ts) ht).leaning hs ht (fun u hu => hinit u (mem_of_mem_ofTokens hinit u hu)) ih

end Spine

/-- After each token that is read, an operator that is not the first child of its parent binds more tightly than the
    parent; so the links of a chain are first children. -/
theorem Draft.operators_lean_left {ts : List Token} (hts : ∀ t ∈ ts, t.Classified) {read : List Token}
    (hread : read <+: ts) :
    let tree := (Draft.ofTokens read).tree
    (∀ i up n parent, tree.at? ((i + 1) :: up) = some n → tree.at? up = some parent → n.role = .operator →
      parent.priority < n.priority) ∧
    ∀ a, tree.isChainLink a = true → ∃ up, a = 0 :: up := by
  intro tree
  have hleaning : tree.Leaning := by
    have hclassified : ∀ t ∈ read, t.Classified := fun t ht => hts t (hread.mem ht)
    show (Draft.ofTokens read).tree.Leaning
    rw [Draft.ofTokens_eq hclassified]
    exact Spine.leaning_ofTokens hclassified
  refine ⟨fun i up n parent hn hparent => ?_, fun a ha => ?_⟩
  · have hchild : parent.children.tail[i]? = some n := by simpa [Node.at?, hparent] using hn
    exact (hleaning.at? hparent).later n (List.mem_of_getElem? hchild)
  · cases a with
    | nil => cases ha
    | cons i up => exact ⟨up, by rw [hleaning.eq_zero_of_isChainLink ha]⟩

/-- In `(x; y + z), b, c` the sum is the second child of the brackets, which bind more tightly once they are closed, and
    the first comma is a link of the chain of the second. -/
theorem Draft.operators_lean_left_of_statements :
    let ts : List Token := [.ofLexeme ['('] ⟨0, 1⟩, .ofLexeme ['x'] ⟨1, 2⟩, .ofLexeme [';'] ⟨2, 3⟩,
      .ofLexeme ['y'] ⟨4, 5⟩, .ofLexeme ['+'] ⟨6, 7⟩, .ofLexeme ['z'] ⟨8, 9⟩, .ofLexeme [')'] ⟨9, 10⟩,
      .ofLexeme [','] ⟨10, 11⟩, .ofLexeme ['b'] ⟨12, 13⟩, .ofLexeme [','] ⟨13, 14⟩, .ofLexeme ['c'] ⟨15, 16⟩]
    let tree := (Draft.ofTokens ts).tree
    (∃ n parent, tree.at? [1, 0, 0, 0] = some n ∧ tree.at? [0, 0, 0] = some parent ∧ parent.role = .closer ∧
      n.role = .operator ∧ parent.priority < n.priority) ∧
    tree.isChainLink [0, 0] = true ∧ ∃ up, [0, 0] = 0 :: up := by
  intro ts tree
  obtain ⟨htighter, hlinks⟩ := @operators_lean_left ts (by decide) ts (List.prefix_refl ts)
  have hlink : tree.isChainLink [0, 0] = true := by decide +kernel
  refine ⟨⟨_, _, rfl, rfl, rfl, rfl, htighter 0 [0, 0, 0] _ _ rfl rfl rfl⟩, hlink, hlinks _ hlink⟩

end SiblingSwap
