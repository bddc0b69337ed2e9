import Mathlib.Data.List.Induction
import SiblingSwap.Proofs.Address
import SiblingSwap.Proofs.Classified

/-! The right spine of a growing tree. A draft names places by addresses; but its focus is always the last child of the
    last child and so on down from the root, and the elements that wait for a bracket are ancestors of the focus, or the
    focus. A spine says so by its shape: it is the focus with its ancestors, each of which has lost the child that
    leads to the focus. Reading a token climbs along the spine and changes its lower end only. Main statement: a draft
    of classified tokens is the draft of their spine (`Draft.ofTokens_eq`). -/

namespace SiblingSwap

/-! ### Parents and the way down -/

namespace Node

@[simp]
theorem mk_tokens_children (n : Node) : (⟨n.tokens, n.children⟩ : Node) = n := by
  cases n
  rfl

/-- The node with one more child, its last. -/
def push (n c : Node) : Node := ⟨n.tokens, n.children ++ [c]⟩

@[simp]
theorem push_tokens (n c : Node) : (n.push c).tokens = n.tokens := rfl

@[simp]
theorem push_children (n c : Node) : (n.push c).children = n.children ++ [c] := rfl

/-- The closing bracket that an element waits for: its last token is an opening one. -/
def awaits? (n : Node) : Option (List Char) := n.tokens.getLast?.bind fun t => closerOf? t.text

@[simp]
theorem push_awaits? (n c : Node) : (n.push c).awaits? = n.awaits? := rfl

@[simp]
theorem absorb_awaits? (t : Token) (n : Node) : (n.absorb t).awaits? = closerOf? t.text := by
  simp [awaits?, absorb]

@[simp]
theorem leaf_awaits? (t : Token) : (leaf t).awaits? = closerOf? t.text := rfl

/-- The tree of a node and its ancestors, innermost first, each without the child that leads to the node. -/
def under (n : Node) : List Node → Node
  | [] => n
  | p :: ps => (p.push n).under ps

theorem under_append (n : Node) (ps qs : List Node) : n.under (ps ++ qs) = (n.under ps).under qs := by
  induction ps generalizing n with
  | nil => rfl
  | cons p ps ih => exact ih (p.push n)

end Node

/-- The address of a node below some ancestors, innermost first: it is the last child of each. -/
def Address.below (above : List Node) : Address := above.map (·.children.length)

namespace Node

theorem at?_under (n : Node) (above : List Node) : (n.under above).at? (Address.below above) = some n := by
  induction above generalizing n with
  | nil => rfl
  | cons p ps ih =>
    show ((p.push n).under ps).at? (p.children.length :: Address.below ps) = some n
    simp [at?, ih]

theorem modifyAt_under (n : Node) (above : List Node) (g : Node → Node) :
    (n.under above).modifyAt (Address.below above) g = (g n).under above := by
  induction above generalizing n g with
  | nil => rfl
  | cons p ps ih =>
    show ((p.push n).under ps).modifyAt (p.children.length :: Address.below ps) g = (p.push (g n)).under ps
    simp [modifyAt, ih, push, List.modify_eq_take_cons_drop]

end Node

/-! ### Spines -/

/-- A focus with its ancestors, innermost first. Each ancestor is without the child that leads to the focus, which is
    its last. -/
structure Spine where
  focus : Node
  above : List Node

namespace Spine

def empty : Spine := ⟨.root, []⟩

def tree (s : Spine) : Node := s.focus.under s.above

def address (s : Spine) : Address := .below s.above

/-- The brackets that the nodes on a way wait for, innermost first, with the addresses of those who wait. -/
def awaitedAlong : List Node → List (List Char × Address)
  | [] => []
  | n :: ps => n.awaits?.toList.map (·, Address.below ps) ++ awaitedAlong ps

def awaited (s : Spine) : List (List Char × Address) := awaitedAlong (s.focus :: s.above)

def toDraft (s : Spine) : Draft := ⟨s.tree, s.address, s.awaited⟩

/-! ### Reading a token -/

def up : Spine → Spine
  | ⟨n, p :: ps⟩ => ⟨p.push n, ps⟩
  | s => s

/-- A complete focus is left for its parent. -/
def host (s : Spine) : Spine := if s.focus.role.expectsMore then s else s.up

/-- The climb of a node over all that binds as tightly as `priority`. -/
def climbFrom (priority : Int) (n : Node) : List Node → Spine
  | [] => ⟨n, []⟩
  | p :: ps => if priority ≤ n.priority then climbFrom priority (p.push n) ps else ⟨n, p :: ps⟩

def climb (priority : Int) (s : Spine) : Spine := climbFrom priority s.focus s.above

/-- The closest of a node and its ancestors that waits for a bracket, in focus. -/
def waitingFrom (n : Node) : List Node → Option (List Char × Spine)
  | [] => n.awaits?.map (·, ⟨n, []⟩)
  | p :: ps =>
    match n.awaits? with
    | some closer => some (closer, ⟨n, p :: ps⟩)
    | none => waitingFrom (p.push n) ps

def waiting? (s : Spine) : Option (List Char × Spine) := waitingFrom s.focus s.above

/-- The token joins the focus. -/
def join (t : Token) (s : Spine) : Spine := ⟨s.focus.absorb t, s.above⟩

/-- The token becomes the last child of the focus. -/
def append (t : Token) (s : Spine) : Spine := ⟨.leaf t, s.focus :: s.above⟩

/-- The token takes the place of the last child of the focus and adopts it. -/
def wrap (t : Token) (s : Spine) : Spine :=
  ⟨⟨[t], s.focus.children.getLast?.toList⟩, ⟨s.focus.tokens, s.focus.children.dropLast⟩ :: s.above⟩

def addAtom (t : Token) (s : Spine) : Spine := if s.focus.role = .atom then s.join t else s.host.append t

def addOperator (t : Token) (s : Spine) : Spine := (s.host.climb t.priority).wrap t

def addCloser (t : Token) (s : Spine) : Spine :=
  if t.text = ['\n'] then
    if s.focus.role.expectsMore then s else s.addOperator t
  else
    match s.waiting? with
    | some (closer, w) => if closer = t.text then w.join t else s.addOperator t
    | none => s.addOperator t

def add (s : Spine) (t : Token) : Spine :=
  match t.role with
  | .atom | .opener => s.addAtom t
  | .closer => s.addCloser t
  | .operator => s.addOperator t

def ofTokens (ts : List Token) : Spine := ts.foldl add empty

/-! ### Climbing

Every move of the focus before a token is placed is a climb over elements that wait for nothing. -/

/-- The focus of `t` is that of `s` or an ancestor of it, and nothing below it on the spine waits for a bracket. -/
inductive Climbs : Spine → Spine → Prop
  | refl (s : Spine) : Climbs s s
  | up {n p : Node} {ps : List Node} {t : Spine} (free : n.awaits? = none) (rest : Climbs ⟨p.push n, ps⟩ t) :
    Climbs ⟨n, p :: ps⟩ t

namespace Climbs
variable {s t u : Spine}

theorem trans (h₁ : Climbs s t) (h₂ : Climbs t u) : Climbs s u := by
  induction h₁ with
  | refl => exact h₂
  | up free _ ih => exact .up free (ih h₂)

theorem tree_eq (h : Climbs s t) : t.tree = s.tree := by
  induction h with
  | refl => rfl
  | up _ _ ih => exact ih

theorem awaited_eq (h : Climbs s t) : t.awaited = s.awaited := by
  induction h with
  | refl => rfl
  | @up n p ps t free _ ih =>
    rw [ih]
    simp [awaited, awaitedAlong, free]

theorem waiting?_eq (h : Climbs s t) : t.waiting? = s.waiting? := by
  induction h with
  | refl => rfl
  | @up n p ps t free _ ih =>
    rw [ih]
    simp [waiting?, waitingFrom, free]

end Climbs

theorem climbs_waiting? {s w : Spine} {closer : List Char} (h : s.waiting? = some (closer, w)) :
    Climbs s w ∧ w.focus.awaits? = some closer := by
  obtain ⟨n, ps⟩ := s
  simp only [waiting?] at h
  induction ps generalizing n with
  | nil =>
    simp only [waitingFrom, Option.map_eq_some_iff, Prod.mk.injEq] at h
    obtain ⟨_, hc, rfl, rfl⟩ := h
    exact ⟨.refl _, hc⟩
  | cons p ps ih =>
    simp only [waitingFrom] at h
    split at h
    · next hc =>
      simp only [Option.some.injEq, Prod.mk.injEq] at h
      obtain ⟨rfl, rfl⟩ := h
      exact ⟨.refl _, hc⟩
    · next free =>
      obtain ⟨hclimb, hc⟩ := ih (p.push n) h
      exact ⟨.up free hclimb, hc⟩

theorem awaited_of_waiting? (s : Spine) :
    s.awaited = match s.waiting? with
      | some (closer, w) => (closer, w.address) :: awaitedAlong w.above
      | none => [] := by
  obtain ⟨n, ps⟩ := s
  simp only [waiting?]
  induction ps generalizing n with
  | nil => cases hc : n.awaits? <;> simp [waitingFrom, awaited, awaitedAlong, hc, address]
  | cons p ps ih =>
    cases hc : n.awaits? with
    | some closer => simp [waitingFrom, awaited, awaitedAlong, hc, address]
    | none =>
      rw [waitingFrom, hc]
      simp only
      rw [← ih, ← Climbs.awaited_eq (.up hc (.refl _))]

/-! ### What a spine of classified tokens keeps -/

end Spine

namespace Node
variable {n : Node}

def Classified (n : Node) : Prop := ∀ t ∈ n.tokens, t.Classified

theorem Classified.absorb (h : n.Classified) {t : Token} (ht : t.Classified) : (n.absorb t).Classified := by
  intro u hu
  rcases List.mem_append.mp hu with hu | hu
  · exact h u hu
  · exact List.mem_singleton.mp hu ▸ ht

theorem Classified.of_awaits? (h : n.Classified) {closer : List Char} (hc : n.awaits? = some closer) :
    n.role = .opener ∧ n.priority = 0 := by
  obtain ⟨t, ht, htc⟩ := Option.bind_eq_some_iff.mp hc
  have := (h t (List.mem_of_getLast? ht)).of_bracket htc
  simpa [role, priority, ht] using this

theorem Classified.awaits?_eq_none (h : n.Classified) (hr : n.role ≠ .opener) : n.awaits? = none := by
  cases hc : n.awaits? with
  | none => rfl
  | some closer => exact absurd (h.of_awaits? hc).1 hr

theorem Classified.operator_iff (h : n.Classified) : n.role = .operator ↔ n.priority ∈ operatorPriorities := by
  cases hlast : n.tokens.getLast? with
  | none =>
    simp only [role, priority, hlast, Option.map_none, Option.getD_none]
    decide
  | some t =>
    simpa [role, priority, hlast] using (h t (List.mem_of_getLast? hlast)).operator_iff

/-- Nothing but an operator binds like one. -/
theorem Classified.priority_ne (hn : n.Classified) {m : Node} (hm : m.Classified) (hr : n.role ≠ .operator)
    (hrole : m.role = .operator) : n.priority ≠ m.priority :=
  fun heq => hr (hn.operator_iff.mpr (heq ▸ hm.operator_iff.mp hrole))

end Node

namespace Spine

/-- The elements on the spine are classified, and every ancestor of the focus expects more. There is nothing below words
    in focus. The root has no token. -/
structure Sound (s : Spine) : Prop where
  focus : s.focus.Classified
  leaf : s.focus.role = .atom → s.focus.children = []
  above : ∀ p ∈ s.above, p.Classified
  expecting : ∀ p ∈ s.above, p.role.expectsMore
  root : s.tree.tokens = []

theorem sound_empty : Sound empty where
  focus _ ht := by cases ht
  leaf _ := rfl
  above _ hp := by cases hp
  expecting _ hp := by cases hp
  root := rfl

namespace Sound
variable {s t : Spine}

theorem climbs (h : Sound s) (hc : Climbs s t) : Sound t := by
  induction hc with
  | refl => exact h
  | @up n p ps t _ _ ih =>
    refine ih ⟨h.above p (by simp), fun hatom => ?_, fun q hq => h.above q (by simp [hq]),
      fun q hq => h.expecting q (by simp [hq]), h.root⟩
    have hmore := h.expecting p (by simp)
    rw [show p.role = .atom from hatom] at hmore
    cases hmore

theorem expectsMore_of_above_eq_nil (h : Sound s) (hs : s.above = []) : s.focus.role.expectsMore := by
  have hroot := h.root
  rw [tree, hs] at hroot
  have htokens : s.focus.tokens = [] := hroot
  simp [Node.role, htokens, Role.expectsMore]

theorem expectsMore_host (h : Sound s) : s.host.focus.role.expectsMore := by
  unfold host
  split
  · assumption
  · next hmore =>
    obtain ⟨n, ps⟩ := s
    cases ps with
    | nil => exact absurd (h.expectsMore_of_above_eq_nil rfl) hmore
    | cons p ps => exact h.expecting p (by simp)

theorem climbs_host (h : Sound s) : Climbs s s.host := by
  unfold host
  split
  · exact .refl s
  · next hmore =>
    obtain ⟨n, ps⟩ := s
    cases ps with
    | nil => exact .refl _
    | cons p ps =>
      have hrole : n.role ≠ .opener := fun hr => hmore (by simp [hr, Role.expectsMore])
      exact .up (h.focus.awaits?_eq_none hrole) (.refl _)

theorem climbs_climb (h : Sound s) {priority : Int} (hp : 0 < priority) : Climbs s (s.climb priority) := by
  obtain ⟨n, ps⟩ := s
  simp only [climb]
  induction ps generalizing n with
  | nil => exact .refl _
  | cons p ps ih =>
    unfold climbFrom
    split
    · next hle =>
      -- Brackets bind most loosely, so whoever waits for one is not climbed over.
      have free : n.awaits? = none := by
        cases hc : n.awaits? with
        | none => rfl
        | some closer =>
          have := (h.focus.of_awaits? hc).2
          simp only at this
          omega
      exact .up free (ih (p.push n) (h.climbs (.up free (.refl _))))
    · exact .refl _

theorem expectsMore_climbs (h : Sound s) (hc : Climbs s t) (hs : s.focus.role.expectsMore) :
    t.focus.role.expectsMore := by
  induction hc with
  | refl => exact hs
  | @up n p ps t free _ ih =>
    exact ih (h.climbs (.up free (.refl _))) (h.expecting p (by simp))

/-- The place of an operator: no bracket is passed on the way to it, and what it becomes a child of expects more. -/
theorem climbs_operator (h : Sound s) {u : Token} (hu : u.Classified) (hrole : u.role = .operator ∨ u.role = .closer) :
    closerOf? u.text = none ∧ Climbs s (s.host.climb u.priority) ∧
      (s.host.climb u.priority).focus.role.expectsMore := by
  have hbracket : closerOf? u.text = none := hu.closerOf?_eq_none (by rcases hrole with h | h <;> simp [h])
  have hhost := h.climbs h.climbs_host
  have hclimb := hhost.climbs_climb (hu.priority_pos hbracket)
  exact ⟨hbracket, h.climbs_host.trans hclimb, hhost.expectsMore_climbs hclimb h.expectsMore_host⟩

end Sound

/-! ### What a token does -/

/-- What a spine becomes when it reads a token: the five things that can happen, each with what brings it about. -/
inductive Reads (s : Spine) (t : Token) : Spine → Prop
  | drop (line : t.text = ['\n']) (more : s.focus.role.expectsMore) : Reads s t s
  | join (role : t.role = .atom ∨ t.role = .opener) (focus : s.focus.role = .atom) : Reads s t (s.join t)
  | append (role : t.role = .atom ∨ t.role = .opener) (focus : s.focus.role ≠ .atom) : Reads s t (s.host.append t)
  | close {w : Spine} (role : t.role = .closer) (line : t.text ≠ ['\n']) (waiting : s.waiting? = some (t.text, w)) :
    Reads s t (w.join t)
  | wrap (role : t.role = .operator ∨ t.role = .closer) (kept : t.text = ['\n'] → ¬s.focus.role.expectsMore)
      (other : t.role = .closer → t.text ≠ ['\n'] → ∀ w, s.waiting? ≠ some (t.text, w)) :
    Reads s t (s.addOperator t)

theorem reads_add (s : Spine) {t : Token} (ht : t.Classified) : Reads s t (s.add t) := by
  unfold add
  split
  · next hr =>
    unfold addAtom
    split
    · next hf => exact .join (Or.inl hr) hf
    · next hf => exact .append (Or.inl hr) hf
  · next hr =>
    unfold addAtom
    split
    · next hf => exact .join (Or.inr hr) hf
    · next hf => exact .append (Or.inr hr) hf
  · next hr =>
    unfold addCloser
    split
    · next hline =>
      split
      · next hmore => exact .drop hline hmore
      · next hmore => exact .wrap (Or.inr hr) (fun _ => hmore) (fun _ h => absurd hline h)
    · next hline =>
      split
      · next closer w hw =>
        split
        · next heq => exact .close hr hline (heq ▸ hw)
        · next hne =>
          refine .wrap (Or.inr hr) (fun h => absurd h hline) (fun _ _ w' hw' => hne ?_)
          rw [hw] at hw'
          simp only [Option.some.injEq, Prod.mk.injEq] at hw'
          exact hw'.1
      · next hw => exact .wrap (Or.inr hr) (fun h => absurd h hline) (fun _ _ w' hw' => by simp [hw] at hw')
  · next hr =>
    refine .wrap (Or.inl hr) (fun hline => ?_) (fun h => by simp [hr] at h)
    have := (ht.of_stop (Or.inr hline)).1
    simp [hr] at this

theorem tokens_under_cons (n m p : Node) (ps : List Node) (hm : m.tokens = p.tokens) :
    (n.under (p :: ps)).tokens = (m.under ps).tokens := by
  induction ps generalizing n m p with
  | nil => exact hm.symm
  | cons q qs ih =>
    rw [Node.under, ih _ (q.push m) q rfl]
    rfl

namespace Reads
variable {s s' : Spine} {t : Token}

theorem sound (h : Reads s t s') (hs : Sound s) (ht : t.Classified) : Sound s' := by
  have single : (⟨[t], []⟩ : Node).Classified := fun u hu => List.mem_singleton.mp hu ▸ ht
  -- A token joins no root: a root is no word and waits for nothing.
  have joined : ∀ {w : Spine}, Sound w → w.focus.tokens ≠ [] → (t.role = .atom → w.focus.children = []) →
      Sound (w.join t) := by
    intro w hw hne hleaf
    refine ⟨hw.focus.absorb ht, fun hatom => hleaf ?_, hw.above, hw.expecting, ?_⟩
    · simpa [Spine.join, Node.role, Node.absorb] using hatom
    obtain ⟨n, ps⟩ := w
    cases ps with
    | nil => exact absurd hw.root hne
    | cons p ps => exact (tokens_under_cons _ (p.push n) p ps rfl).trans hw.root
  cases h with
  | drop => exact hs
  | join _ hf =>
    refine joined hs (fun hnil => ?_) fun _ => hs.leaf hf
    simp [Node.role, hnil] at hf
  | append =>
    have hh := hs.climbs hs.climbs_host
    refine ⟨single, fun _ => rfl, ?_, ?_, (tokens_under_cons _ _ _ _ rfl).trans hh.root⟩
    · exact List.forall_mem_cons.mpr ⟨hh.focus, hh.above⟩
    · exact List.forall_mem_cons.mpr ⟨hs.expectsMore_host, hh.expecting⟩
  | @close w role _ hw =>
    obtain ⟨hc, ha⟩ := climbs_waiting? hw
    refine joined (hs.climbs hc) (fun hnil => ?_) fun hatom => by simp [role] at hatom
    simp [Node.awaits?, hnil] at ha
  | wrap role =>
    obtain ⟨-, hclimb, hmore⟩ := hs.climbs_operator ht role
    have hh := hs.climbs hclimb
    refine ⟨single, fun hatom => ?_, ?_, ?_,
      (tokens_under_cons _ (s.host.climb t.priority).focus ⟨_, _⟩ _ rfl).trans hh.root⟩
    · have hatom : t.role = .atom := hatom
      rcases role with h | h <;> simp [h] at hatom
    · exact List.forall_mem_cons.mpr ⟨hh.focus, hh.above⟩
    · exact List.forall_mem_cons.mpr ⟨hmore, hh.expecting⟩

/-- What a token does to the whole tree: nothing, or one of three things to one node of the spine. -/
theorem tree_cases (h : Reads s t s') (hs : Sound s) (ht : t.Classified) :
    s'.tree = s.tree ∨ ∃ (n : Node) (ps : List Node), s.tree = n.under ps ∧
      (s'.tree = (n.absorb t).under ps ∧ n.tokens ≠ [] ∨ s'.tree = (n.addChild t).under ps ∨
        s'.tree = (n.wrapLast t).under ps) := by
  cases h with
  | drop => exact Or.inl rfl
  | join _ hf =>
    refine Or.inr ⟨s.focus, s.above, rfl, Or.inl ⟨rfl, fun hnil => ?_⟩⟩
    simp [Node.role, hnil] at hf
  | append => exact Or.inr ⟨s.host.focus, s.host.above, hs.climbs_host.tree_eq.symm, Or.inr (Or.inl rfl)⟩
  | @close w _ _ hw =>
    obtain ⟨hc, ha⟩ := climbs_waiting? hw
    refine Or.inr ⟨w.focus, w.above, hc.tree_eq.symm, Or.inl ⟨rfl, fun hnil => ?_⟩⟩
    simp [Node.awaits?, hnil] at ha
  | wrap role =>
    obtain ⟨-, hc, -⟩ := hs.climbs_operator ht role
    exact Or.inr ⟨(s.host.climb t.priority).focus, _, hc.tree_eq.symm, Or.inr (Or.inr rfl)⟩

end Reads

/-! ### Spines and drafts -/

section Draft
variable {s w : Spine} {t : Token}

theorem focused_toDraft (s : Spine) : s.toDraft.focused = s.focus := by
  show (s.tree.at? s.address).getD .root = s.focus
  rw [tree, address, Node.at?_under]
  rfl

theorem address_up (s : Spine) : s.up.address = s.address.tail := by
  obtain ⟨n, _ | ⟨p, ps⟩⟩ := s <;> rfl

theorem host_toDraft (s : Spine) : s.toDraft.host = s.host.address := by
  unfold Draft.host host
  rw [focused_toDraft]
  split
  · rfl
  · exact (address_up s).symm

theorem looserAt_address (priority : Int) (s : Spine) :
    Draft.looserAt s.tree priority s.address = (s.climb priority).address := by
  obtain ⟨n, ps⟩ := s
  simp only [climb]
  induction ps generalizing n with
  | nil => rfl
  | cons p ps ih =>
    have hat : (n.under (p :: ps)).at? (p.children.length :: Address.below ps) = some n := Node.at?_under n (p :: ps)
    show Draft.looserAt (n.under (p :: ps)) priority (p.children.length :: Address.below ps) = _
    rw [Draft.looserAt, hat, Option.getD_some, climbFrom]
    split
    · exact ih (p.push n)
    · rfl

theorem width_toDraft (h : w.tree = s.tree) : s.toDraft.width w.address = w.focus.children.length := by
  show ((s.tree.at? w.address).getD .root).children.length = _
  rw [← h, tree, address, Node.at?_under]
  rfl

theorem address_suffix_of_mem_awaitedAlong {path : List Node} {closer : List Char} {a : Address}
    (h : (closer, a) ∈ awaitedAlong path) : a <:+ Address.below path.tail := by
  induction path with
  | nil => cases h
  | cons n ps ih =>
    rcases List.mem_append.mp h with h | h
    · obtain ⟨_, -, heq⟩ := List.mem_map.mp h
      simp only [Prod.mk.injEq] at heq
      rw [← heq.2]
      exact List.suffix_refl _
    · cases ps with
      | nil => cases h
      | cons p ps => exact (ih h).trans (List.suffix_cons _ _)

theorem address_suffix_of_mem_awaited {closer : List Char} {a : Address} (h : (closer, a) ∈ s.awaited) :
    a <:+ s.address :=
  address_suffix_of_mem_awaitedAlong h

/-- Nobody who waits for a bracket is moved by a newcomer below the focus. -/
theorem adopted_awaited (s : Spine) (i : Nat) :
    (s.awaited.map fun (closer, a) => (closer, Address.adopted (i :: s.address) a)) = s.awaited := by
  have kept : ∀ x ∈ s.awaited, (x.1, Address.adopted (i :: s.address) x.2) = x := by
    rintro ⟨closer, a⟩ hx
    have hlen := (address_suffix_of_mem_awaited hx).length_le
    rw [Address.adopted_of_length_lt (by simpa using Nat.lt_succ_of_le hlen)]
  exact (List.map_congr_left kept).trans (List.map_id' _)

theorem modifyAt_address (h : w.tree = s.tree) (g : Node → Node) :
    s.tree.modifyAt w.address g = (g w.focus).under w.above := by
  rw [← h]
  exact Node.modifyAt_under w.focus w.above g

theorem toDraft_join (h : w.tree = s.tree) (t : Token) :
    (w.join t).toDraft = ⟨s.tree.modifyAt w.address (·.absorb t), w.address, (w.join t).awaited⟩ := by
  rw [modifyAt_address h]
  rfl

theorem toDraft_append (h : w.tree = s.tree) (t : Token) :
    (w.append t).toDraft =
      ⟨s.tree.modifyAt w.address (·.addChild t), s.toDraft.width w.address :: w.address, (w.append t).awaited⟩ := by
  rw [modifyAt_address h, width_toDraft h]
  rfl

theorem toDraft_wrap (h : w.tree = s.tree) (t : Token) :
    (w.wrap t).toDraft =
      ⟨s.tree.modifyAt w.address (·.wrapLast t), (s.toDraft.width w.address - 1) :: w.address, (w.wrap t).awaited⟩ := by
  rw [modifyAt_address h, width_toDraft h, ← List.length_dropLast]
  rfl

theorem awaited_join (s : Spine) (t : Token) :
    (s.join t).awaited = (closerOf? t.text).toList.map (·, s.address) ++ awaitedAlong s.above := by
  simp [awaited, awaitedAlong, join, address]

theorem awaited_append (s : Spine) (t : Token) :
    (s.append t).awaited = (closerOf? t.text).toList.map (·, (s.append t).address) ++ s.awaited := by
  simp [awaited, awaitedAlong, append, address]

theorem awaited_wrap (s : Spine) {t : Token} (ht : closerOf? t.text = none) : (s.wrap t).awaited = s.awaited := by
  simp [awaited, awaitedAlong, wrap, Node.awaits?, ht]

theorem toDraft_addOperator (hs : Sound s) (ht : t.Classified) (hr : t.role = .operator ∨ t.role = .closer) :
    (s.addOperator t).toDraft = s.toDraft.addOperator t := by
  obtain ⟨hb, hc, -⟩ := hs.climbs_operator ht hr
  have hparent : Draft.looserAt s.tree t.priority s.toDraft.host = (s.host.climb t.priority).address := by
    rw [host_toDraft, ← hs.climbs_host.tree_eq, looserAt_address]
  rw [addOperator, toDraft_wrap hc.tree_eq, awaited_wrap _ hb]
  unfold Draft.addOperator
  simp only [toDraft] at hparent ⊢
  rw [hparent]
  simp only [Draft.mk.injEq, true_and]
  rw [← hc.awaited_eq]
  exact (adopted_awaited _ _).symm

theorem toDraft_addAtom (hs : Sound s) (t : Token) :
    (s.addAtom t).toDraft =
      { s.toDraft.addAtom t with
        awaited := (closerOf? t.text).toList.map (·, (s.toDraft.addAtom t).focus) ++ s.toDraft.awaited } := by
  unfold addAtom Draft.addAtom
  rw [focused_toDraft]
  split
  · next hf =>
    have free : s.focus.awaits? = none := hs.focus.awaits?_eq_none (by simp [hf])
    rw [toDraft_join (s := s) rfl, awaited_join]
    simp [Draft.join, toDraft, awaited, awaitedAlong, free]
  · have hc := hs.climbs_host
    rw [toDraft_append hc.tree_eq, awaited_append, hc.awaited_eq, Draft.append, host_toDraft, width_toDraft hc.tree_eq]
    rfl

theorem toDraft_addCloser (hs : Sound s) (ht : t.Classified) (hr : t.role = .closer) :
    (s.addCloser t).toDraft = s.toDraft.addCloser t := by
  have hop := toDraft_addOperator hs ht (Or.inr hr)
  unfold addCloser Draft.addCloser
  rw [focused_toDraft]
  split
  · split
    · rfl
    · exact hop
  · have hawaited := awaited_of_waiting? s
    cases hw : s.waiting? with
    | none =>
      rw [hw] at hawaited
      simp only [toDraft, hawaited] at hop ⊢
      exact hop
    | some cw =>
      obtain ⟨closer, w⟩ := cw
      rw [hw] at hawaited
      simp only at hawaited
      have htree := (climbs_waiting? hw).1.tree_eq
      have hnone : closerOf? t.text = none := ht.closerOf?_eq_none (by simp [hr])
      simp only [toDraft, hawaited] at hop ⊢
      split
      · have hjoin := toDraft_join htree t
        rw [awaited_join, hnone] at hjoin
        simpa [Draft.join, toDraft] using hjoin
      · exact hop

/-- Reading a token means the same for a spine and for its draft. -/
theorem toDraft_add (hs : Sound s) (ht : t.Classified) : (s.add t).toDraft = s.toDraft.add t := by
  unfold add Draft.add
  have hatom := toDraft_addAtom hs t
  cases hr : t.role with
  | atom =>
    simp only
    rw [hatom, ht.closerOf?_eq_none (by simp [hr])]
    unfold Draft.addAtom
    split <;> rfl
  | opener =>
    simp only
    rw [hatom, Draft.addOpener]
    have hsame : (s.toDraft.addAtom t).awaited = s.toDraft.awaited := by
      unfold Draft.addAtom
      split <;> rfl
    cases hb : closerOf? t.text with
    | none => simp [← hsame]
    | some closer => simp [hsame]
  | closer => exact toDraft_addCloser hs ht hr
  | operator => exact toDraft_addOperator hs ht (Or.inl hr)

theorem focus_add_toDraft (hs : Sound s) (ht : t.Classified) : (s.toDraft.add t).focus = (s.add t).address := by
  rw [← toDraft_add hs ht]
  rfl

end Draft

/-! ### Whole runs -/

theorem ofTokens_concat (ts : List Token) (t : Token) : ofTokens (ts ++ [t]) = (ofTokens ts).add t := by
  simp [ofTokens]

/-- What holds before anything is read, and is kept by each classified token, holds of all that is read. -/
theorem ofTokens_induction {P : List Token → Spine → Prop} (nil : P [] empty)
    (concat : ∀ ts t, (∀ u ∈ ts, u.Classified) → t.Classified → Sound (ofTokens ts) → P ts (ofTokens ts) →
      P (ts ++ [t]) ((ofTokens ts).add t))
    {ts : List Token} (hts : ∀ t ∈ ts, t.Classified) : P ts (ofTokens ts) := by
  suffices hboth : Sound (ofTokens ts) ∧ P ts (ofTokens ts) from hboth.2
  induction ts using List.reverseRecOn with
  | nil => exact ⟨sound_empty, nil⟩
  | append_singleton ts t ih =>
    have hinit : ∀ u ∈ ts, u.Classified := fun u hu => hts u (by simp [hu])
    have ht := hts t (by simp)
    obtain ⟨hs, hp⟩ := ih hinit
    rw [ofTokens_concat]
    exact ⟨(reads_add _ ht).sound hs ht, concat ts t hinit ht hs hp⟩

theorem sound_ofTokens {ts : List Token} (hts : ∀ t ∈ ts, t.Classified) : Sound (ofTokens ts) :=
  ofTokens_induction (P := fun _ s => Sound s) sound_empty
    (fun _ _ _ ht hs _ => (reads_add _ ht).sound hs ht) hts

theorem toDraft_ofTokens {ts : List Token} (hts : ∀ t ∈ ts, t.Classified) :
    (ofTokens ts).toDraft = Draft.ofTokens ts := by
  refine ofTokens_induction (P := fun ts s => s.toDraft = Draft.ofTokens ts) rfl ?_ hts
  intro ts t _ ht hs ih
  rw [toDraft_add hs ht, ih]
  simp [Draft.ofTokens]

end Spine

theorem Draft.ofTokens_eq {ts : List Token} (hts : ∀ t ∈ ts, t.Classified) :
    Draft.ofTokens ts = (Spine.ofTokens ts).toDraft :=
  (Spine.toDraft_ofTokens hts).symm

theorem Node.ofTokens_eq {ts : List Token} (hts : ∀ t ∈ ts, t.Classified) :
    Node.ofTokens ts = (Spine.ofTokens ts).tree := by
  rw [Node.ofTokens, Draft.ofTokens_eq hts]
  rfl

end SiblingSwap
