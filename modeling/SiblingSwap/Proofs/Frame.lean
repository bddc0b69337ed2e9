import SiblingSwap.Proofs.Contiguity
import SiblingSwap.Proofs.Precedence

/-! The lower end of a spine, taken by itself. A token that is read either finds its place among the lowest elements of
    the spine, and then those above play no part, or it leaves them, and then they are one complete child of the
    element above. So a run of tokens that never leaves what it has built builds the same under every element it may
    start under. -/

namespace SiblingSwap

/-! ### Brackets and priorities -/

theorem Token.Classified.priority_of_closing {t : Token} (h : t.Classified) {text : List Char}
    (hc : closerOf? text = some t.text) : t.priority = 1 := by
  rw [h.2]
  rcases closerOf?_eq_some hc with ⟨-, ht⟩ | ⟨-, ht⟩ | ⟨-, ht⟩ <;> rw [ht] <;> decide

theorem Token.Classified.priority_nonneg {t : Token} (h : t.Classified) : 0 ≤ t.priority := by
  cases hc : closerOf? t.text with
  | none => exact Int.le_of_lt (h.priority_pos hc)
  | some closer => exact Int.le_of_eq (h.of_bracket hc).2.symm

namespace Node
variable {n : Node} {t : Token}

theorem Classified.priority_pos (h : n.Classified) (hne : n.tokens ≠ []) (hfree : n.awaits? = none) :
    0 < n.priority := by
  obtain ⟨u, hu⟩ := Option.isSome_iff_exists.mp (List.getLast?_isSome.mpr hne)
  have hc : closerOf? u.text = none := by simpa [awaits?, hu] using hfree
  simpa [priority, hu] using (h u (List.mem_of_getLast? hu)).priority_pos hc

/-- A closing bracket that is awaited is no line break, and no operator. -/
theorem awaits?_ne {closer : List Char} (h : n.awaits? = some closer) (ht : t.Classified)
    (hr : t.role ≠ .closer ∨ t.text = ['\n']) : closer ≠ t.text := by
  rintro rfl
  obtain ⟨u, -, hu⟩ := Option.bind_eq_some_iff.mp h
  obtain ⟨hrole, hline⟩ := ht.of_closing hu
  exact hr.elim (fun hr => hr hrole) hline

/-- The token takes the place of a last child of the node and adopts it. -/
def Admits (n : Node) (t : Token) : Prop :=
  (t.role = .operator ∨ t.role = .closer) ∧ n.priority < t.priority ∧ n.awaits? ≠ some t.text

end Node

namespace Spine
variable {f g q s : Spine} {t : Token} {p : Node} {ps : List Node}

/-! ### Reading at the lower end -/

/-- The spine with further ancestors above it. -/
def on (f : Spine) (ps : List Node) : Spine := ⟨f.focus, f.above ++ ps⟩

/-- The host of a newcomer, unless it lies further up. -/
def host? (f : Spine) : Option Spine :=
  if f.focus.role.expectsMore then some f
  else match f.above with
    | [] => none
    | p :: ps => some ⟨p.push f.focus, ps⟩

/-- The closest of a node and its ancestors that binds more loosely than `priority`, in focus. -/
def looser? (priority : Int) (n : Node) : List Node → Option Spine
  | [] => if priority ≤ n.priority then none else some ⟨n, []⟩
  | p :: ps => if priority ≤ n.priority then looser? priority (p.push n) ps else some ⟨n, p :: ps⟩

/-- The token adopts the last child of the closest element that binds more loosely. -/
def place? (t : Token) (q : Spine) : Option Spine := (looser? t.priority q.focus q.above).map (wrap t)

/-- What a token does that follows a complete element below the focus. -/
def after (t : Token) (q : Spine) : Option Spine :=
  match t.role with
  | .atom | .opener => some (q.append t)
  | .operator => q.place? t
  | .closer =>
    match q.waiting? with
    | some (closer, w) => if closer = t.text then some (w.join t) else q.place? t
    | none => q.place? t

/-- What a token does, unless that happens further up. -/
def within (f : Spine) (t : Token) : Option Spine :=
  if t.role = .closer ∧ t.text = ['\n'] ∧ f.focus.role.expectsMore then some f
  else if (t.role = .atom ∨ t.role = .opener) ∧ f.focus.role = .atom then some (f.join t)
  else f.host?.bind (after t)

@[simp]
theorem tree_on (f : Spine) (ps : List Node) : (f.on ps).tree = f.tree.under ps :=
  Node.under_append f.focus f.above ps

/-! ### Further up -/

theorem looser?_append (priority : Int) (n : Node) (qs : List Node) :
    looser? priority n (qs ++ p :: ps) =
      match looser? priority n qs with
      | some w => some (w.on (p :: ps))
      | none => looser? priority (p.push (n.under qs)) ps := by
  induction qs generalizing n with
  | nil =>
    show looser? priority n (p :: ps) = _
    simp only [looser?]
    split <;> rfl
  | cons q qs ih =>
    show looser? priority n (q :: (qs ++ p :: ps)) = _
    simp only [looser?]
    split
    · exact ih (q.push n)
    · rfl

theorem place?_on (t : Token) (q : Spine) :
    (q.on (p :: ps)).place? t =
      match q.place? t with
      | some w => some (w.on (p :: ps))
      | none => place? t ⟨p.push q.tree, ps⟩ := by
  simp only [place?, on, looser?_append]
  cases looser? t.priority q.focus q.above with
  | none => rfl
  | some w => rfl

theorem waitingFrom_append (n : Node) (qs : List Node) :
    waitingFrom n (qs ++ p :: ps) =
      match waitingFrom n qs with
      | some (closer, w) => some (closer, w.on (p :: ps))
      | none => waitingFrom (p.push (n.under qs)) ps := by
  induction qs generalizing n with
  | nil =>
    show waitingFrom n (p :: ps) = _
    cases hc : n.awaits? <;> simp [waitingFrom, hc, on, Node.under]
  | cons q qs ih =>
    show waitingFrom n (q :: (qs ++ p :: ps)) = _
    cases hc : n.awaits? with
    | none =>
      simp only [waitingFrom, hc]
      exact ih (q.push n)
    | some closer => simp [waitingFrom, hc, on]

theorem waiting?_on (q : Spine) :
    (q.on (p :: ps)).waiting? =
      match q.waiting? with
      | some (closer, w) => some (closer, w.on (p :: ps))
      | none => waiting? ⟨p.push q.tree, ps⟩ :=
  waitingFrom_append q.focus q.above

/-- Elements of classified tokens, each of which has some. -/
def Piece (f : Spine) : Prop := ∀ n ∈ f.focus :: f.above, n.Classified ∧ n.tokens ≠ []

theorem Piece.up {n : Node} (h : Piece ⟨n, p :: ps⟩) : Piece ⟨p.push n, ps⟩ := by
  intro m hm
  rcases List.mem_cons.mp hm with rfl | hm
  · exact h p (by simp)
  · exact h m (by simp [hm])

theorem looser?_eq_none_iff {priority : Int} {n : Node} {qs : List Node} :
    looser? priority n qs = none ↔ ∀ m ∈ n :: qs, priority ≤ m.priority := by
  induction qs generalizing n with
  | nil => simp [looser?]
  | cons q qs ih =>
    have hq : (q.push n).priority = q.priority := rfl
    simp only [looser?]
    split
    · next hle => simp [ih, hle, hq]
    · next hlt => simp [hlt]

theorem waitingFrom_eq_none_iff {n : Node} {qs : List Node} :
    waitingFrom n qs = none ↔ ∀ m ∈ n :: qs, m.awaits? = none := by
  induction qs generalizing n with
  | nil => simp [waitingFrom]
  | cons q qs ih =>
    cases hc : n.awaits? with
    | none => simp [waitingFrom, hc, ih]
    | some closer => simp [waitingFrom, hc]

theorem after_on (hq : q.Piece) (ht : t.Classified) :
    (q.on (p :: ps)).after t =
      match q.after t with
      | some w => some (w.on (p :: ps))
      | none => after t ⟨p.push q.tree, ps⟩ := by
  unfold after
  cases hr : t.role with
  | atom | opener => rfl
  | operator => exact place?_on t q
  | closer =>
    simp only [waiting?_on, place?_on]
    cases hw : q.waiting? with
    | some x =>
      obtain ⟨closer, w⟩ := x
      simp only
      split
      · rfl
      · -- Whoever waits for a bracket is not climbed over.
        cases hplace : q.place? t with
        | some w => rfl
        | none =>
          have hle := looser?_eq_none_iff.mp (Option.map_eq_none_iff.mp hplace)
          have hfree : q.waiting? = none := waitingFrom_eq_none_iff.mpr fun m hm => by
            cases hc : m.awaits? with
            | none => rfl
            | some closer =>
              have hpos := ht.priority_pos (ht.closerOf?_eq_none (by simp [hr]))
              have hzero := ((hq m hm).1.of_awaits? hc).2
              have := hle m hm
              omega
          simp [hfree] at hw
    | none =>
      simp only
      cases hplace : q.place? t with
      | none => rfl
      | some w =>
        simp only
        split
        · next closer w' hw' =>
          -- A closing bracket leaves all who wait for none.
          split
          · next heq =>
            obtain ⟨u, -, hu⟩ := Option.bind_eq_some_iff.mp (climbs_waiting? hw').2
            have hone := ht.priority_of_closing (heq ▸ hu)
            have hnone : q.place? t = none := by
              refine Option.map_eq_none_iff.mpr (looser?_eq_none_iff.mpr fun m hm => ?_)
              have := (hq m hm).1.priority_pos (hq m hm).2 (waitingFrom_eq_none_iff.mp hw m hm)
              omega
            simp [hnone] at hplace
          · rfl
        · rfl

theorem within_on (hf : f.Piece) (ht : t.Classified) :
    (f.on (p :: ps)).within t =
      match f.within t with
      | some g => some (g.on (p :: ps))
      | none => after t ⟨p.push f.tree, ps⟩ := by
  have hfocus : (f.on (p :: ps)).focus = f.focus := rfl
  unfold within
  rw [hfocus]
  split
  · rfl
  split
  · rfl
  obtain ⟨n, qs⟩ := f
  cases hmore : n.role.expectsMore with
  | true =>
    simp only [host?, hfocus, hmore, ↓reduceIte, Option.bind_some]
    exact after_on hf ht
  | false =>
    cases qs with
    | nil => simp [host?, hmore, on, tree, Node.under]
    | cons q qs =>
      simp only [host?, hmore, on, List.cons_append, Bool.false_eq_true, ↓reduceIte, Option.bind_some]
      exact after_on (q := ⟨q.push n, qs⟩) hf.up ht

/-! ### Whole spines

A whole spine ends at the root, which every token stays below. -/

theorem looser?_eq_climbFrom {priority : Int} {n : Node} {qs : List Node} (h : (n.under qs).priority < priority) :
    looser? priority n qs = some (climbFrom priority n qs) := by
  induction qs generalizing n with
  | nil =>
    have h : n.priority < priority := h
    simp [looser?, climbFrom, h]
  | cons q qs ih =>
    simp only [looser?, climbFrom]
    split
    · exact ih (n := q.push n) h
    · rfl

theorem Sound.place?_eq (hs : Sound s) (ht : t.Classified) : s.place? t = some ((s.climb t.priority).wrap t) := by
  have hroot : s.tree.priority = rootPriority := by simp [Node.priority, hs.root]
  have hlow : (s.focus.under s.above).priority < t.priority := by
    have hnonneg := ht.priority_nonneg
    rw [show s.focus.under s.above = s.tree from rfl, hroot]
    exact Int.lt_of_lt_of_le (by decide) hnonneg
  rw [place?, looser?_eq_climbFrom hlow]
  rfl

theorem Sound.host?_eq (hs : Sound s) : s.host? = some s.host := by
  unfold Spine.host? Spine.host
  split
  · rfl
  · next hmore =>
    obtain ⟨n, _ | ⟨p, ps⟩⟩ := s
    · exact absurd (hs.expectsMore_of_above_eq_nil rfl) hmore
    · rfl

theorem Sound.within_eq (hs : Sound s) (ht : t.Classified) : s.within t = some (s.add t) := by
  have hhost := hs.climbs hs.climbs_host
  have hwaiting := hs.climbs_host.waiting?_eq
  unfold within
  rw [hs.host?_eq, Option.bind_some]
  have hread := reads_add s ht
  generalize s.add t = s' at hread
  cases hread with
  | drop line more => simp [(ht.of_stop (Or.inr line)).1, line, more]
  | join role focus => rcases role with role | role <;> simp [role, focus]
  | append role focus => rcases role with role | role <;> simp [focus, after, role]
  | close role line waiting => simp [line, role, after, hwaiting, waiting]
  | wrap role kept other =>
    have hplace : s.host.place? t = some (s.addOperator t) := hhost.place?_eq ht
    have hdrop : ¬(t.role = .closer ∧ t.text = ['\n'] ∧ s.focus.role.expectsMore = true) := fun h => kept h.2.1 h.2.2
    rw [if_neg hdrop]
    rcases role with role | role
    · simp [role, after, hplace]
    · simp only [role, reduceCtorEq, or_self, false_and, ↓reduceIte, after, hwaiting, hplace]
      split
      · next closer w hw =>
        rw [if_neg]
        rintro rfl
        by_cases hline : t.text = ['\n']
        · exact Node.awaits?_ne (climbs_waiting? hw).2 ht (Or.inr hline) rfl
        · exact other role hline w hw
      · rfl

theorem Sound.feed {ts : List Token} (hs : Sound s) (hts : ∀ t ∈ ts, t.Classified) : Sound (s.feed ts) := by
  induction ts generalizing s with
  | nil => exact hs
  | cons t ts ih =>
    have ht := hts t (by simp)
    exact ih ((reads_add s ht).sound hs ht) fun u hu => hts u (by simp [hu])

/-- A token that leaves a piece follows it as a complete element. -/
theorem Sound.after_eq (hs : Sound (f.on (p :: ps))) (hf : f.Piece) (ht : t.Classified) (h : f.within t = none) :
    after t ⟨p.push f.tree, ps⟩ = some ((f.on (p :: ps)).add t) := by
  have hwithin := (hs.within_eq ht).symm.trans (within_on hf ht)
  rw [h] at hwithin
  exact hwithin.symm

/-! ### Growth of a piece -/

theorem Piece.of_looser? {priority : Int} {n : Node} {qs : List Node} {w : Spine} (h : Piece ⟨n, qs⟩)
    (hw : looser? priority n qs = some w) : w.Piece := by
  induction qs generalizing n with
  | nil =>
    simp only [looser?] at hw
    split at hw
    · cases hw
    · exact Option.some.inj hw ▸ h
  | cons q qs ih =>
    simp only [looser?] at hw
    split at hw
    · exact ih h.up hw
    · exact Option.some.inj hw ▸ h

theorem Piece.climbs (h : f.Piece) (hc : Climbs f g) : g.Piece := by
  induction hc with
  | refl => exact h
  | up _ _ ih => exact ih h.up

theorem Piece.join (h : f.Piece) (ht : t.Classified) : (f.join t).Piece := by
  intro m hm
  rcases List.mem_cons.mp hm with rfl | hm
  · exact ⟨(h f.focus (by simp)).1.absorb ht, by simp [Spine.join, Node.absorb]⟩
  · exact h m (by simp [show m ∈ f.above from hm])

theorem piece_single (ht : t.Classified) (cs : List Node) : Piece ⟨⟨[t], cs⟩, []⟩ := by
  intro m hm
  obtain rfl := List.mem_singleton.mp hm
  exact ⟨fun u hu => List.mem_singleton.mp hu ▸ ht, by simp⟩

theorem Piece.append (h : f.Piece) (ht : t.Classified) : (f.append t).Piece := by
  intro m hm
  rcases List.mem_cons.mp hm with rfl | hm
  · exact piece_single ht [] _ (by simp [Spine.append, Node.leaf])
  · exact h m hm

theorem Piece.wrap (h : f.Piece) (ht : t.Classified) : (f.wrap t).Piece := by
  intro m hm
  rcases List.mem_cons.mp hm with rfl | hm
  · exact piece_single ht f.focus.children.getLast?.toList _ (by simp [Spine.wrap])
  · rcases List.mem_cons.mp hm with rfl | hm
    · exact h f.focus (by simp)
    · exact h m (by simp [hm])

theorem Piece.within (h : f.Piece) (ht : t.Classified) (hg : f.within t = some g) : g.Piece := by
  have hplace : ∀ {q : Spine}, q.Piece → q.place? t = some g → g.Piece := by
    intro q hq hg
    obtain ⟨w, hw, rfl⟩ := Option.map_eq_some_iff.mp hg
    exact (hq.of_looser? hw).wrap ht
  unfold Spine.within at hg
  split at hg
  · exact Option.some.inj hg ▸ h
  split at hg
  · exact Option.some.inj hg ▸ h.join ht
  obtain ⟨q, hq, hg⟩ := Option.bind_eq_some_iff.mp hg
  have hq : q.Piece := by
    unfold Spine.host? at hq
    split at hq
    · exact Option.some.inj hq ▸ h
    · obtain ⟨n, _ | ⟨p, ps⟩⟩ := f
      · cases hq
      · exact Option.some.inj hq ▸ h.up
  unfold after at hg
  split at hg
  · exact Option.some.inj hg ▸ hq.append ht
  · exact Option.some.inj hg ▸ hq.append ht
  · exact hplace hq hg
  · split at hg
    · next closer w hw =>
      split at hg
      · exact Option.some.inj hg ▸ (hq.climbs (climbs_waiting? hw).1).join ht
      · exact hplace hq hg
    · exact hplace hq hg

/-- The piece becomes another one by reading tokens. One that leaves it adopts it, which `w` must allow. -/
inductive Grows (w : Token → Prop) : Spine → List Token → Spine → Prop
  | nil (f : Spine) : Grows w f [] f
  | within {f f' g : Spine} {t : Token} {ts : List Token} (inside : f.within t = some f') (rest : Grows w f' ts g) :
    Grows w f (t :: ts) g
  | wrap {f g : Spine} {t : Token} {ts : List Token} (outside : f.within t = none) (allowed : w t)
      (rest : Grows w ⟨⟨[t], [f.tree]⟩, []⟩ ts g) : Grows w f (t :: ts) g

theorem after_of_admits {c : Node} (hp : p.Classified) (hfilled : p.tokens = [] → ps = []) (ht : t.Classified)
    (h : p.Admits t) : after t ⟨p.push c, ps⟩ = some ⟨⟨[t], [c]⟩, p :: ps⟩ := by
  obtain ⟨role, hlt, hfree⟩ := h
  have hplace : place? t ⟨p.push c, ps⟩ = some ⟨⟨[t], [c]⟩, p :: ps⟩ := by
    have hlt : ¬t.priority ≤ (p.push c).priority := Int.not_le.mpr hlt
    have hlooser : looser? t.priority (p.push c) ps = some ⟨p.push c, ps⟩ := by
      cases ps <;> simp [looser?, hlt]
    simp [place?, hlooser, Spine.wrap]
  unfold after
  rcases role with role | role
  · simpa [role] using hplace
  · simp only [role]
    split
    · next closer w hw =>
      rw [if_neg, hplace]
      rintro rfl
      obtain ⟨-, hawaits⟩ := climbs_waiting? hw
      obtain ⟨u, -, hu⟩ := Option.bind_eq_some_iff.mp hawaits
      have hone := ht.priority_of_closing hu
      cases hp' : p.awaits? with
      | some closer =>
        have hfirst : waiting? ⟨p.push c, ps⟩ = some (closer, ⟨p.push c, ps⟩) := by
          cases ps <;> simp [waiting?, waitingFrom, hp']
        rw [hfirst] at hw
        simp only [Option.some.injEq, Prod.mk.injEq] at hw
        exact hfree (hp'.trans (congrArg some hw.1))
      | none =>
        by_cases hne : p.tokens = []
        · obtain rfl := hfilled hne
          simp [waiting?, waitingFrom, hp'] at hw
        · have := hp.priority_pos hne hp'
          omega
    · exact hplace

theorem Grows.feed {w : Token → Prop} {ts : List Token} (h : Grows w f ts g) (hf : f.Piece)
    (hts : ∀ t ∈ ts, t.Classified) (hw : ∀ t ∈ ts, w t → p.Admits t) (hfilled : p.tokens = [] → ps = [])
    (hs : Sound (f.on (p :: ps))) : (f.on (p :: ps)).feed ts = g.on (p :: ps) ∧ g.Piece := by
  induction h with
  | nil f => exact ⟨rfl, hf⟩
  | @within f f' g t ts inside rest ih =>
    have ht := hts t (by simp)
    have hadd : (f.on (p :: ps)).add t = f'.on (p :: ps) := by
      have := (hs.within_eq ht).symm.trans (within_on hf ht)
      rw [inside] at this
      exact Option.some.inj this
    have hs' := (reads_add _ ht).sound hs ht
    rw [feed_cons, hadd]
    rw [hadd] at hs'
    exact ih (hf.within ht inside) (fun u hu => hts u (by simp [hu])) (fun u hu => hw u (by simp [hu])) hs'
  | @wrap f g t ts outside allowed rest ih =>
    have ht := hts t (by simp)
    have hp := hs.above p (by simp [on])
    have hadd : (f.on (p :: ps)).add t = Spine.on ⟨⟨[t], [f.tree]⟩, []⟩ (p :: ps) :=
      Option.some.inj ((hs.after_eq hf ht outside).symm.trans
        (after_of_admits hp hfilled ht (hw t (by simp) allowed)))
    have hs' := (reads_add _ ht).sound hs ht
    rw [feed_cons, hadd]
    rw [hadd] at hs'
    exact ih (piece_single ht _) (fun u hu => hts u (by simp [hu])) (fun u hu => hw u (by simp [hu])) hs'

/-- A word or an opener that does not join the focus starts a piece of its own below the host. -/
theorem add_of_plain (hfocus : s.focus.role ≠ .atom) (hr : t.role = .atom ∨ t.role = .opener) :
    s.add t = Spine.on ⟨.leaf t, []⟩ (s.host.focus :: s.host.above) := by
  rcases hr with hr | hr <;> simp [add, hr, addAtom, hfocus, append, on]

theorem Grows.feed_host {w : Token → Prop} {ts : List Token} (h : Grows w ⟨.leaf t, []⟩ ts g)
    (hts : ∀ u ∈ t :: ts, u.Classified) (hr : t.role = .atom ∨ t.role = .opener) (hs : Sound s)
    (hfocus : s.focus.role ≠ .atom) (hw : ∀ u ∈ ts, w u → s.host.focus.Admits u)
    (hfilled : s.host.focus.tokens = [] → s.host.above = []) :
    s.feed (t :: ts) = g.on (s.host.focus :: s.host.above) ∧ g.Piece := by
  have ht := hts t (by simp)
  have hs' := (reads_add s ht).sound hs ht
  rw [feed_cons, add_of_plain hfocus hr]
  rw [add_of_plain hfocus hr] at hs'
  exact h.feed (piece_single ht []) (fun u hu => hts u (by simp [hu])) hw hfilled hs'

end Spine
end SiblingSwap
