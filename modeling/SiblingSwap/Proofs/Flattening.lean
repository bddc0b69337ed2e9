import Mathlib.Data.List.Induction
import Mathlib.Data.List.MinMax
import SiblingSwap.Proofs.Precedence
import SiblingSwap.Proofs.Row

/-! Chains read as flat lists. The most loosely binding operators of an expression split it into operands, which may
    hold operators of their own and brackets with whole blocks inside. In the tree the operators are the links of a
    chain that leans to the left, and the operands hang from them. Neighbours never name a link: next to the root of an
    operand is the root of the next one, in both directions, for every expression at every depth of a block. -/

namespace SiblingSwap
namespace Grammar

/-! ### Expressions as operands with operators between them -/

/-- The operators of an expression, without those inside brackets. -/
def Expr.operators : Expr → List Operator
  | .term _ => []
  | .chain e op _ _ => e.operators ++ [op]

/-- The terms of an expression, from left to right. -/
def Expr.terms : Expr → List Term
  | .term t => [t]
  | .chain e _ _ t => e.terms ++ [t]

def Expr.node (e : Expr) : Node := chainNode e.operands.1 e.operands.2

/-- Two expressions with an operator between them. -/
def Expr.append (e : Expr) (op : Operator) (breaks : List Break) : Expr → Expr
  | .term t => .chain e op breaks t
  | .chain f op' breaks' t => .chain (e.append op breaks f) op' breaks' t

/-- An operand after the first, with the operator before it and the line breaks between them. -/
structure Operand where
  operator : Operator
  breaks : List Break
  expr : Expr

/-- The expression of some operands. -/
def Expr.ofOperands (first : Expr) (rest : List Operand) : Expr :=
  rest.foldl (fun e x => e.append x.operator x.breaks x.expr) first

/-- The operands are what the operators of the least priority, `p`, leave of an expression. -/
structure Expr.Splits (e : Expr) (p : Int) (first : Expr) (rest : List Operand) : Prop where
  whole : e = first.ofOperands rest
  least : ∀ op ∈ e.operators, p ≤ op.token.priority
  between : ∀ x ∈ rest, x.operator.token.priority = p
  inside : ∀ f ∈ first :: rest.map (·.expr), ∀ op ∈ f.operators, op.token.priority ≠ p
  several : rest ≠ []

section
variable {e first : Expr} {rest : List Operand} {p : Int}

theorem Expr.ofOperands_concat (first : Expr) (rest : List Operand) (x : Operand) :
    first.ofOperands (rest ++ [x]) = (first.ofOperands rest).append x.operator x.breaks x.expr := by
  simp [ofOperands]

theorem Expr.operators_append (e : Expr) (op : Operator) (breaks : List Break) (f : Expr) :
    (e.append op breaks f).operators = e.operators ++ op :: f.operators := by
  cases f with
  | term t => rfl
  | chain f op' breaks' t => simp [append, operators, e.operators_append op breaks f]

theorem Expr.terms_append (e : Expr) (op : Operator) (breaks : List Break) (f : Expr) :
    (e.append op breaks f).terms = e.terms ++ f.terms := by
  cases f with
  | term t => rfl
  | chain f op' breaks' t => simp [append, terms, e.terms_append op breaks f]

theorem Expr.operands_append (e : Expr) (op : Operator) (breaks : List Break) (f : Expr) :
    (e.append op breaks f).operands =
      (e.operands.1, e.operands.2 ++ (op.token, f.operands.1) :: f.operands.2) := by
  cases f with
  | term t => rfl
  | chain f op' breaks' t => simp [append, operands, e.operands_append op breaks f]

theorem Expr.operators_ofOperands (first : Expr) (rest : List Operand) :
    (first.ofOperands rest).operators = first.operators ++ rest.flatMap fun x => x.operator :: x.expr.operators := by
  induction rest using List.reverseRecOn with
  | nil => simp [ofOperands]
  | append_singleton rest x ih => simp [ofOperands_concat, operators_append, ih]

theorem Expr.terms_ofOperands (first : Expr) (rest : List Operand) :
    (first.ofOperands rest).terms = (first :: rest.map (·.expr)).flatMap terms := by
  induction rest using List.reverseRecOn with
  | nil => simp [ofOperands]
  | append_singleton rest x ih => simp [ofOperands_concat, terms_append, ih]

theorem Expr.exists_operator_of_mem_operands : (e : Expr) → ∀ x ∈ e.operands.2, ∃ op ∈ e.operators, op.token = x.1
  | .term t, x, hx => by simp [operands] at hx
  | .chain e op breaks t, x, hx => by
    rw [operands] at hx
    rcases List.mem_append.mp hx with hx | hx
    · obtain ⟨op', hop', heq⟩ := e.exists_operator_of_mem_operands x hx
      exact ⟨op', List.mem_append_left _ hop', heq⟩
    · exact ⟨op, by simp [operators], by rw [List.mem_singleton.mp hx]⟩

/-- An operator that binds as loosely as any before it and more loosely than all after it is at the top. -/
theorem Expr.node_append {f : Expr} {op : Operator} {breaks : List Break}
    (he : ∀ op' ∈ e.operators, op.token.priority ≤ op'.token.priority)
    (hf : ∀ op' ∈ f.operators, op.token.priority < op'.token.priority) :
    (e.append op breaks f).node = ⟨[op.token], [e.node, f.node]⟩ := by
  rw [Expr.node, operands_append]
  refine chainNode_append (fun x hx => ?_) (fun x hx => ?_)
  · obtain ⟨op', hop', hx⟩ := e.exists_operator_of_mem_operands x hx
    exact hx ▸ he op' hop'
  · obtain ⟨op', hop', hx⟩ := f.exists_operator_of_mem_operands x hx
    exact hx ▸ hf op' hop'

theorem Expr.Splits.lt_inside (h : e.Splits p first rest) :
    ∀ f ∈ first :: rest.map (·.expr), ∀ op ∈ f.operators, p < op.token.priority := by
  intro f hf op hop
  have hmem : op ∈ e.operators := by
    rw [h.whole, operators_ofOperands]
    rcases List.mem_cons.mp hf with rfl | hf
    · exact List.mem_append_left _ hop
    · obtain ⟨x, hx, rfl⟩ := List.mem_map.mp hf
      exact List.mem_append_right _ (List.mem_flatMap.mpr ⟨x, hx, List.mem_cons_of_mem _ hop⟩)
  exact lt_of_le_of_ne (h.least op hmem) (h.inside f hf op hop).symm

theorem Expr.Splits.length_operators_lt (h : e.Splits p first rest) :
    ∀ f ∈ first :: rest.map (·.expr), f.operators.length < e.operators.length := by
  intro f hf
  rw [h.whole, operators_ofOperands]
  rcases List.mem_cons.mp hf with rfl | hf
  · obtain ⟨x, rest, rfl⟩ := List.exists_cons_of_ne_nil h.several
    simp
  · obtain ⟨x, hx, rfl⟩ := List.mem_map.mp hf
    obtain ⟨before, after, rfl⟩ := List.append_of_mem hx
    simp only [List.flatMap_append, List.flatMap_cons, List.length_append, List.length_cons]
    omega

/-- An expression can be split at its operators of one priority, whichever that is. -/
theorem Expr.exists_operands (p : Int) (e : Expr) : ∃ (first : Expr) (rest : List Operand),
    e = first.ofOperands rest ∧ (∀ x ∈ rest, x.operator.token.priority = p) ∧
    ∀ f ∈ first :: rest.map (·.expr), ∀ op ∈ f.operators, op.token.priority ≠ p := by
  cases e with
  | term t => exact ⟨.term t, [], rfl, by simp, by simp [operators]⟩
  | chain e op breaks t =>
    obtain ⟨first, rest, rfl, hbetween, hinside⟩ := e.exists_operands p
    by_cases hop : op.token.priority = p
    · -- A new operand begins.
      refine ⟨first, rest ++ [⟨op, breaks, .term t⟩], by rw [ofOperands_concat]; rfl, ?_, ?_⟩
      · simpa [or_imp, forall_and, hop] using hbetween
      · simpa [or_imp, forall_and, operators] using hinside
    · -- The last operand grows.
      rcases List.eq_nil_or_concat' rest with rfl | ⟨rest, x, rfl⟩
      · refine ⟨.chain first op breaks t, [], rfl, by simp, ?_⟩
        simpa [or_imp, forall_and, operators, hop] using hinside
      · refine ⟨first, rest ++ [{ x with expr := .chain x.expr op breaks t }], ?_, ?_, ?_⟩
        · rw [ofOperands_concat, ofOperands_concat]
          rfl
        · simpa [or_imp, forall_and] using hbetween
        · simpa [or_imp, forall_and, operators, hop] using hinside

/-- The most loosely binding operators split every expression that has an operator. -/
theorem Expr.exists_splits (e : Expr) (h : e.operators ≠ []) : ∃ p first rest, e.Splits p first rest := by
  obtain ⟨op, hop⟩ : ∃ op, e.operators.argmin (·.token.priority) = some op :=
    Option.ne_none_iff_exists'.mp (mt List.argmin_eq_none.mp h)
  obtain ⟨first, rest, hwhole, hbetween, hinside⟩ := e.exists_operands op.token.priority
  have hleast : ∀ op' ∈ e.operators, op.token.priority ≤ op'.token.priority :=
    fun op' hop' => List.le_of_mem_argmin (f := fun o : Operator => o.token.priority) hop' hop
  refine ⟨op.token.priority, first, rest, hwhole, hleast, hbetween, hinside, ?_⟩
  rintro rfl
  obtain rfl : e = first := hwhole
  exact hinside e (by simp) op (List.argmin_mem hop) rfl

/-! ### The links of a chain -/

theorem Expr.node_ofOperands_concat {x : Operand} (hbetween : ∀ y ∈ rest ++ [x], y.operator.token.priority = p)
    (hinside : ∀ f ∈ first :: (rest ++ [x]).map (·.expr), ∀ op ∈ f.operators, p < op.token.priority) :
    (first.ofOperands (rest ++ [x])).node =
      ⟨[x.operator.token], [(first.ofOperands rest).node, x.expr.node]⟩ := by
  have hx : x.operator.token.priority = p := hbetween x (by simp)
  rw [ofOperands_concat, node_append]
  · intro op hop
    rw [operators_ofOperands, List.mem_append, List.mem_flatMap] at hop
    rw [hx]
    rcases hop with hop | ⟨y, hy, hop⟩
    · exact (hinside first (by simp) op hop).le
    · rcases List.mem_cons.mp hop with rfl | hop
      · exact (hbetween y (by simp [hy])).ge
      · exact (hinside y.expr (List.mem_cons_of_mem _ (List.mem_map_of_mem (by simp [hy]))) op hop).le
  · intro op hop
    rw [hx]
    exact hinside x.expr (by simp) op hop

/-- The operators that split an expression are found one below the other, the last one at the top. -/
theorem Expr.at?_ofOperands {before after : List Operand} {x : Operand}
    (hbetween : ∀ y ∈ before ++ x :: after, y.operator.token.priority = p)
    (hinside : ∀ f ∈ first :: (before ++ x :: after).map (·.expr), ∀ op ∈ f.operators, p < op.token.priority) :
    (first.ofOperands (before ++ x :: after)).node.at? (List.replicate after.length 0) =
      some ⟨[x.operator.token], [(first.ofOperands before).node, x.expr.node]⟩ := by
  induction after using List.reverseRecOn with
  | nil => exact congrArg some (node_ofOperands_concat hbetween hinside)
  | append_singleton after y ih =>
    rw [← List.cons_append, ← List.append_assoc] at hbetween hinside ⊢
    rw [node_ofOperands_concat hbetween hinside, List.length_append, List.length_singleton, List.replicate_succ',
      Node.at?_concat]
    refine ih (fun z hz => hbetween z (List.mem_append_left _ hz)) fun f hf => hinside f ?_
    rw [List.map_append]
    exact List.mem_append_left _ hf

theorem chainNode_tokens (first : Node) {rest : List (Token × Node)} (h : rest ≠ []) :
    ∃ x ∈ rest, (chainNode first rest).tokens = [x.1] := by
  induction first, rest using chain_induction with
  | single first => exact absurd rfl h
  | split first before y after hbefore hafter ih =>
    exact ⟨y, by simp, by rw [chainNode_append hbefore hafter]⟩

/-- An operand has at its root an operator of its own, or no operator at all. -/
theorem Expr.priority_node_ne (op : Operator) (h : ∀ op' ∈ e.operators, op'.token.priority ≠ op.token.priority) :
    e.node.priority ≠ op.token.priority := by
  cases e with
  | term t =>
    obtain ⟨u, hu, hclassified, hrole⟩ := t.getLast?_node
    have hpriority : (Expr.term t).node.priority = u.priority := by
      simp [Expr.node, operands, chainNode_nil, Node.priority, hu]
    rw [hpriority]
    intro heq
    have hoperator := hclassified.operator_iff.mpr (heq ▸ op.classified.operator_iff.mp op.role)
    rcases hrole with hrole | hrole <;> simp [hrole] at hoperator
  | chain e op' breaks t =>
    have hne : (Expr.chain e op' breaks t).operands.2 ≠ [] := by simp [operands]
    obtain ⟨x, hx, htokens⟩ := chainNode_tokens (Expr.chain e op' breaks t).operands.1 hne
    obtain ⟨op', hop', heq⟩ := exists_operator_of_mem_operands _ x hx
    simpa [Expr.node, Node.priority, htokens, heq] using h op' hop'

end

/-! ### Places in the tree -/

/-- Where the root of an operand is, counted from 0, if the expression of `n + 1` operands is at `a`. -/
def operandAddress (a : Address) (n i : Nat) : Address :=
  if i = 0 then List.replicate n 0 ++ a else 1 :: (List.replicate (n - i) 0 ++ a)

/-- The statements of a block, each with its address below the block's element if the first of them is the child `k`.
    A statement that is ended is below its end. -/
def Block.statements : Block → Nat → List (Expr × Address)
  | .empty, _ => []
  | .last e, k => [(e, [k])]
  | .statement e _ rest, k => (e, [0, k]) :: rest.statements (k + 1)

/-- The expressions in a block, each with the address of its root in the tree of the block. -/
inductive Block.Holds (b : Block) : Expr → Address → Prop
  | statement {e : Expr} {a : Address} (mem : (e, a) ∈ b.statements 0) : b.Holds e a
  | operand {e f first : Expr} {rest : List Operand} {a : Address} {p : Int} {i : Nat} (outer : b.Holds e a)
      (splits : e.Splits p first rest) (get : (first :: rest.map (·.expr))[i]? = some f) :
      b.Holds f (operandAddress a rest.length i)
  | bracketed {e : Expr} {ws : List Word} {brackets : Brackets} {breaks : List Break} {body : Block}
      {a c : Address} (outer : b.Holds (.term (.group ws brackets breaks body)) a)
      (mem : (e, c) ∈ body.statements 0) : b.Holds e (c ++ a)

theorem Block.at?_statement (n : Node) : (b : Block) → (before : List Node) → n.children = before ++ b.nodes →
    ∀ x ∈ b.statements before.length, n.at? x.2 = some x.1.node
  | .empty, before, hn, x, hx => by simp [statements] at hx
  | .last e, before, hn, x, hx => by
    obtain rfl := List.mem_singleton.mp hx
    simp [Node.at?, hn, nodes, Expr.node]
  | .statement e stop rest, before, hn, x, hx => by
    rw [nodes] at hn
    rcases List.mem_cons.mp hx with rfl | hx
    · simp [Node.at?, hn, Expr.node]
    · refine at?_statement n rest (before ++ [⟨[stop.token], [chainNode e.operands.1 e.operands.2]⟩]) ?_ x ?_
      · rw [hn, List.append_assoc, List.singleton_append]
      · rwa [List.length_append, List.length_singleton]

section
variable {tree : Node} {e first : Expr} {rest : List Operand} {a : Address} {p : Int} {i : Nat}

/-- The operator before an operand is a link of the chain: on its left are all the operands before. -/
theorem Expr.Splits.at?_link (h : e.Splits p first rest) (ha : tree.at? a = some e.node) (hi : i < rest.length) :
    tree.at? (List.replicate (rest.length - (i + 1)) 0 ++ a) =
      some ⟨[rest[i].operator.token], [(first.ofOperands (rest.take i)).node, rest[i].expr.node]⟩ := by
  have hrest : rest.take i ++ rest[i] :: rest.drop (i + 1) = rest := by simp
  have hbetween := h.between
  have hinside := h.lt_inside
  rw [← hrest] at hbetween hinside
  have hlink := at?_ofOperands hbetween hinside
  rw [hrest, ← h.whole, List.length_drop] at hlink
  rw [Node.at?_append, ha]
  exact hlink

/-- What a chain begins with: the first link has the first operand on its left, every other link has the link before. -/
theorem Expr.Splits.node_take_succ (h : e.Splits p first rest) (hi : i < rest.length) :
    (first.ofOperands (rest.take (i + 1))).node =
      ⟨[rest[i].operator.token], [(first.ofOperands (rest.take i)).node, rest[i].expr.node]⟩ := by
  have hsub : ∀ y ∈ rest.take i ++ [rest[i]], y ∈ rest := by
    intro y hy
    rw [← List.take_succ_eq_append_getElem hi] at hy
    exact List.mem_of_mem_take hy
  rw [List.take_succ_eq_append_getElem hi]
  refine node_ofOperands_concat (fun y hy => h.between y (hsub y hy)) fun f hf => h.lt_inside f ?_
  rcases List.mem_cons.mp hf with rfl | hf
  · exact List.mem_cons_self
  · obtain ⟨y, hy, rfl⟩ := List.mem_map.mp hf
    exact List.mem_cons_of_mem _ (List.mem_map_of_mem (hsub y hy))

theorem Expr.Splits.at?_operand (h : e.Splits p first rest) (ha : tree.at? a = some e.node) {f : Expr}
    (hf : (first :: rest.map (·.expr))[i]? = some f) : tree.at? (operandAddress a rest.length i) = some f.node := by
  cases i with
  | zero =>
    obtain rfl : first = f := by simpa using hf
    have hpos : 0 < rest.length := List.length_pos_of_ne_nil h.several
    have hlink := Node.at?_left (h.at?_link ha hpos)
    rwa [← List.cons_append, ← List.replicate_succ, Nat.zero_add, Nat.sub_add_cancel hpos] at hlink
  | succ i =>
    obtain ⟨x, hx, rfl⟩ : ∃ x, rest[i]? = some x ∧ x.expr = f := by simpa using hf
    obtain ⟨hi, rfl⟩ := List.getElem?_eq_some_iff.mp hx
    exact Node.at?_right (h.at?_link ha hi)

theorem Expr.Splits.neighbors_operand (h : e.Splits p first rest) (ha : tree.at? a = some e.node)
    (hi : i < rest.length) :
    tree.rightNeighbors (operandAddress a rest.length i) =
        ⟨some (operandAddress a rest.length i), some (operandAddress a rest.length (i + 1))⟩ ∧
      tree.leftNeighbors (operandAddress a rest.length (i + 1)) =
        ⟨some (operandAddress a rest.length i), some (operandAddress a rest.length (i + 1))⟩ := by
  have hlink := h.at?_link ha hi
  have hbelow : List.replicate (rest.length - i) 0 ++ a = 0 :: (List.replicate (rest.length - (i + 1)) 0 ++ a) := by
    rw [← List.cons_append, ← List.replicate_succ]
    congr 2
    omega
  have hpriority : ∀ j (hj : j < rest.length), rest[j].operator.token.priority = p :=
    fun j hj => h.between _ (List.getElem_mem hj)
  cases i with
  | zero =>
    have hleft : operandAddress a rest.length 0 = 0 :: (List.replicate (rest.length - 1) 0 ++ a) := hbelow
    have hne : first.node.priority ≠ rest[0].operator.token.priority :=
      priority_node_ne _ fun op hop => hpriority 0 hi ▸ h.inside first List.mem_cons_self op hop
    rw [hleft]
    exact ⟨Node.rightNeighbors_left hlink, Node.leftNeighbors_right hlink hne⟩
  | succ i =>
    have hleft : operandAddress a rest.length (i + 1) = 1 :: 0 :: (List.replicate (rest.length - (i + 2)) 0 ++ a) :=
      congrArg (1 :: ·) hbelow
    have hsame : rest[i].operator.token.priority = rest[i + 1].operator.token.priority := by
      rw [hpriority, hpriority]
    rw [h.node_take_succ (Nat.lt_of_succ_lt hi)] at hlink
    rw [hleft]
    exact ⟨Node.rightNeighbors_left_of_link hlink hsame rest[i].operator.role,
      Node.leftNeighbors_right_of_link hlink hsame rest[i + 1].operator.role⟩

end

namespace Block.Holds
variable {b : Block} {e : Expr} {a : Address}

theorem at?_node (h : b.Holds e a) : (Node.ofTokens b.tokens).at? a = some e.node := by
  induction h with
  | statement mem =>
    rw [tree_tokens]
    exact at?_statement _ b [] rfl _ mem
  | operand _ splits get ih => exact splits.at?_operand ih get
  | @bracketed e ws brackets breaks body a c _ mem ih =>
    rw [Node.at?_append, ih, Expr.node, Expr.operands, chainNode_nil]
    exact at?_statement _ body [] (by rw [Term.node]; rfl) _ mem

/-- By splitting an expression again and again, all its terms are reached. -/
theorem of_mem_terms (h : b.Holds e a) {t : Term} (ht : t ∈ e.terms) : ∃ c, b.Holds (.term t) c := by
  induction hn : e.operators.length using Nat.strong_induction_on generalizing e a with
  | h n ih =>
    subst hn
    cases e with
    | term u =>
      obtain rfl := List.mem_singleton.mp ht
      exact ⟨a, h⟩
    | chain e op breaks u =>
      obtain ⟨p, first, rest, hsplit⟩ := Expr.exists_splits (.chain e op breaks u) (by simp [Expr.operators])
      rw [hsplit.whole, Expr.terms_ofOperands] at ht
      obtain ⟨f, hf, ht⟩ := List.mem_flatMap.mp ht
      obtain ⟨i, hi⟩ := List.mem_iff_getElem?.mp hf
      exact ih _ (hsplit.length_operators_lt f hf) (h.operand hsplit hi) ht rfl

end Block.Holds

/-- An expression in a block has its tree at its address, and so has every term of it at some address. If it has
    operators, the most loosely binding ones split it. Whatever the operands are, each root of an operand and the root
    of the next operand are neighbours, to the right from the one and to the left from the other. -/
theorem Block.neighbors_of_operands (b : Block) {e : Expr} {a : Address} (h : b.Holds e a) :
    let tree := Node.ofTokens b.tokens
    tree.at? a = some e.node ∧ (∀ t ∈ e.terms, ∃ c, b.Holds (.term t) c) ∧
      (e.operators ≠ [] → ∃ p first rest, e.Splits p first rest) ∧
      ∀ p first rest, e.Splits p first rest →
        let root := operandAddress a rest.length
        (∀ i f, (first :: rest.map (·.expr))[i]? = some f → tree.at? (root i) = some f.node) ∧
          ∀ i < rest.length, tree.rightNeighbors (root i) = ⟨some (root i), some (root (i + 1))⟩ ∧
            tree.leftNeighbors (root (i + 1)) = ⟨some (root i), some (root (i + 1))⟩ := by
  refine ⟨h.at?_node, fun t ht => h.of_mem_terms ht, e.exists_splits, fun p first rest hsplit => ?_⟩
  exact ⟨fun i f hf => hsplit.at?_operand h.at?_node hf, fun i hi => hsplit.neighbors_operand h.at?_node hi⟩

/-- In `a, (b * c, d, e)` the list in brackets has a product as its first operand: next to its root is `d`, and between
    `d` and `e` no comma is named. -/
theorem Block.neighbors_of_operands_of_list :
    let word (c : Char) (i : Nat) (h : (Token.ofLexeme [c] ⟨i, i + 1⟩).role = .atom) : Term :=
      .words ⟨_, Token.classified_ofLexeme _ _, h⟩ []
    let op (c : Char) (i : Nat) (h : (Token.ofLexeme [c] ⟨i, i + 1⟩).role = .operator) : Operator :=
      ⟨_, Token.classified_ofLexeme _ _, h⟩
    let brackets : Brackets := ⟨.ofLexeme ['('] ⟨3, 4⟩, .ofLexeme [')'] ⟨15, 16⟩, Token.classified_ofLexeme _ _,
      Token.classified_ofLexeme _ _, by decide⟩
    let product : Expr := .chain (.term (word 'b' 4 rfl)) (op '*' 6 rfl) [] (word 'c' 8 rfl)
    let inner : List Operand := [⟨op ',' 9 rfl, [], .term (word 'd' 11 rfl)⟩,
      ⟨op ',' 12 rfl, [], .term (word 'e' 14 rfl)⟩]
    let group : Term := .group [] brackets [] (.last (product.ofOperands inner))
    let outer : List Operand := [⟨op ',' 1 rfl, [], .term group⟩]
    let b : Block := .last ((Expr.term (word 'a' 0 rfl)).ofOperands outer)
    b.Holds (product.ofOperands inner) [0, 1, 0] ∧
      (product.ofOperands inner).Splits (op ',' 9 rfl).token.priority product inner ∧
      let tree := Node.ofTokens b.tokens
      tree.at? [0, 0, 0, 1, 0] = some product.node ∧
        tree.rightNeighbors [0, 0, 0, 1, 0] = ⟨some [0, 0, 0, 1, 0], some [1, 0, 0, 1, 0]⟩ ∧
        tree.leftNeighbors [1, 0, 1, 0] = ⟨some [1, 0, 0, 1, 0], some [1, 0, 1, 0]⟩ := by
  intro word op brackets product inner group outer b
  have houter : ((Expr.term (word 'a' 0 rfl)).ofOperands outer).Splits (op ',' 1 rfl).token.priority
      (.term (word 'a' 0 rfl)) outer := by
    refine ⟨rfl, ?_, by simp [outer, op], by simp [outer, Expr.operators], by simp [outer]⟩
    simp [Expr.ofOperands, Expr.append, Expr.operators, outer, op]
  have hcomma : (Token.ofLexeme [','] ⟨12, 13⟩).priority = (Token.ofLexeme [','] ⟨9, 10⟩).priority := rfl
  have hstar : (Token.ofLexeme [','] ⟨9, 10⟩).priority < (Token.ofLexeme ['*'] ⟨6, 7⟩).priority := by decide
  have hinner : (product.ofOperands inner).Splits (op ',' 9 rfl).token.priority product inner := by
    refine ⟨rfl, ?_, by simp [inner, op, hcomma], ?_, by simp [inner]⟩
    · simp [Expr.ofOperands, Expr.append, Expr.operators, inner, op, product, hcomma, hstar.le]
    · simp [Expr.operators, inner, op, product, hstar.ne']
  have htop : b.Holds ((Expr.term (word 'a' 0 rfl)).ofOperands outer) [0] := .statement (List.mem_singleton.mpr rfl)
  have hgroup : b.Holds (.term group) [1, 0] := htop.operand (i := 1) houter rfl
  have hholds : b.Holds (product.ofOperands inner) [0, 1, 0] := hgroup.bracketed (List.mem_singleton.mpr rfl)
  obtain ⟨-, -, -, hsplit⟩ := neighbors_of_operands b hholds
  obtain ⟨hroot, hneighbors⟩ := hsplit _ product inner hinner
  exact ⟨hholds, hinner, hroot 0 product rfl, (hneighbors 0 (by decide)).1, (hneighbors 1 (by decide)).2⟩

end Grammar
end SiblingSwap
