import SiblingSwap.Proofs.Classified
import SiblingSwap.Tree.Basic

/-! A grammar of well-formed texts, and the tree that each derivation stands for.

    A block is a list of statements, of which all but the last must be ended. A statement is an expression: terms with
    operators between them, each perhaps followed by line breaks. A term is a run of words, or a bracketed block with
    words before it and perhaps line breaks after the opening bracket. Derivations are data, made of classified tokens
    of the right kind only. Their trees know nothing of how tokens are read: an expression is split at the last of its
    most loosely binding operators, and its two sides are treated alike. -/

namespace SiblingSwap
namespace Grammar

/-! ### Tokens by kind -/

/-- A word, number or literal. -/
structure Word where
  token : Token
  classified : token.Classified
  role : token.role = .atom

/-- An operator between two operands. -/
structure Operator where
  token : Token
  classified : token.Classified
  role : token.role = .operator

structure Break where
  token : Token
  classified : token.Classified
  line : token.text = ['\n']

structure Stop where
  token : Token
  classified : token.Classified
  ending : token.text = [';'] ∨ token.text = ['\n']

/-- An opening bracket with the bracket that closes it. -/
structure Brackets where
  opening : Token
  closing : Token
  opening_classified : opening.Classified
  closing_classified : closing.Classified
  matching : closerOf? opening.text = some closing.text

/-! ### Derivations -/

mutual

inductive Term where
  | words (w : Word) (ws : List Word)
  | group (ws : List Word) (b : Brackets) (breaks : List Break) (body : Block)

inductive Expr where
  | term (t : Term)
  | chain (e : Expr) (op : Operator) (breaks : List Break) (t : Term)

inductive Block where
  | empty
  | last (e : Expr)
  | statement (e : Expr) (stop : Stop) (rest : Block)

end

mutual

def Term.tokens : Term → List Token
  | .words w ws => w.token :: ws.map (·.token)
  | .group ws b breaks body => ws.map (·.token) ++ b.opening :: (breaks.map (·.token) ++ body.tokens ++ [b.closing])

def Expr.tokens : Expr → List Token
  | .term t => t.tokens
  | .chain e op breaks t => e.tokens ++ op.token :: (breaks.map (·.token) ++ t.tokens)

def Block.tokens : Block → List Token
  | .empty => []
  | .last e => e.tokens
  | .statement e stop rest => e.tokens ++ stop.token :: rest.tokens

end

/-! ### Precedence -/

/-- The last of the most loosely binding operators in a list of operators with their right operands, with the entries
    before and after it. -/
def splitLoosest : List (Token × Node) → Option (List (Token × Node) × (Token × Node) × List (Token × Node))
  | [] => none
  | x :: xs =>
    match splitLoosest xs with
    | none => some ([], x, xs)
    | some (before, y, after) =>
      if y.1.priority ≤ x.1.priority then some (x :: before, y, after) else some ([], x, xs)

theorem splitLoosest_eq_none {xs : List (Token × Node)} : splitLoosest xs = none ↔ xs = [] := by
  cases xs with
  | nil => simp [splitLoosest]
  | cons x xs =>
    rw [splitLoosest]
    split
    · simp
    · split <;> simp

/-- What comes before the operator binds as tightly as it, or more so; what comes after it binds more tightly. -/
theorem splitLoosest_eq_some {xs before after : List (Token × Node)} {y : Token × Node}
    (h : splitLoosest xs = some (before, y, after)) :
    xs = before ++ y :: after ∧ (∀ x ∈ before, y.1.priority ≤ x.1.priority) ∧
      ∀ x ∈ after, y.1.priority < x.1.priority := by
  induction xs generalizing before y after with
  | nil => simp [splitLoosest] at h
  | cons x xs ih =>
    rw [splitLoosest] at h
    split at h
    · next hnone =>
      simp only [Option.some.injEq, Prod.mk.injEq] at h
      obtain ⟨rfl, rfl, rfl⟩ := h
      simp [splitLoosest_eq_none.mp hnone]
    · next before' z after' hsome =>
      obtain ⟨hxs, hbefore, hafter⟩ := ih hsome
      split at h
      · next hle =>
        simp only [Option.some.injEq, Prod.mk.injEq] at h
        obtain ⟨rfl, rfl, rfl⟩ := h
        exact ⟨by rw [hxs, List.cons_append], List.forall_mem_cons.mpr ⟨hle, hbefore⟩, hafter⟩
      · next hlt =>
        simp only [Option.some.injEq, Prod.mk.injEq] at h
        obtain ⟨rfl, rfl, rfl⟩ := h
        refine ⟨rfl, by simp, fun u hu => ?_⟩
        rw [hxs] at hu
        rcases List.mem_append.mp hu with hu | hu
        · have := hbefore u hu
          omega
        · rcases List.mem_cons.mp hu with rfl | hu
          · omega
          · have := hafter u hu
            omega

theorem splitLoosest_append {before after : List (Token × Node)} {y : Token × Node}
    (hbefore : ∀ x ∈ before, y.1.priority ≤ x.1.priority) (hafter : ∀ x ∈ after, y.1.priority < x.1.priority) :
    splitLoosest (before ++ y :: after) = some (before, y, after) := by
  induction before with
  | nil =>
    rw [List.nil_append, splitLoosest]
    split
    · rfl
    · next before' z after' hsome =>
      have hz := hafter z (by simp [(splitLoosest_eq_some hsome).1])
      rw [if_neg (Int.not_le.mpr hz)]
  | cons x before ih =>
    rw [List.cons_append, splitLoosest, ih fun u hu => hbefore u (List.mem_cons_of_mem _ hu)]
    simp [hbefore x (by simp)]

theorem length_lt_of_splitLoosest {xs before after : List (Token × Node)} {y : Token × Node}
    (h : splitLoosest xs = some (before, y, after)) : before.length < xs.length ∧ after.length < xs.length := by
  rw [(splitLoosest_eq_some h).1]
  simp only [List.length_append, List.length_cons]
  omega

/-- The tree of operands with operators between them: at its top is the last of the most loosely binding operators. -/
def chainNode (first : Node) (rest : List (Token × Node)) : Node :=
  match _h : splitLoosest rest with
  | none => first
  | some (before, y, after) => ⟨[y.1], [chainNode first before, chainNode y.2 after]⟩
termination_by rest.length
decreasing_by
  · exact (length_lt_of_splitLoosest _h).1
  · exact (length_lt_of_splitLoosest _h).2

theorem chainNode_nil (first : Node) : chainNode first [] = first := by
  rw [chainNode]
  rfl

theorem chainNode_append {first : Node} {before after : List (Token × Node)} {y : Token × Node}
    (hbefore : ∀ x ∈ before, y.1.priority ≤ x.1.priority) (hafter : ∀ x ∈ after, y.1.priority < x.1.priority) :
    chainNode first (before ++ y :: after) = ⟨[y.1], [chainNode first before, chainNode y.2 after]⟩ := by
  rw [chainNode]
  split
  · next h => simp [splitLoosest_append hbefore hafter] at h
  · next h =>
    rw [splitLoosest_append hbefore hafter] at h
    simp only [Option.some.injEq, Prod.mk.injEq] at h
    obtain ⟨rfl, rfl, rfl⟩ := h
    rfl

/-! ### Trees of derivations -/

mutual

/-- The element that a term stands for. -/
def Term.node : Term → Node
  | .words w ws => ⟨w.token :: ws.map (·.token), []⟩
  | .group ws b _ body => ⟨ws.map (·.token) ++ [b.opening, b.closing], body.nodes⟩

/-- The first operand of an expression, and its operators, each with the operand after it. -/
def Expr.operands : Expr → Node × List (Token × Node)
  | .term t => (t.node, [])
  | .chain e op _ t => (e.operands.1, e.operands.2 ++ [(op.token, t.node)])

/-- The elements that a block stands for: its statements. -/
def Block.nodes : Block → List Node
  | .empty => []
  | .last e => [chainNode e.operands.1 e.operands.2]
  | .statement e stop rest => ⟨[stop.token], [chainNode e.operands.1 e.operands.2]⟩ :: rest.nodes

end

end Grammar
end SiblingSwap
