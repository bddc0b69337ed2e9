import Mathlib.Data.Nat.Digits.Defs
import SiblingSwap.Settings.Check

/-! What counts as a number of lines, and what tells yes or no. Both are said here as relations, kind by kind; the
    conversions accept exactly what is related to a result, with that result. -/

namespace SiblingSwap

/-! ### Digits -/

namespace Text

/-- What a decimal digit stands for. -/
def digit (c : Char) : Nat := c.toNat - '0'.toNat

/-- Digits, after a plus sign or not, for a number of 64 bits. -/
inductive Spells : List Char → Nat → Prop
  | digits {sign ds : List Char} (optional : sign = [] ∨ sign = ['+']) (nonempty : ds ≠ [])
      (decimal : ∀ c ∈ ds, c.isDigit = true) (small : Nat.ofDigits 10 (ds.map digit).reverse < 2 ^ 64) :
      Spells (sign ++ ds) (Nat.ofDigits 10 (ds.map digit).reverse)

theorem small?_eq_none {n : Nat} (h : n < 0x41 ∨ 0x5a < n ∧ n < 0xc0) : small? n = none := by
  have htable : (caseRanges.all fun r => r.first = 0x41 && r.last = 0x5a || 0xc0 ≤ r.first) = true := by decide +kernel
  have hfind : caseRanges.find? (·.has n) = none := by
    refine List.find?_eq_none.mpr fun r hr => ?_
    have := List.all_eq_true.mp htable r hr
    simp only [CaseRange.has, Bool.and_eq_true, Bool.or_eq_true, decide_eq_true_eq] at this ⊢
    omega
  rw [small?, hfind]
  rfl

theorem lowerAfter_eq_self {before k : List Char} (h : ∀ c ∈ k, c.toNat < 0x41 ∨ 0x5a < c.toNat ∧ c.toNat < 0xc0) :
    lowerAfter before k = k := by
  induction k generalizing before with
  | nil => rfl
  | cons c k ih =>
    have hc := h c List.mem_cons_self
    have hsigma : c ≠ 'Σ' := by
      rintro rfl
      simp at hc
    have hdot : c ≠ 'İ' := by
      rintro rfl
      simp at hc
    rw [lowerAfter, if_neg hsigma, if_neg hdot, small?_eq_none hc, ih fun d hd => h d (List.mem_cons_of_mem _ hd)]
    rfl

end Text

namespace Settings

/-! ### Words -/

/-- The words for yes and no. -/
inductive Word : String → Bool → Prop
  | true : Word "true" true
  | on : Word "on" true
  | yes : Word "yes" true
  | false : Word "false" false
  | off : Word "off" false
  | no : Word "no" false

/-- A word for yes or no, in large or small letters. -/
def Answers (s : List Char) (b : Bool) : Prop := Word (String.ofList (Text.lower s)) b

/-- What a single value counts as, for a number of lines. -/
inductive Scalar.Counts : Scalar → Nat → Prop
  | integer {n : Nat} (small : n < 2 ^ 64) : Counts (.integer n) n
  /-- A fraction is rounded, halves away from zero, and cut to what 64 bits hold. -/
  | float (x : Float) : Counts (.float x) x.round.toUInt64.toNat
  | boolean (b : Bool) : Counts (.boolean b) b.toNat
  | word {s : List Char} {b : Bool} (answers : Answers s b) : Counts (.string s) b.toNat
  | digits {s : List Char} {n : Nat} (spells : Text.Spells s n) : Counts (.string s) n

/-- What a single value tells, for yes or no. -/
inductive Scalar.Tells : Scalar → Bool → Prop
  | integer (n : Int) : Tells (.integer n) (n ≠ 0)
  | float (x : Float) : Tells (.float x) (x != 0)
  | boolean (b : Bool) : Tells (.boolean b) b
  | word {s : List Char} {b : Bool} (answers : Answers s b) : Tells (.string s) b
  | one : Tells (.string ['1']) true
  | zero : Tells (.string ['0']) false

namespace Scalar
variable {s : List Char}

end Scalar

namespace Value

/-- What a value counts as. Only a single value counts. -/
def Counts (v : Value) (n : Nat) : Prop := ∃ source s, v = .scalar source s ∧ s.Counts n

/-- What a value tells. Only a single value tells. -/
def Tells (v : Value) (b : Bool) : Prop := ∃ source s, v = .scalar source s ∧ s.Tells b

/-- A number of lines has 64 bits. -/
theorem Counts.lt {v : Value} {n : Nat} (h : v.Counts n) : n < 2 ^ 64 := by
  obtain ⟨_, _, -, h⟩ := h
  cases h with
  | integer small => exact small
  | float x => exact x.round.toUInt64.toNat_lt
  | boolean b | word answers => exact Nat.lt_of_le_of_lt (Bool.toNat_le _) (by decide)
  | digits spells =>
    obtain ⟨-, -, -, small⟩ := spells
    exact small

end Value
end Settings
end SiblingSwap
