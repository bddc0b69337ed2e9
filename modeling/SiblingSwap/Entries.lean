/-! Lists of entries under distinct keys, in the order in which the keys were first put. -/

namespace SiblingSwap
namespace Entries

variable {κ α : Type} [BEq κ]

/-- Puts a value under a key, in the place of the one that was there. -/
def put (k : κ) (a : α) : List (κ × α) → List (κ × α)
  | [] => [(k, a)]
  | (k', a') :: es => if k' == k then (k, a) :: es else (k', a') :: put k a es

/-- What was put under a key is found there. -/
@[simp]
theorem lookup_put_self [LawfulBEq κ] (k : κ) (a : α) (es : List (κ × α)) : (put k a es).lookup k = some a := by
  induction es with
  | nil => simp [put]
  | cons e es ih =>
    obtain ⟨k', a'⟩ := e
    by_cases h : k' = k
    · simp [put, h]
    · have hne : (k == k') = false := by simpa using Ne.symm h
      simp [put, h, List.lookup_cons, hne, ih]

/-- Nothing changes under another key. -/
theorem lookup_put_of_ne [LawfulBEq κ] {k k' : κ} (h : k' ≠ k) (a : α) (es : List (κ × α)) :
    (put k a es).lookup k' = es.lookup k' := by
  induction es with
  | nil =>
    have hne : (k' == k) = false := by simpa using h
    simp [put, List.lookup_cons, hne]
  | cons e es ih =>
    obtain ⟨k₁, a₁⟩ := e
    by_cases h₁ : k₁ = k
    · have hne : (k' == k) = false := by simpa using h
      simp [put, h₁, List.lookup_cons, hne]
    · simp [put, h₁, List.lookup_cons, ih]

end Entries
end SiblingSwap
