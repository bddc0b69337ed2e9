/-! Texts are lists of characters. A place in a text is a byte offset of its UTF-8 form, so an offset may fall
    inside a character; `splitAt?` is the one test for that. -/

namespace SiblingSwap
namespace Text

/-! ### Size -/

/-- The number of bytes of the UTF-8 form. -/
def size (cs : List Char) : Nat := cs.foldr (fun c n => c.utf8Size + n) 0

@[simp]
theorem size_nil : size [] = 0 := rfl

@[simp]
theorem size_cons (c : Char) (cs : List Char) : size (c :: cs) = c.utf8Size + size cs := rfl

@[simp]
theorem size_append (cs ds : List Char) : size (cs ++ ds) = size cs + size ds := by
  induction cs with
  | nil => simp
  | cons c cs ih => rw [List.cons_append, size_cons, size_cons, ih, Nat.add_assoc]

/-! ### Cutting at an offset -/

/-- The characters before and after byte offset `n`. There are none when `n` lies past the end or inside a character. -/
def splitAt? : Nat → List Char → Option (List Char × List Char)
  | 0, cs => some ([], cs)
  | _ + 1, [] => none
  | n + 1, c :: cs =>
    if c.utf8Size ≤ n + 1 then
      (splitAt? (n + 1 - c.utf8Size) cs).map fun (before, after) => (c :: before, after)
    else none

/-- Offset `n` lies between two characters of the text, or at one of its ends. -/
def isBoundary (n : Nat) (cs : List Char) : Bool := (splitAt? n cs).isSome

/-- A cut loses nothing and leaves `n` bytes before it. -/
theorem splitAt?_eq_some {n : Nat} {cs before after : List Char} (h : splitAt? n cs = some (before, after)) :
    cs = before ++ after ∧ size before = n := by
  fun_induction splitAt? n cs generalizing before after with
  | case1 cs => simp_all
  | case2 => simp at h
  | case3 n c cs hc ih =>
    obtain ⟨⟨b, a⟩, hba, heq⟩ := Option.map_eq_some_iff.1 h
    obtain ⟨rfl, rfl⟩ := Prod.mk.inj heq
    obtain ⟨hcs, hsize⟩ := ih hba
    exact ⟨by simp [hcs], by simp [hsize]; omega⟩
  | case4 => simp at h

/-- Between any two parts of a text there is a cut. -/
@[simp]
theorem splitAt?_size_append (cs ds : List Char) : splitAt? (size cs) (cs ++ ds) = some (cs, ds) := by
  induction cs with
  | nil => cases ds <;> rfl
  | cons c cs ih =>
    have hpos := c.utf8Size_pos
    obtain ⟨n, hn⟩ : ∃ n, c.utf8Size + size cs = n + 1 := ⟨c.utf8Size + size cs - 1, by omega⟩
    have hrest : n + 1 - c.utf8Size = size cs := by omega
    rw [size_cons, hn, List.cons_append, splitAt?, if_pos (by omega), hrest, ih]
    rfl

/-- What is left of a text whose first character starts at `pos`, from the first character that starts at or after
    byte offset `n`, together with the place of that character. -/
def seek (n : Nat) : Nat → List Char → Nat × List Char
  | pos, [] => (pos, [])
  | pos, c :: cs => if n ≤ pos then (pos, c :: cs) else seek n (pos + c.utf8Size) cs

end Text
end SiblingSwap
