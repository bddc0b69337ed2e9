import SiblingSwap.Text.Basic

/-! A span is a stretch of byte offsets from `start` up to `stop`. Nothing forces `start` to come first: a span that
    cuts no text is still a span, and cutting with it fails. -/

namespace SiblingSwap

/-- The bytes from `start` up to, and without, `stop`. -/
structure Span where
  start : Nat
  stop : Nat
deriving DecidableEq, Repr, Inhabited

namespace Span

/-- Both ends count as inside, so a cursor right after an element is still on it. -/
def contains (s : Span) (pos : Nat) : Bool := s.start ≤ pos && pos ≤ s.stop

end Span

namespace Text

/-- The parts of a text before, inside and after a span. There are none when an end of the span is no boundary of the
    text, or the ends are out of order. -/
def cut? (s : Span) (cs : List Char) : Option (List Char × List Char × List Char) :=
  if s.start ≤ s.stop then
    (splitAt? s.start cs).bind fun (before, rest) =>
      (splitAt? (s.stop - s.start) rest).map fun (inside, after) => (before, inside, after)
  else none

/-- A cut by a span loses nothing, and the span tells the sizes of its parts. -/
theorem cut?_eq_some {s : Span} {cs before inside after : List Char}
    (h : cut? s cs = some (before, inside, after)) :
    cs = before ++ inside ++ after ∧ size before = s.start ∧ size before + size inside = s.stop := by
  unfold cut? at h
  split at h
  · obtain ⟨⟨b, rest⟩, hb, h⟩ := Option.bind_eq_some_iff.1 h
    obtain ⟨⟨i, a⟩, hi, heq⟩ := Option.map_eq_some_iff.1 h
    simp only [Prod.mk.injEq] at heq
    obtain ⟨rfl, rfl, rfl⟩ := heq
    obtain ⟨hcs, hsb⟩ := splitAt?_eq_some hb
    obtain ⟨hrest, hsi⟩ := splitAt?_eq_some hi
    exact ⟨by simp [hcs, hrest], hsb, by omega⟩
  · simp at h

/-- Three parts of a text are the cut by the span of the middle one. -/
@[simp]
theorem cut?_size_append (before inside after : List Char) :
    cut? ⟨size before, size before + size inside⟩ (before ++ (inside ++ after)) = some (before, inside, after) := by
  simp [cut?]

end Text
end SiblingSwap
