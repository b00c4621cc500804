import Unescape.Text.Units

set_option autoImplicit false

/-! # Spans of a text

A span is a pair of unit offsets. Spans come from callers, so nothing relates the two offsets: a
span may be reversed, end past the text, or cut a character. `Text.slice?` accepts exactly the
spans that name a part of the text (`slice?_eq_some_iff`). -/

namespace Unescape

/-- The unit offsets from `start` up to, and without, `stop`. -/
structure Span where
  start : Nat
  stop : Nat
deriving DecidableEq, Repr, Inhabited

namespace Span

/-- The span moved `delta` units further on. -/
def shift (s : Span) (delta : Nat) : Span := ⟨s.start + delta, s.stop + delta⟩

@[simp] theorem start_shift (s : Span) (delta : Nat) : (s.shift delta).start = s.start + delta := rfl

@[simp] theorem stop_shift (s : Span) (delta : Nat) : (s.shift delta).stop = s.stop + delta := rfl

/-- Both ends count as inside: a cursor just behind the last unit still touches the span. -/
def touches (s : Span) (offset : Nat) : Bool := s.start ≤ offset && offset ≤ s.stop

end Span

/-- The part of a text that a span names, if both ends are boundaries in the right order. -/
def Text.slice? (t : Text) (s : Span) : Option Text :=
  if s.start ≤ s.stop then
    match Text.splitAt? t s.start with
    | some (_, rest) => (Text.splitAt? rest (s.stop - s.start)).map (·.1)
    | none => none
  else none

/-- A slice is what stands between a prefix that ends at the start and a suffix. -/
theorem Text.slice?_eq_some_iff (t : Text) (s : Span) (m : Text) :
    Text.slice? t s = some m ↔
      s.start ≤ s.stop ∧ ∃ p q, t = p ++ m ++ q ∧ units p = s.start ∧
        units m = s.stop - s.start := by
  unfold slice?
  split
  · rename_i hle
    constructor
    · intro h
      split at h
      · rename_i p rest hp
        obtain ⟨⟨m', q⟩, hm, rfl⟩ := Option.map_eq_some_iff.1 h
        obtain ⟨rfl, hu⟩ := (splitAt?_eq_some_iff _ _ _ _).1 hp
        obtain ⟨rfl, hv⟩ := (splitAt?_eq_some_iff _ _ _ _).1 hm
        exact ⟨hle, p, q, by simp, hu, hv⟩
      · simp at h
    · rintro ⟨_, p, q, rfl, hp, hm⟩
      have h₁ : splitAt? (p ++ m ++ q) s.start = some (p, m ++ q) :=
        (splitAt?_eq_some_iff _ _ _ _).2 ⟨by simp, hp⟩
      have h₂ : splitAt? (m ++ q) (s.stop - s.start) = some (m, q) :=
        (splitAt?_eq_some_iff _ _ _ _).2 ⟨rfl, hm⟩
      rw [h₁]
      simp [h₂]
  · rename_i hle
    simp [hle]

/-- From the start of a text to its end is all of it. -/
theorem Text.slice?_whole (t : Text) : Text.slice? t ⟨0, units t⟩ = some t :=
  (slice?_eq_some_iff t ⟨0, units t⟩ t).2 ⟨Nat.zero_le _, [], [], by simp, rfl, rfl⟩

end Unescape
