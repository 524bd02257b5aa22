import Mathlib.Data.List.Infix

/-!
# Compatible lists

Two replicas agree on a growing sequence if what one of them has is a prefix of what the
other has. Replicas that append one element at a time stay compatible as long as each of
them appends what the other already has at that place.
-/

namespace Loom

variable {α : Type*}

/-- One of two lists continues the other. -/
def Compatible (l l' : List α) : Prop := l <+: l' ∨ l' <+: l

namespace Compatible

/-- A list is compatible with itself. -/
theorem refl (l : List α) : Compatible l l := Or.inl List.prefix_rfl

/-- Compatibility does not depend on the order of the two lists. -/
theorem symm {l l' : List α} (h : Compatible l l') : Compatible l' l := Or.symm h

/-- Initial segments of compatible lists are compatible. -/
theorem of_prefix {l l' m m' : List α} (h : Compatible l l') (hm : m <+: l) (hm' : m' <+: l') :
    Compatible m m' := by
  rcases h with h | h
  · exact List.prefix_or_prefix_of_prefix (hm.trans h) hm'
  · exact List.prefix_or_prefix_of_prefix hm (hm'.trans h)

/-- Appending the element that the other list has at that place, if it has one. -/
theorem concat {l l' : List α} (h : Compatible l l') {a : α}
    (ha : ∀ b ∈ l'[l.length]?, b = a) : Compatible (l ++ [a]) l' := by
  rcases h with ⟨m, rfl⟩ | h
  · cases m with
    | nil => exact Or.inr ⟨[a], by simp⟩
    | cons b m =>
      have hb : b = a := ha b (by simp)
      exact Or.inl ⟨m, by simp [hb]⟩
  · exact Or.inr (h.trans (List.prefix_append _ _))

end Compatible

end Loom
