import Mathlib.Data.List.AList

/-!
# Finite maps with an iteration order

A Go map is a finite association without repeated keys. Mathlib's `AList` has
exactly that shape and in addition fixes one iteration order, so a loop over a
map is a loop over some permutation of its key list. The lemmas below state the
two updates as one case distinction on the looked-up key.
-/

namespace Loom

/-- A map from `K` to `V`, with its keys in some iteration order. -/
abbrev GoMap (K V : Type) := AList fun _ : K => V

namespace GoMap

variable {K V : Type} [DecidableEq K]

/-- Reading after a write. -/
theorem lookup_insert_ite (m : GoMap K V) (k k' : K) (v : V) :
    (m.insert k v).lookup k' = if k' = k then some v else m.lookup k' := by
  split
  · subst k'
    exact AList.lookup_insert m
  · exact AList.lookup_insert_ne ‹_›

/-- Reading after a deletion. -/
theorem lookup_erase_ite (m : GoMap K V) (k k' : K) :
    (m.erase k).lookup k' = if k' = k then none else m.lookup k' := by
  split
  · subst k'
    exact AList.lookup_erase _ m
  · exact AList.lookup_erase_ne ‹_›

/-- The keys are exactly the points with a value. -/
theorem mem_keys_iff (m : GoMap K V) (k : K) : k ∈ m.keys ↔ ∃ v, m.lookup k = some v := by
  rw [← AList.mem_keys, ← AList.lookup_isSome, Option.isSome_iff_exists]

/-- A write adds its key. -/
theorem mem_keys_insert (m : GoMap K V) (k : K) (v : V) (k' : K) :
    k' ∈ (m.insert k v).keys ↔ k' = k ∨ k' ∈ m.keys := by
  rw [← AList.mem_keys, AList.mem_insert, AList.mem_keys]

/-- Deleting a list of keys one after the other. -/
def eraseAll (m : GoMap K V) (ks : List K) : GoMap K V :=
  ks.foldl (fun m k => m.erase k) m

/-- Reading after deleting a list of keys. -/
theorem lookup_eraseAll (m : GoMap K V) (ks : List K) (k : K) :
    (eraseAll m ks).lookup k = if k ∈ ks then none else m.lookup k := by
  induction ks generalizing m with
  | nil => simp [eraseAll]
  | cons x xs ih =>
    have h := ih (m.erase x)
    simp only [eraseAll, List.foldl_cons] at h ⊢
    rw [h, lookup_erase_ite]
    by_cases hk : k = x <;> by_cases hxs : k ∈ xs <;> simp [hk, hxs]

/-- The keys left after deleting a list of keys. -/
theorem mem_eraseAll (m : GoMap K V) (ks : List K) (k : K) :
    k ∈ eraseAll m ks ↔ k ∈ m ∧ k ∉ ks := by
  rw [← AList.lookup_isSome, lookup_eraseAll, ← AList.lookup_isSome]
  by_cases hk : k ∈ ks <;> simp [hk]

end GoMap

end Loom
