import Mathlib.Data.List.Sort

/-!
# Segments of integers

`after m n` lists the `n` integers after `m`. A strictly ascending list is such a segment
if it has the members of one, and a set that is closed downwards inside a segment is an
initial part of it.
-/

namespace Loom

/-- The `n` integers after `m`, in ascending order. -/
def after (m : Int) (n : Nat) : List Int := (List.range n).map fun k : Nat => m + 1 + (k : Int)

variable {m h : Int} {n k : Nat} {l : List Int}

/-- The numbers of a segment. -/
theorem mem_after : h ∈ after m n ↔ m < h ∧ h ≤ m + n := by
  simp only [after, List.mem_map, List.mem_range]
  constructor
  · rintro ⟨k, hk, rfl⟩
    omega
  · rintro ⟨hlo, hhi⟩
    exact ⟨(h - m - 1).toNat, by omega, by omega⟩

@[simp] theorem length_after (m : Int) (n : Nat) : (after m n).length = n := by simp [after]

/-- A segment increases. -/
theorem pairwise_after (m : Int) (n : Nat) : (after m n).Pairwise (· < ·) := by
  rw [after, List.pairwise_map]
  refine List.pairwise_lt_range.imp fun {a b} hab => ?_
  omega

/-- Two adjacent segments. -/
theorem after_append (m : Int) (k n : Nat) : after m k ++ after (m + k) n = after m (k + n) := by
  rw [after, after, after, List.range_add, List.map_append, List.map_map]
  congr 1
  refine List.map_congr_left fun j _ => ?_
  simp only [Function.comp_apply]
  omega

/-- A strictly ascending list is determined by its members. -/
theorem eq_after (hs : l.Pairwise (· < ·)) (hm : ∀ h, h ∈ l ↔ m < h ∧ h ≤ m + n) :
    l = after m n := by
  have hlt : ∀ {l : List Int}, l.Pairwise (· < ·) → l.Pairwise (· ≤ ·) ∧ l.Nodup := fun hl =>
    ⟨hl.imp fun hab => Int.le_of_lt hab, hl.imp fun hab => Int.ne_of_lt hab⟩
  obtain ⟨hs₁, hn₁⟩ := hlt hs
  obtain ⟨hs₂, hn₂⟩ := hlt (pairwise_after m n)
  refine List.Perm.eq_of_pairwise' hs₁ hs₂ ?_
  rw [List.perm_ext_iff_of_nodup hn₁ hn₂]
  intro h
  rw [hm, mem_after]

/-- A prefix of a segment is a segment. -/
theorem prefix_after (hp : l <+: after m n) : l = after m l.length := by
  have hle := hp.length_le
  rw [length_after] at hle
  obtain ⟨j, rfl⟩ := Nat.exists_eq_add_of_le hle
  rw [← after_append] at hp
  have hpre := List.prefix_of_prefix_length_le hp (List.prefix_append _ _) (by simp)
  exact hpre.eq_of_length (by simp)

/-- A part of a segment that is closed downwards is an initial segment. -/
theorem exists_initial {P : Int → Prop} (hb : ∀ h, P h → m < h ∧ h ≤ m + n)
    (hd : ∀ h, P h → m < h - 1 → P (h - 1)) : ∃ k ≤ n, ∀ h, P h ↔ m < h ∧ h ≤ m + k := by
  induction n with
  | zero =>
    refine ⟨0, le_rfl, fun h => ⟨hb h, fun hh => ?_⟩⟩
    omega
  | succ n ih =>
    by_cases htop : P (m + (n + 1 : Nat))
    · refine ⟨n + 1, le_rfl, fun h => ⟨hb h, ?_⟩⟩
      rintro ⟨hlo, hhi⟩
      obtain ⟨j, hj⟩ : ∃ j : Nat, h = m + (n + 1 : Nat) - j :=
        ⟨(m + (n + 1 : Nat) - h).toNat, by omega⟩
      subst hj
      induction j with
      | zero => simpa using htop
      | succ j ihj =>
        have hprev := ihj (by omega) (by omega)
        have hnext := hd _ hprev (by omega)
        rwa [show m + ((n + 1 : Nat) : Int) - (j : Int) - 1 =
          m + (n + 1 : Nat) - (j + 1 : Nat) by omega]
          at hnext
    · obtain ⟨k, hk, hiff⟩ := ih fun h hh => by
        have hbound := hb h hh
        have hne : h ≠ m + (n + 1 : Nat) := fun he => htop (he ▸ hh)
        omega
      exact ⟨k, by omega, hiff⟩

end Loom
