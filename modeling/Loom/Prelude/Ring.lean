import Mathlib.Data.Nat.ModEq
import Mathlib.Data.List.Range

/-!
# Windows of ring buffers

The content of a ring buffer is the window of its cells from a start position on, with
positions taken modulo the length. Writing behind the window extends it, and reading from
its front splits it.
-/

namespace Loom.Ring

variable {α : Type} {d : α} {buf : List α} {start n : Nat}

/-- The `n` cells from `start` on; `d` stands for a missing cell. -/
def window (d : α) (buf : List α) (start n : Nat) : List α :=
  (List.range n).map fun k => buf.getD ((start + k) % buf.length) d

@[simp] theorem length_window : (window d buf start n).length = n := by simp [window]

/-- A longer window has one more entry at the end. -/
theorem window_succ :
    window d buf start (n + 1) =
      window d buf start n ++ [buf.getD ((start + n) % buf.length) d] := by
  simp [window, List.range_succ]

/-- A window falls into a front part and the window behind it. -/
theorem window_append (m : Nat) :
    window d buf start (m + n) = window d buf start m ++ window d buf (start + m) n := by
  simp [window, List.range_add, Nat.add_assoc]

/-- Only the position of the start in the ring matters. -/
theorem window_congr {start' : Nat} (h : start % buf.length = start' % buf.length) :
    window d buf start n = window d buf start' n := by
  unfold window
  apply List.map_congr_left
  intro k _
  rw [Nat.add_mod, h, ← Nat.add_mod]

/-- Positions less than a turn apart are different. -/
theorem add_mod_ne (start : Nat) {m k : Nat} (hkn : k < n) (hnm : n < m) :
    (start + k) % m ≠ (start + n) % m := by
  intro h
  have hmod : k ≡ n [MOD m] := Nat.ModEq.add_left_cancel' start h
  have heq := Nat.ModEq.eq_of_lt_of_lt hmod (hkn.trans hnm) hnm
  omega

/-- Writing the cell behind a window that does not fill the ring. -/
theorem window_set (hn : n < buf.length) (x : α) :
    window d (buf.set ((start + n) % buf.length) x) start (n + 1) =
      window d buf start n ++ [x] := by
  rw [window_succ, List.length_set]
  congr 1
  · unfold window
    apply List.map_congr_left
    intro k hk
    have hne := add_mod_ne start (List.mem_range.mp hk) hn
    simp [List.getD_eq_getElem?_getD, List.getElem?_set_ne (Ne.symm hne)]
  · have hlt : (start + n) % buf.length < buf.length := Nat.mod_lt _ (by omega)
    simp [List.getD_eq_getElem?_getD, hlt]

end Loom.Ring
