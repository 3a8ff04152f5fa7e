import Mathlib

/-!
# Windows of a circular array

A circular array of size `n` is a function `ℕ → α` read at indices below `n`.  Its window of length
`len` from `head` on is the list of the cells `head`, `head + 1`, … with indices taken modulo `n`.

* `window_push`: writing the cell behind the window appends to it, while the window is not full;
* `window_pop`: a non-empty window is its first cell and the window behind it.
-/

namespace LemonCore.Foundation.Circular

variable {α : Type}

/-- The `len` cells from `head` on. -/
def window (n : ℕ) (arr : ℕ → α) (head len : ℕ) : List α :=
  (List.range len).map fun i => arr ((head + i) % n)

@[simp] theorem length_window (n : ℕ) (arr : ℕ → α) (head len : ℕ) :
    (window n arr head len).length = len := by
  simp [window]

theorem window_succ (n : ℕ) (arr : ℕ → α) (head len : ℕ) :
    window n arr head (len + 1) = window n arr head len ++ [arr ((head + len) % n)] := by
  simp [window, List.range_succ]

/-- The indices of a window that is not full are not the one behind it. -/
theorem index_ne {n head i len : ℕ} (hi : i < len) (hlen : len < n) :
    (head + i) % n ≠ (head + len) % n := by
  intro h
  have hmod : (head + i) ≡ (head + len) [MOD n] := h
  have hil : i ≡ len [MOD n] := Nat.ModEq.add_left_cancel' head hmod
  have heq := Nat.ModEq.eq_of_lt_of_lt hil (by omega) hlen
  omega

/-- **Push.**  The cell behind a window that is not full becomes its last. -/
theorem window_push {n : ℕ} (arr : ℕ → α) {head len : ℕ} (hlen : len < n) (x : α) :
    window n (Function.update arr ((head + len) % n) x) head (len + 1) =
      window n arr head len ++ [x] := by
  rw [window_succ, Function.update_self]
  congr 1
  apply List.map_congr_left
  intro i hi
  exact Function.update_of_ne (index_ne (List.mem_range.mp hi) hlen) _ _

/-- **Pop.**  A window that is not empty begins with the cell at its head. -/
theorem window_pop {n : ℕ} (arr : ℕ → α) {head : ℕ} (hhead : head < n) (len : ℕ) :
    window n arr head (len + 1) = arr head :: window n arr ((head + 1) % n) len := by
  rw [window, List.range_succ_eq_map, List.map_cons, List.map_map, Nat.add_zero,
    Nat.mod_eq_of_lt hhead]
  congr 1
  apply List.map_congr_left
  intro i _
  show arr ((head + (i + 1)) % n) = arr (((head + 1) % n + i) % n)
  rw [Nat.mod_add_mod, Nat.add_assoc, Nat.add_comm 1 i]

end LemonCore.Foundation.Circular
