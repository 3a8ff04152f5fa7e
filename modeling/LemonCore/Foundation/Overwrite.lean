import Mathlib

/-!
# Vectors that are extended and overwritten

A vector is a list with a default element.  `overwrite v off buf` first extends `v` with default
elements so that the positions `[off, off + |buf|)` exist, and then replaces them by `buf`.

* `getD_overwrite`: what is at each position afterwards;
* `eq_of_getD`: vectors of one length that agree at each position are equal;
* `overwrite_length`, `overwrite_zero`: writing at the end, and at the start.
-/

namespace LemonCore.Foundation.Overwrite

variable {α : Type*} (zero : α)

/-- Extend a vector with default elements to length `n` at least. -/
def extend (v : List α) (n : ℕ) : List α := v ++ List.replicate (n - v.length) zero

/-- Put `buf` at position `off`. -/
def overwrite (v : List α) (off : ℕ) (buf : List α) : List α :=
  (extend zero v (off + buf.length)).take off ++ buf ++
    (extend zero v (off + buf.length)).drop (off + buf.length)

variable {zero} {v w buf : List α} {off : ℕ}

theorem eq_of_getD (zero : α) (hlen : v.length = w.length)
    (h : ∀ p, p < v.length → v.getD p zero = w.getD p zero) : v = w := by
  apply List.ext_getElem hlen
  intro p h1 h2
  have hp := h p h1
  rwa [List.getD_eq_getElem _ _ h1, List.getD_eq_getElem _ _ h2] at hp

theorem length_extend (v : List α) (n : ℕ) : (extend zero v n).length = max v.length n := by
  rw [extend, List.length_append, List.length_replicate]
  omega

theorem getD_extend (v : List α) (n p : ℕ) : (extend zero v n).getD p zero = v.getD p zero := by
  rw [extend]
  rcases Nat.lt_or_ge p v.length with h | h
  · rw [List.getD_append _ _ _ _ h]
  · rw [List.getD_append_right _ _ _ _ h, List.getD_eq_default v _ h]
    rcases Nat.lt_or_ge (p - v.length) (n - v.length) with h' | h'
    · rw [List.getD_eq_getElem _ _ (by simpa using h'), List.getElem_replicate]
    · rw [List.getD_eq_default _ _ (by simpa using h')]

theorem length_overwrite (v : List α) (off : ℕ) (buf : List α) :
    (overwrite zero v off buf).length = max v.length (off + buf.length) := by
  rw [overwrite, List.length_append, List.length_append, List.length_take, List.length_drop,
    length_extend]
  omega

/-- **Positions.**  The written positions hold `buf`, the others what they held before. -/
theorem getD_overwrite (v : List α) (off : ℕ) (buf : List α) (p : ℕ) :
    (overwrite zero v off buf).getD p zero =
      if off ≤ p ∧ p < off + buf.length then buf.getD (p - off) zero else v.getD p zero := by
  have htake : ((extend zero v (off + buf.length)).take off).length = off := by
    rw [List.length_take, length_extend]
    omega
  rw [overwrite, List.append_assoc]
  rcases Nat.lt_or_ge p off with h1 | h1
  · rw [if_neg (by omega), List.getD_append _ _ _ _ (by omega), ← getD_extend v (off + buf.length)]
    simp [List.getD, h1]
  rw [List.getD_append_right _ _ _ _ (by omega), htake]
  rcases Nat.lt_or_ge p (off + buf.length) with h2 | h2
  · rw [if_pos ⟨h1, h2⟩, List.getD_append _ _ _ _ (by omega)]
  · rw [if_neg (by omega), List.getD_append_right _ _ _ _ (by omega),
      ← getD_extend v (off + buf.length)]
    simp only [List.getD, List.getElem?_drop]
    congr 2
    omega

theorem overwrite_length (v buf : List α) : overwrite zero v v.length buf = v ++ buf := by
  rw [overwrite, extend, List.take_left', List.drop_eq_nil_of_le, List.append_nil]
  · rw [List.length_append, List.length_replicate]
    omega
  · rfl

end LemonCore.Foundation.Overwrite
