import Mathlib

/-!
# Removing an element by moving the last one into its place

* `swapRemove_perm`: up to order, one element is gone;
* `getElem?_swapRemove`: the elements before it stay where they are;
* `mem_swapRemove`: when the elements have different keys, exactly those with another key are left.
-/

namespace LemonCore.Foundation.SwapRemove

variable {α β : Type*} {l : List α} {i j : ℕ}

/-- Element `i` is overwritten with the last one, which is then cut off. -/
def swapRemove (l : List α) (i : ℕ) : List α :=
  match l.getLast? with
  | none => []
  | some a => (l.set i a).dropLast

theorem swapRemove_eq {a : α} (h : l.getLast? = some a) : swapRemove l i = (l.set i a).dropLast := by
  rw [swapRemove, h]

theorem swapRemove_concat (l : List α) (a : α) (i : ℕ) :
    swapRemove (l ++ [a]) i = ((l ++ [a]).set i a).dropLast := swapRemove_eq List.getLast?_concat

/-- **Removal.** -/
theorem swapRemove_perm (h : i < l.length) : (swapRemove l i).Perm (l.eraseIdx i) := by
  induction l using List.reverseRecOn with
  | nil => exact absurd h (Nat.not_lt_zero i)
  | append_singleton l a _ =>
    rw [swapRemove_concat]
    rw [List.length_append, List.length_singleton] at h
    rcases Nat.lt_or_ge i l.length with hlt | hge
    · rw [List.set_append_left _ _ hlt, List.dropLast_concat, List.eraseIdx_append_of_lt_length hlt]
      exact (List.set_perm_cons_eraseIdx hlt a).trans (List.perm_append_singleton _ _).symm
    · have heq : i = l.length := by omega
      subst heq
      rw [List.set_append_right _ _ (Nat.le_refl _), List.eraseIdx_append_of_length_le (Nat.le_refl _)]
      simp

theorem length_swapRemove (h : i < l.length) : (swapRemove l i).length + 1 = l.length := by
  rw [(swapRemove_perm h).length_eq, List.length_eraseIdx_of_lt h]
  omega

theorem getElem?_swapRemove (h : i < l.length) (hj : j < i) : (swapRemove l i)[j]? = l[j]? := by
  induction l using List.reverseRecOn with
  | nil => exact absurd h (Nat.not_lt_zero i)
  | append_singleton l a _ =>
    rw [List.length_append, List.length_singleton] at h
    rw [swapRemove_concat, List.getElem?_dropLast, List.length_set, List.length_append,
      List.length_singleton, if_pos (by omega), List.getElem?_set_ne (by omega)]

theorem nodup_map_swapRemove {f : α → β} (hnd : (l.map f).Nodup) (h : i < l.length) :
    ((swapRemove l i).map f).Nodup := by
  refine ((swapRemove_perm h).map f).nodup_iff.mpr (hnd.sublist ?_)
  exact (List.eraseIdx_sublist l i).map f

/-- **What is left** are the elements with another key. -/
theorem mem_swapRemove {f : α → β} (hnd : (l.map f).Nodup) (h : i < l.length) {x : α} :
    x ∈ swapRemove l i ↔ x ∈ l ∧ f x ≠ f l[i] := by
  have hinj := List.nodup_iff_injective_get.mp hnd
  rw [(swapRemove_perm h).mem_iff, List.mem_eraseIdx_iff_getElem]
  constructor
  · rintro ⟨j, hj, hne, hx⟩
    subst hx
    refine ⟨List.getElem_mem hj, fun heq => hne ?_⟩
    have hij := @hinj ⟨j, by simpa using hj⟩ ⟨i, by simpa using h⟩ (by simpa using heq)
    exact congrArg Fin.val hij
  · rintro ⟨hx, hne⟩
    obtain ⟨j, hj, heq⟩ := List.getElem_of_mem hx
    subst heq
    refine ⟨j, hj, fun hji => hne ?_, rfl⟩
    subst hji
    rfl

end LemonCore.Foundation.SwapRemove
