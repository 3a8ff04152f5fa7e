import Mathlib

/-!
# Vectors with holes

A growable vector of optional values is a partial map from indices: an index behind the end and an index
with a hole have no value.

* `slotAt`: the partial map;
* `LowestFree`: the index that an allocation has to take;
* `alloc`: the first hole, or a new one at the end; `alloc_spec`: it is the lowest free index, and the map is
  the same; `holes_fill`: how many holes are left;
* `slotAt_set`, `slotAt_pad`: how the map changes.
-/

namespace LemonCore.Foundation.SlotTable

variable {α : Type*} {t : List (Option α)} {i j : ℕ}

/-- The value at an index, if there is one. -/
def slotAt (t : List (Option α)) (i : ℕ) : Option α := t[i]?.join

/-- The index is free, and none below it is. -/
def LowestFree (m : ℕ → Option α) (i : ℕ) : Prop := m i = none ∧ ∀ j, j < i → m j ≠ none

theorem slotAt_of_lt (h : i < t.length) : slotAt t i = t[i] := by
  rw [slotAt, List.getElem?_eq_getElem h]
  rfl

theorem slotAt_of_ge (h : t.length ≤ i) : slotAt t i = none := by
  rw [slotAt, List.getElem?_eq_none h]
  rfl

theorem lt_of_slotAt {v : α} (h : slotAt t i = some v) : i < t.length := by
  by_contra hge
  rw [slotAt_of_ge (Nat.not_lt.mp hge)] at h
  cases h

theorem slotAt_set (h : i < t.length) (v : Option α) :
    slotAt (t.set i v) = Function.update (slotAt t) i v := by
  funext j
  by_cases hji : j = i
  · subst hji
    rw [Function.update_self, slotAt_of_lt (by rw [List.length_set]; exact h), List.getElem_set_self]
  · rw [Function.update_of_ne hji, slotAt, slotAt, List.getElem?_set_ne (fun heq => hji heq.symm)]

theorem slotAt_pad (t : List (Option α)) (n : ℕ) : slotAt (t ++ List.replicate n none) = slotAt t := by
  funext j
  rcases Nat.lt_or_ge j t.length with hlt | hge
  · rw [slotAt, List.getElem?_append_left hlt]
    rfl
  · rw [slotAt_of_ge hge, slotAt, List.getElem?_append_right hge, List.getElem?_replicate]
    split <;> rfl

/-- The table and the index of its first hole, which is added if there is none. -/
def alloc (t : List (Option α)) : List (Option α) × ℕ :=
  match t.findIdx? Option.isNone with
  | some i => (t, i)
  | none => (t ++ [none], t.length)

/-- **`alloc`** finds the lowest free index, and leaves the map as it is. -/
theorem alloc_spec (t : List (Option α)) :
    slotAt (alloc t).1 = slotAt t ∧ LowestFree (slotAt t) (alloc t).2 ∧
      (alloc t).2 < (alloc t).1.length := by
  rw [alloc]
  cases h : t.findIdx? Option.isNone with
  | some i =>
    rw [List.findIdx?_eq_some_iff_getElem] at h
    obtain ⟨hi, hnone, hbefore⟩ := h
    refine ⟨rfl, ⟨?_, ?_⟩, hi⟩
    · rw [slotAt_of_lt hi]
      exact Option.isNone_iff_eq_none.mp hnone
    · intro j hj heq
      rw [slotAt_of_lt (Nat.lt_trans hj hi)] at heq
      exact hbefore j hj (Option.isNone_iff_eq_none.mpr heq)
  | none =>
    rw [List.findIdx?_eq_none_iff] at h
    refine ⟨slotAt_pad t 1, ⟨slotAt_of_ge (Nat.le_refl _), ?_⟩, by simp⟩
    intro j hj heq
    rw [slotAt_of_lt hj] at heq
    have := h t[j] (List.getElem_mem hj)
    rw [heq] at this
    exact absurd this (by simp)

def holes (t : List (Option α)) : ℕ := t.countP Option.isNone

theorem length_alloc (t : List (Option α)) : (alloc t).1.length = t.length + (1 - holes t) := by
  rw [alloc, holes]
  cases h : t.findIdx? Option.isNone with
  | some i =>
    obtain ⟨hi, hnone, _⟩ := List.findIdx?_eq_some_iff_getElem.mp h
    have hpos := List.countP_pos_iff.mpr ⟨t[i], List.getElem_mem hi, hnone⟩
    show t.length = _
    omega
  | none =>
    have hzero : t.countP Option.isNone = 0 :=
      List.countP_eq_zero.mpr fun x hx => by rw [List.findIdx?_eq_none_iff.mp h x hx]; decide
    rw [hzero, List.length_append, List.length_singleton]

theorem holes_fill (t : List (Option α)) (v : α) :
    holes ((alloc t).1.set (alloc t).2 (some v)) = holes t - 1 := by
  rw [alloc, holes, holes]
  cases h : t.findIdx? Option.isNone with
  | some i =>
    obtain ⟨hi, hnone, _⟩ := List.findIdx?_eq_some_iff_getElem.mp h
    rw [List.countP_set hi, if_pos hnone]
    rfl
  | none =>
    have hzero : t.countP Option.isNone = 0 :=
      List.countP_eq_zero.mpr fun x hx => by rw [List.findIdx?_eq_none_iff.mp h x hx]; decide
    rw [hzero, List.set_append_right _ _ (Nat.le_refl _), List.countP_append, hzero, Nat.sub_self]
    rfl

end LemonCore.Foundation.SlotTable
