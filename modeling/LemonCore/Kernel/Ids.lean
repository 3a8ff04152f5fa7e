import Mathlib

/-!
# Identifiers that are recycled (`kernel/src/task/id.rs`)

`RecycleAllocator` hands out process and thread ids: the id released last if there is one, otherwise the
next new one.  That the released ids are distinct and were handed out before is part of the structure.

* `alloc_spec`: `alloc` hands out an id that is not in use;
* `dealloc_isSome_iff`: the asserts of `dealloc` hold exactly for the ids in use.
-/

namespace LemonCore.Kernel

structure RecycleAllocator where
  current : ℕ
  /-- the released ids, the last one first -/
  recycled : List ℕ
  recycled_lt : ∀ id ∈ recycled, id < current
  recycled_nodup : recycled.Nodup
  deriving DecidableEq

namespace RecycleAllocator

/-- `RecycleAllocator::new`. -/
def new : RecycleAllocator := ⟨0, [], by simp, List.nodup_nil⟩

/-- `RecycleAllocator::alloc`. -/
def alloc (a : RecycleAllocator) : ℕ × RecycleAllocator :=
  match h : a.recycled with
  | id :: rest =>
    (id, ⟨a.current, rest, fun i hi => a.recycled_lt i (by rw [h]; exact List.mem_cons_of_mem id hi),
      (List.nodup_cons.mp (h ▸ a.recycled_nodup)).2⟩)
  | [] => (a.current, ⟨a.current + 1, [], by simp, List.nodup_nil⟩)

/-- `RecycleAllocator::dealloc`; `none` if one of its asserts fails. -/
def dealloc (a : RecycleAllocator) (id : ℕ) : Option RecycleAllocator :=
  if h : id < a.current ∧ id ∉ a.recycled then
    some ⟨a.current, id :: a.recycled, by
      intro i hi
      rcases List.mem_cons.mp hi with rfl | hi
      · exact h.1
      · exact a.recycled_lt i hi, List.nodup_cons.mpr ⟨h.2, a.recycled_nodup⟩⟩
  else none

/-- The ids in use. -/
def InUse (a : RecycleAllocator) (id : ℕ) : Prop := id < a.current ∧ id ∉ a.recycled

instance (a : RecycleAllocator) (id : ℕ) : Decidable (a.InUse id) :=
  inferInstanceAs (Decidable (_ ∧ _))

/-- The id that is handed out next: the one released last, if there is one. -/
def next (a : RecycleAllocator) : ℕ := a.recycled.head?.getD a.current

theorem not_inUse_new (id : ℕ) : ¬ new.InUse id := fun h => absurd h.1 (Nat.not_lt_zero id)

variable {a a' : RecycleAllocator}

theorem alloc_spec (a : RecycleAllocator) :
    ¬ a.InUse a.alloc.1 ∧ (∀ id, a.alloc.2.InUse id ↔ a.InUse id ∨ id = a.alloc.1) ∧
    ((∃ rest, a.recycled = a.alloc.1 :: rest ∧ a.alloc.2.current = a.current) ∨
     (a.recycled = [] ∧ a.alloc.1 = a.current ∧ a.alloc.2.current = a.current + 1)) := by
  have hlt := a.recycled_lt
  have hnodup := a.recycled_nodup
  rw [alloc]
  split
  · rename_i id rest h
    rw [h] at hlt hnodup
    have hid := hlt id List.mem_cons_self
    have hrest := (List.nodup_cons.mp hnodup).1
    refine ⟨?_, ?_, Or.inl ⟨rest, h, rfl⟩⟩
    · simp [InUse, h]
    · intro i
      simp only [InUse, h, List.mem_cons]
      by_cases hi : i = id
      · subst hi
        simp [hid, hrest]
      · simp [hi]
  · rename_i h
    refine ⟨?_, ?_, Or.inr ⟨h, rfl, rfl⟩⟩
    · simp [InUse]
    · intro i
      simp only [InUse, h, List.not_mem_nil, not_false_eq_true, and_true]
      omega

theorem alloc_fst (a : RecycleAllocator) : a.alloc.1 = a.next := by
  rw [next]
  rcases a.alloc_spec.2.2 with ⟨rest, hrecycled, _⟩ | ⟨hrecycled, hfresh, _⟩
  · rw [hrecycled]
    rfl
  · rw [hrecycled, hfresh]
    rfl

theorem dealloc_spec {id : ℕ} (h : a.dealloc id = some a') :
    a.InUse id ∧ (∀ i, a'.InUse i ↔ a.InUse i ∧ i ≠ id) ∧ a'.current = a.current := by
  rw [dealloc] at h
  split at h
  · rename_i huse
    cases h
    refine ⟨huse, ?_, rfl⟩
    intro i
    simp only [InUse, List.mem_cons]
    by_cases hi : i = id
    · simp [hi]
    · simp [hi]
  · cases h

theorem dealloc_isSome_iff {id : ℕ} : (a.dealloc id).isSome ↔ a.InUse id := by
  rw [dealloc, InUse]
  split
  · rename_i h
    simp [h]
  · rename_i h
    simpa using h

end RecycleAllocator

end LemonCore.Kernel
