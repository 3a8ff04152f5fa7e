import Mathlib

/-!
# Paths through a graph, and their lexical normal form

A path is a list of components.  Walking follows one edge of a graph for each component; normalising
works on the components alone, with a stack: components that stand for "here" are skipped, the
component `up` takes the last one off the stack, and all others are pushed.

* `push`: one turn of the normaliser;
* `Parented`: in the graph, "here" stays where it is, `up` goes back to where the last component came
  from, and stays at the root;
* `Parented.walk_normalize`: **in such a graph the normal form leads to where the path leads**;
* `not_mem_of_mem_splitOn`, `splitOn_cons_join`: splitting a text at a separator.
-/

namespace LemonCore.Foundation.LexicalPaths

variable {ν κ : Type*} [DecidableEq κ]

/-! ### Normal forms -/

/-- One turn of the normaliser. -/
def push (here : κ → Prop) [DecidablePred here] (up : κ) (parts : List κ) (c : κ) : List κ :=
  if here c then parts else if c = up then parts.dropLast else parts ++ [c]

/-- The components that are pushed on the stack. -/
def Plain (here : κ → Prop) (up c : κ) : Prop := ¬ here c ∧ c ≠ up

/-- A graph in which `up` is the way back. -/
structure Parented (step : ν → κ → Option ν) (root : ν) (here : κ → Prop) (up : κ) : Prop where
  here_eq : ∀ {n c m}, here c → step n c = some m → m = n
  up_root : ∀ {m}, step root up = some m → m = root
  up_child : ∀ {n c m k}, Plain here up c → step n c = some m → step m up = some k → k = n

variable {step : ν → κ → Option ν} {root n m : ν} {here : κ → Prop} [DecidablePred here] {up : κ}
  {parts : List κ}

theorem mem_push {c e : κ} (h : e ∈ push here up parts c) :
    e ∈ parts ∨ (e = c ∧ Plain here up c) := by
  rw [push] at h
  split at h
  · exact Or.inl h
  split at h
  · exact Or.inl (List.dropLast_subset _ h)
  rename_i hh hu
  rcases List.mem_append.mp h with h | h
  · exact Or.inl h
  · exact Or.inr ⟨List.mem_singleton.mp h, hh, hu⟩

theorem plain_push (h : ∀ c ∈ parts, Plain here up c) (c : κ) :
    ∀ e ∈ push here up parts c, Plain here up e := by
  intro e he
  rcases mem_push he with he | ⟨heq, hc⟩
  · exact h e he
  · rw [heq]
    exact hc

/-- The normal form has no component that was skipped, and no `up`. -/
theorem plain_foldl_push : ∀ (cs parts : List κ), (∀ c ∈ parts, Plain here up c) →
    ∀ e ∈ cs.foldl (push here up) parts, Plain here up e := by
  intro cs
  induction cs with
  | nil => exact fun _ h => h
  | cons c cs ih => exact fun parts h => ih _ (plain_push h c)

theorem mem_foldl_push {c : κ} : ∀ (cs parts : List κ),
    c ∈ cs.foldl (push here up) parts → c ∈ parts ∨ c ∈ cs := by
  intro cs
  induction cs with
  | nil => exact fun _ h => Or.inl h
  | cons e cs ih =>
    intro parts h
    rcases ih _ h with h | h
    · rcases mem_push h with h | ⟨heq, _⟩
      · exact Or.inl h
      · exact Or.inr (List.mem_cons.mpr (Or.inl heq))
    · exact Or.inr (List.mem_cons_of_mem _ h)

theorem Parented.walk_push (h : Parented step root here up) (hparts : ∀ c ∈ parts, Plain here up c)
    (hn : parts.foldlM step root = some n) {c : κ} (hm : step n c = some m) :
    (push here up parts c).foldlM step root = some m := by
  rw [push]
  split
  · rename_i hh
    rw [h.here_eq hh hm, hn]
  split
  · rename_i _ hu
    subst hu
    -- the last component is the way that `up` goes back
    rcases List.eq_nil_or_concat parts with hnil | ⟨init, last, hlast⟩
    · subst hnil
      cases hn
      rw [h.up_root hm]
      rfl
    · rw [List.concat_eq_append] at hlast
      subst hlast
      rw [List.foldlM_append, Option.bind_eq_bind, Option.bind_eq_some_iff] at hn
      obtain ⟨p, hp, hlast⟩ := hn
      have hedge : step p last = some n := by simpa using hlast
      rw [List.dropLast_concat, hp, h.up_child (hparts last (by simp)) hedge hm]
  · rw [List.foldlM_append, hn, Option.bind_eq_bind, Option.bind_some]
    simpa using hm

/-- **The normal form leads to where the path leads**, from any node that the stack leads to. -/
theorem Parented.walk_normalize (h : Parented step root here up) : ∀ (cs parts : List κ) (n : ν),
    (∀ c ∈ parts, Plain here up c) → parts.foldlM step root = some n → cs.foldlM step n = some m →
    (cs.foldl (push here up) parts).foldlM step root = some m := by
  intro cs
  -- the stack always leads to the node that the walk has reached
  induction cs with
  | nil =>
    intro parts n _ hn hm
    cases hm
    exact hn
  | cons c cs ih =>
    intro parts n hparts hn hm
    rw [List.foldlM_cons, Option.bind_eq_bind, Option.bind_eq_some_iff] at hm
    obtain ⟨k, hk, hm⟩ := hm
    exact ih _ k (plain_push hparts c) (h.walk_push hparts hn hk) hm

/-! ### Splitting at a separator -/

variable {α : Type*} [BEq α] [LawfulBEq α]

theorem not_mem_of_mem_splitOn {a : α} : ∀ (xs : List α), ∀ part ∈ xs.splitOn a, a ∉ part := by
  intro xs
  induction xs with
  | nil =>
    intro part hpart
    rw [List.splitOn_nil, List.mem_singleton] at hpart
    rw [hpart]
    exact List.not_mem_nil
  | cons x xs ih =>
    intro part hpart
    rw [List.splitOn_cons_eq_if_modifyHead] at hpart
    split at hpart
    · rcases List.mem_cons.mp hpart with heq | hpart
      · rw [heq]
        exact List.not_mem_nil
      · exact ih part hpart
    · rename_i hx
      obtain ⟨first, rest, hcons⟩ := List.exists_cons_of_ne_nil (List.splitOn_ne_nil a xs)
      rw [hcons] at hpart ih
      rcases List.mem_cons.mp hpart with heq | hpart
      · rw [heq, List.mem_cons]
        rintro (hax | hmem)
        · exact hx (beq_iff_eq.mpr hax.symm)
        · exact ih first List.mem_cons_self hmem
      · exact ih part (List.mem_cons_of_mem _ hpart)

/-- A text that starts with the separator and goes on with the joined parts. -/
theorem splitOn_cons_join {a : α} {parts : List (List α)} (h : ∀ part ∈ parts, a ∉ part) :
    (a :: [a].intercalate parts).splitOn a = [] :: if parts = [] then [[]] else parts := by
  have hsplit : (a :: [a].intercalate parts).splitOn a =
      [] :: ([a].intercalate parts).splitOn a := by
    have := List.splitOn_append_cons_self (a := a) [] ([a].intercalate parts)
    rwa [List.nil_append, List.splitOn_nil] at this
  rw [hsplit]
  split
  · rename_i hnil
    rw [hnil, List.intercalate_nil, List.splitOn_nil]
  · rename_i hne
    rw [List.splitOn_intercalate a h hne]

end LemonCore.Foundation.LexicalPaths
