import Mathlib

/-!
# Radix trees of tables that point to tables

A table of a radix tree holds, for every index, a pointer to a table of the next level or nothing; the
tables of the last level point to the values.  All tables are cells of one memory, so a write to one
table could change what a walk finds through another.  `Labelled` excludes that: a labelling gives every
table of the tree its path from the root, and since a table has one label, it is reached along one path.

* `walk_label`: a walk ends at the table whose label is the path it took;
* `walk_set`: a write to a last-level table changes the walk of one path only;
* `walk_grow`, `Labelled.grow`: hanging an empty table into a free slot changes no walk and keeps the
  labelling.
-/

namespace LemonCore.Foundation.RadixTree

variable {F I : Type}

/-- Follow the pointers along a list of indices. -/
def walk (ptr : F → I → Option F) : F → List I → Option F
  | t, [] => some t
  | t, i :: is => (ptr t i).bind fun c => walk ptr c is

@[simp] theorem walk_nil (ptr : F → I → Option F) (t : F) : walk ptr t [] = some t := rfl

theorem walk_cons (ptr : F → I → Option F) (t : F) (i : I) (is : List I) :
    walk ptr t (i :: is) = (ptr t i).bind fun c => walk ptr c is := rfl

theorem walk_concat (ptr : F → I → Option F) (i : I) (is : List I) :
    ∀ t, walk ptr t (is ++ [i]) = (walk ptr t is).bind fun c => ptr c i := by
  induction is with
  | nil => intro t; simp [walk]
  | cons j js ih =>
    intro t
    show ((ptr t j).bind fun c => walk ptr c (js ++ [i])) = _
    cases hj : ptr t j with
    | none => simp [walk, hj]
    | some c => simpa [walk, hj] using ih c

/-- `label` gives the tables of the tree below `root` their path from the root, last index first.  A
tree of depth `d` has tables with paths shorter than `d`. -/
structure Labelled (ptr : F → I → Option F) (root : F) (d : ℕ) (label : F → Option (List I)) : Prop where
  root : label root = some []
  child : ∀ {t p i c}, label t = some p → p.length + 1 < d → ptr t i = some c → label c = some (i :: p)

variable {ptr ptr' : F → I → Option F} {root t : F} {d : ℕ} {label : F → Option (List I)}

theorem Labelled.congr (hl : Labelled ptr root d label) (h : ∀ t, label t ≠ none → ptr' t = ptr t) :
    Labelled ptr' root d label where
  root := hl.root
  child := by
    intro t p i c ht hlt hc
    rw [h t (by simp [ht])] at hc
    exact hl.child ht hlt hc

/-- A walk inside the tree ends at the table whose label is the path walked. -/
theorem walk_label (hl : Labelled ptr root d label) (is : List I) : ∀ {s p c}, label s = some p →
    p.length + is.length < d → walk ptr s is = some c → label c = some (is.reverse ++ p) := by
  induction is with
  | nil =>
    intro s p c hs _ hw
    simp only [walk_nil, Option.some.injEq] at hw
    subst hw
    simpa using hs
  | cons i is ih =>
    intro s p c hs hlt hw
    rw [walk_cons, Option.bind_eq_some_iff] at hw
    obtain ⟨c', hc', hw'⟩ := hw
    simp only [List.length_cons] at hlt
    have hchild : label c' = some (i :: p) := hl.child hs (by omega) hc'
    have := ih hchild (by simp only [List.length_cons]; omega) hw'
    simpa using this

/-- Two pointer functions that agree on the tables of the tree give the same walks in it. -/
theorem walk_congr (hl : Labelled ptr root d label) (n : ℕ)
    (h : ∀ t p, label t = some p → p.length < n → ptr' t = ptr t) (hn : n ≤ d) (is : List I) :
    ∀ {s p}, label s = some p → p.length + is.length ≤ n → walk ptr' s is = walk ptr s is := by
  induction is with
  | nil => intro s p _ _; rfl
  | cons i is ih =>
    intro s p hs hle
    simp only [List.length_cons] at hle
    rw [walk_cons, walk_cons, h s p hs (by omega)]
    cases hc : ptr s i with
    | none => rfl
    | some c =>
      cases is with
      | nil => rfl
      | cons j js =>
        simp only [List.length_cons] at hle
        have hchild : label c = some (i :: p) := hl.child hs (by omega) hc
        exact ih hchild (by simp only [List.length_cons]; omega)

theorem ne_of_label {s g : F} {q : List I} (hs : label s = some q) (hg : label g = none) : s ≠ g := by
  rintro rfl
  rw [hs] at hg
  cases hg

variable [DecidableEq F] [DecidableEq I]

/-- The entry `i` of the table `t` overwritten. -/
def setPtr (ptr : F → I → Option F) (t : F) (i : I) (x : Option F) : F → I → Option F :=
  Function.update ptr t (Function.update (ptr t) i x)

theorem setPtr_of_ne {s : F} (h : s ≠ t) (i : I) (x : Option F) : setPtr ptr t i x s = ptr s :=
  Function.update_of_ne h _ _

theorem setPtr_self (i j : I) (x : Option F) : setPtr ptr t i x t j = if j = i then x else ptr t j := by
  simp [setPtr, Function.update_apply]

/-- Writing to a last-level table keeps the labelling: what such a table points to is no table. -/
theorem Labelled.set (hl : Labelled ptr root d label) {p : List I} (ht : label t = some p)
    (hp : p.length + 1 = d) (i : I) (x : Option F) : Labelled (setPtr ptr t i x) root d label where
  root := hl.root
  child := by
    intro s q j c hs hlt hc
    have hne : s ≠ t := by
      rintro rfl
      rw [hs] at ht
      cases ht
      omega
    rw [setPtr_of_ne hne] at hc
    exact hl.child hs hlt hc

/-- **A write to a last-level table changes one path.**  The table `t` is the one the path `is` leads
to; after its entry `i` is overwritten with `x`, the path `is ++ [i]` leads to `x` and every other full
path to where it led before. -/
theorem walk_set (hl : Labelled ptr root d label) {is js : List I} {i j : I} (his : is.length + 1 = d)
    (hjs : js.length + 1 = d) (hw : walk ptr root is = some t) (x : Option F) :
    walk (setPtr ptr t i x) root (js ++ [j]) =
      if js = is ∧ j = i then x else walk ptr root (js ++ [j]) := by
  have ht : label t = some is.reverse := by
    simpa using walk_label hl is hl.root (by simp only [List.length_nil]; omega) hw
  -- The tables above the last level are not touched.
  have habove : walk (setPtr ptr t i x) root js = walk ptr root js := by
    refine walk_congr hl (d - 1) ?_ (by omega) js hl.root (by simp only [List.length_nil]; omega)
    intro s p hs hlt
    refine setPtr_of_ne ?_ i x
    rintro rfl
    rw [ht] at hs
    cases hs
    rw [List.length_reverse] at hlt
    omega
  rw [walk_concat, walk_concat, habove]
  cases hc : walk ptr root js with
  | none =>
    have : ¬ (js = is ∧ j = i) := by
      rintro ⟨hji, _⟩
      rw [hji, hw] at hc
      cases hc
    rw [if_neg this]
    rfl
  | some c =>
    show setPtr ptr t i x c j = _
    by_cases hct : c = t
    · have hcl : label c = some js.reverse := by
        simpa using walk_label hl js hl.root (by simp only [List.length_nil]; omega) hc
      have hji : js = is := by
        rw [hct, ht, Option.some.injEq] at hcl
        exact (List.reverse_injective hcl).symm
      rw [hct, setPtr_self]
      simp [hji]
    · have hji : js ≠ is := by
        intro hji
        rw [hji, hw, Option.some.injEq] at hc
        exact hct hc.symm
      rw [setPtr_of_ne hct]
      simp [hji]

/-- The empty table `g` hung into the entry `i` of `t`. -/
def grow (ptr : F → I → Option F) (t : F) (i : I) (g : F) : F → I → Option F :=
  setPtr (Function.update ptr g fun _ => none) t i (some g)

variable {g : F} {p : List I} {i : I}

theorem grow_of_ne {s : F} (hst : s ≠ t) (hsg : s ≠ g) : grow ptr t i g s = ptr s := by
  rw [grow, setPtr_of_ne hst, Function.update_of_ne hsg]

theorem grow_new (htg : t ≠ g) : grow ptr t i g g = fun _ => none := by
  rw [grow, setPtr_of_ne htg.symm, Function.update_self]

theorem grow_self (htg : t ≠ g) (j : I) : grow ptr t i g t j = if j = i then some g else ptr t j := by
  rw [grow, setPtr_self, Function.update_of_ne htg]

theorem Labelled.grow (hl : Labelled ptr root d label) (ht : label t = some p) (hg : label g = none) :
    Labelled (grow ptr t i g) root d (Function.update label g (some (i :: p))) := by
  have htg : t ≠ g := ne_of_label ht hg
  -- A child that had a label before keeps it.
  have hold : ∀ {s q j c}, label s = some q → q.length + 1 < d → ptr s j = some c →
      Function.update label g (some (i :: p)) c = some (j :: q) := by
    intro s q j c hs hlt hc
    have hcl := hl.child hs hlt hc
    rw [Function.update_of_ne (ne_of_label hcl hg)]
    exact hcl
  constructor
  · rw [Function.update_of_ne (ne_of_label hl.root hg)]
    exact hl.root
  · intro s q j c hs hlt hc
    by_cases hsg : s = g
    · rw [hsg, grow_new htg] at hc
      cases hc
    · rw [Function.update_of_ne hsg] at hs
      by_cases hst : s = t
      · subst hst
        rw [grow_self htg] at hc
        by_cases hji : j = i
        · rw [if_pos hji, Option.some.injEq] at hc
          rw [ht, Option.some.injEq] at hs
          rw [← hc, Function.update_self, hji, hs]
        · rw [if_neg hji] at hc
          exact hold hs hlt hc
      · rw [grow_of_ne hst hsg] at hc
        exact hold hs hlt hc

/-- **Hanging an empty table into a free slot changes no full path.** -/
theorem walk_grow (hl : Labelled ptr root d label) (ht : label t = some p) (hp : p.length + 1 < d)
    (hg : label g = none) (hfree : ptr t i = none) (is : List I) : ∀ {s q}, label s = some q →
    q.length + is.length = d → walk (grow ptr t i g) s is = walk ptr s is := by
  have htg : t ≠ g := ne_of_label ht hg
  induction is with
  | nil => intro s q _ _; rfl
  | cons j js ih =>
    intro s q hs hd
    simp only [List.length_cons] at hd
    -- Below a slot that both trees share the induction hypothesis applies.
    have hbelow : (ptr s j).bind (fun c => walk (RadixTree.grow ptr t i g) c js) =
        (ptr s j).bind fun c => walk ptr c js := by
      cases hc : ptr s j with
      | none => rfl
      | some c =>
        cases js with
        | nil => rfl
        | cons k ks =>
          simp only [List.length_cons] at hd
          have hcl := hl.child hs (by omega) hc
          exact ih hcl (by simp only [List.length_cons]; omega)
    rw [walk_cons, walk_cons, ← hbelow]
    by_cases hst : s = t
    · subst hst
      rw [grow_self htg]
      by_cases hji : j = i
      · -- The new slot: before the walk ended here, now it ends in the empty table.
        rw [if_pos hji, hji, hfree]
        rw [ht, Option.some.injEq] at hs
        subst hs
        cases js with
        | nil => simp only [List.length_nil] at hd; omega
        | cons k ks =>
          show walk (RadixTree.grow ptr s i g) g (k :: ks) = none
          rw [walk_cons, grow_new htg]
          rfl
      · rw [if_neg hji]
    · rw [grow_of_ne hst (ne_of_label hs hg)]

/-- A walk that ends above the leaves goes on as before, or it was stuck and now ends at the new
table. -/
theorem walk_grow_or (hl : Labelled ptr root d label) (ht : label t = some p) (hg : label g = none)
    (hfree : ptr t i = none) (is : List I) : ∀ {s q}, label s = some q → q.length + is.length < d →
    walk (grow ptr t i g) s is = walk ptr s is ∨
      (walk ptr s is = none ∧ walk (grow ptr t i g) s is = some g) := by
  have htg : t ≠ g := ne_of_label ht hg
  induction is with
  | nil => intro s q _ _; exact Or.inl rfl
  | cons j js ih =>
    intro s q hs hlt
    rw [List.length_cons] at hlt
    rw [walk_cons, walk_cons]
    by_cases hhere : s = t ∧ j = i
    · obtain ⟨rfl, rfl⟩ := hhere
      rw [grow_self htg, if_pos rfl, hfree]
      cases js with
      | nil => exact Or.inr ⟨rfl, rfl⟩
      | cons k ks =>
        left
        show walk (grow ptr s j g) g (k :: ks) = none
        rw [walk_cons, grow_new htg]
        rfl
    · have hsame : grow ptr t i g s j = ptr s j := by
        by_cases hst : s = t
        · rw [hst, grow_self htg, if_neg fun hji => hhere ⟨hst, hji⟩]
        · rw [grow_of_ne hst (ne_of_label hs hg)]
      rw [hsame]
      cases hc : ptr s j with
      | none => exact Or.inl rfl
      | some c =>
        have hcl := hl.child hs (by omega) hc
        exact ih hcl (by rw [List.length_cons]; omega)

theorem walk_grow_new (hl : Labelled ptr root d label) (ht : label t = some p) (hp : p.length + 1 < d)
    (hg : label g = none) {is : List I} (hw : walk ptr root is = some t) (hlen : is.length = p.length) :
    walk (grow ptr t i g) root (is ++ [i]) = some g := by
  have htg : t ≠ g := ne_of_label ht hg
  have hpre : walk (RadixTree.grow ptr t i g) root is = walk ptr root is := by
    refine walk_congr hl p.length ?_ (by omega) is hl.root (by simp only [List.length_nil]; omega)
    intro s q hs hlt
    refine grow_of_ne ?_ ?_
    · rintro rfl
      rw [ht] at hs
      cases hs
      omega
    · exact ne_of_label hs hg
  rw [walk_concat, hpre, hw]
  show RadixTree.grow ptr t i g t i = some g
  rw [grow_self htg, if_pos rfl]

end LemonCore.Foundation.RadixTree
