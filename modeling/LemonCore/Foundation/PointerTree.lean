import Mathlib

/-!
# Index trees stored in the cells they index

A cell holds `fan` pointers to other cells.  A tree of height `k` with root `r` reaches up to
`fan ^ k` leaf cells: at height zero the root is the leaf, at height `k + 1` pointer `j` of the root
is the root of a tree of height `k`.  A tree is filled from the left, so its shape is given by the
number `n` of its leaves: subtree `j` has `part n (fan ^ k) j` of them.

* `leafAt`, `leaves`: the leaf cells, in order;
* `inner`: the index cells, and `blocks`: all cells of the tree;
* `blocks_congr`: a tree depends on the content of its index cells only;
* `length_blocks`: how many cells a tree of `n` leaves has;
* `Grows`, `Extends`, `ForestGrows`: a tree, or several, have grown by exactly the given new cells.
  `ForestGrows.cons` puts the growth of one tree before the growth of others, and
  `ForestGrows.tree` builds the growth of a tree from the growth of its subtrees.
-/

namespace LemonCore.Foundation.PointerTree

/-- How a cell of type `β` is read as an index cell. -/
structure Indexing (β : Type) where
  fan : ℕ
  fan_pos : 0 < fan
  word : β → ℕ → ℕ

/-- The leaves of subtree `j` when the whole tree has `n` leaves and a full subtree has `c`. -/
def part (n c j : ℕ) : ℕ := min c (n - j * c)

/-! ### Cutting a range into parts -/

theorem part_le (n c j : ℕ) : part n c j ≤ c := Nat.min_le_left _ _

theorem part_mono {s t : ℕ} (h : s ≤ t) (c j : ℕ) : part s c j ≤ part t c j := by
  unfold part
  omega

theorem part_eq_zero {n c j : ℕ} (h : n ≤ j * c) : part n c j = 0 := by
  unfold part
  omega

theorem part_pos {n c j : ℕ} (hc : 0 < c) (h : j * c < n) : 0 < part n c j := by
  unfold part
  omega

theorem range_eq_parts (c : ℕ) : ∀ m n, n ≤ m * c →
    List.range n = (List.range m).flatMap fun j => (List.range (part n c j)).map (j * c + ·) := by
  intro m
  induction m with
  | zero =>
    intro n hn
    have : n = 0 := by omega
    subst this
    rfl
  | succ m ih =>
    intro n hn
    rw [List.range_succ, List.flatMap_append, List.flatMap_singleton]
    rcases Nat.le_total n (m * c) with h | h
    · rw [part_eq_zero h, List.range_zero, List.map_nil, List.append_nil]
      exact ih n h
    · have hn' : (m + 1) * c = m * c + c := by ring
      -- the first `m` parts are full, the last one has the rest
      have hfirst : (List.range m).flatMap (fun j => (List.range (part n c j)).map (j * c + ·))
          = List.range (m * c) := by
        rw [ih (m * c) (le_refl _)]
        apply List.flatMap_congr
        intro j hj
        have hj' : (j + 1) * c ≤ m * c := Nat.mul_le_mul_right _ (List.mem_range.mp hj)
        have hj'' : (j + 1) * c = j * c + c := by ring
        rw [show part n c j = part (m * c) c j by unfold part; omega]
      rw [hfirst, show part n c m = n - m * c by unfold part; omega, ← List.range_add]
      congr 1
      omega

theorem sum_parts (f : ℕ → ℕ) (q a : ℕ) (hq : 0 < q) (hf : ∀ n, f n = (n + (q - 1)) / q) (c : ℕ)
    (hc : c = a * q) : ∀ m n, n ≤ m * c →
    ((List.range m).map fun j => f (part n c j)).sum = f n := by
  intro m
  induction m with
  | zero =>
    intro n hn
    have : n = 0 := by omega
    subst this
    rw [hf, Nat.zero_add, Nat.div_eq_of_lt (by omega)]
    rfl
  | succ m ih =>
    intro n hn
    rw [List.range_succ, List.map_append, List.sum_append, List.map_singleton, List.sum_singleton]
    rcases Nat.le_total n (m * c) with h | h
    · rw [part_eq_zero h, ih n h, hf 0, Nat.zero_add, Nat.div_eq_of_lt (by omega), Nat.add_zero]
    · have hn' : (m + 1) * c = m * c + c := by ring
      have hfirst : ((List.range m).map fun j => f (part n c j)).sum = f (m * c) := by
        rw [← ih (m * c) (le_refl _)]
        congr 1
        apply List.map_congr_left
        intro j hj
        have hj' : (j + 1) * c ≤ m * c := Nat.mul_le_mul_right _ (List.mem_range.mp hj)
        have hj'' : (j + 1) * c = j * c + c := by ring
        rw [show part n c j = part (m * c) c j by unfold part; omega]
      rw [hfirst, show part n c m = n - m * c by unfold part; omega, hf, hf, hf]
      have hmc : m * c = q * (m * a) := by rw [hc]; ring
      rw [hmc] at h ⊢
      rw [show n + (q - 1) = n - q * (m * a) + (q - 1) + q * (m * a) by omega,
        Nat.add_mul_div_left _ _ hq, Nat.add_comm (q * (m * a)) (q - 1),
        Nat.add_mul_div_left _ _ hq, Nat.div_eq_of_lt (show q - 1 < q by omega)]
      omega

/-! ### Trees -/

variable {β : Type}

/-- Leaf `i` of the tree of height `k` with root `r`. -/
def Indexing.leafAt (T : Indexing β) (d : ℕ → β) : ℕ → ℕ → ℕ → ℕ
  | 0, r, _ => r
  | k + 1, r, i => T.leafAt d k (T.word (d r) (i / T.fan ^ k)) (i % T.fan ^ k)

/-- The first `n` leaves. -/
def Indexing.leaves (T : Indexing β) (d : ℕ → β) (k r n : ℕ) : List ℕ := (List.range n).map (T.leafAt d k r)

/-- The index cells of a tree with `n` leaves. -/
def Indexing.inner (T : Indexing β) (d : ℕ → β) : ℕ → ℕ → ℕ → List ℕ
  | 0, _, _ => []
  | k + 1, r, n =>
    if n = 0 then []
    else r :: (List.range T.fan).flatMap fun j =>
      T.inner d k (T.word (d r) j) (part n (T.fan ^ k) j)

/-- All cells of a tree with `n` leaves. -/
def Indexing.blocks (T : Indexing β) (d : ℕ → β) (k r n : ℕ) : List ℕ := T.inner d k r n ++ T.leaves d k r n

variable {T : Indexing β} {d d' d'' : ℕ → β} {k r n : ℕ}

theorem Indexing.pow_pos (T : Indexing β) (k : ℕ) : 0 < T.fan ^ k := Nat.pow_pos T.fan_pos

theorem Indexing.leafAt_succ_add {j i : ℕ} (hi : i < T.fan ^ k) :
    T.leafAt d (k + 1) r (j * T.fan ^ k + i) = T.leafAt d k (T.word (d r) j) i := by
  have hpos := T.pow_pos k
  rw [Indexing.leafAt, Nat.mul_comm, Nat.mul_add_div hpos, Nat.div_eq_of_lt hi, Nat.add_zero,
    Nat.mul_add_mod, Nat.mod_eq_of_lt hi]

theorem Indexing.leaves_succ (h : n ≤ T.fan ^ (k + 1)) :
    T.leaves d (k + 1) r n = (List.range T.fan).flatMap fun j =>
      T.leaves d k (T.word (d r) j) (part n (T.fan ^ k) j) := by
  unfold Indexing.leaves
  rw [range_eq_parts (T.fan ^ k) T.fan n (by rw [← Nat.pow_succ']; exact h), List.map_flatMap]
  apply List.flatMap_congr
  intro j _
  rw [List.map_map]
  apply List.map_congr_left
  intro i hi
  exact T.leafAt_succ_add (lt_of_lt_of_le (List.mem_range.mp hi) (part_le _ _ _))

@[simp] theorem Indexing.inner_zero : T.inner d k r 0 = [] := by
  cases k with
  | zero => rfl
  | succ k => rw [Indexing.inner, if_pos rfl]

@[simp] theorem Indexing.blocks_zero : T.blocks d k r 0 = [] := by
  simp [Indexing.blocks, Indexing.leaves]

/-- The root of a tree that has leaves is an index cell, and the rest are its subtrees. -/
theorem Indexing.blocks_succ_perm (hn : 0 < n) (h : n ≤ T.fan ^ (k + 1)) :
    (T.blocks d (k + 1) r n).Perm (r :: (List.range T.fan).flatMap fun j =>
      T.blocks d k (T.word (d r) j) (part n (T.fan ^ k) j)) := by
  unfold Indexing.blocks
  rw [Indexing.inner, if_neg (by omega), Indexing.leaves_succ h, List.cons_append]
  exact (List.flatMap_append_perm _ _ _).cons r

theorem Indexing.root_mem_inner (hn : 0 < n) : r ∈ T.inner d (k + 1) r n := by
  rw [Indexing.inner, if_neg (by omega)]
  exact List.mem_cons_self

/-- The index cells of a subtree are index cells of the tree. -/
theorem Indexing.inner_of_child {j b : ℕ} (hj : j < T.fan)
    (hb : b ∈ T.inner d k (T.word (d r) j) (part n (T.fan ^ k) j)) : b ∈ T.inner d (k + 1) r n := by
  rw [Indexing.inner]
  split
  · rename_i hn
    rw [hn, part_eq_zero (Nat.zero_le _), Indexing.inner_zero] at hb
    exact absurd hb List.not_mem_nil
  · exact List.mem_cons_of_mem _ (List.mem_flatMap.mpr ⟨j, List.mem_range.mpr hj, hb⟩)

/-- The subtree that has leaf `i`, and where the leaf is in it. -/
theorem Indexing.child_of_leaf {i : ℕ} (hi : i < n) (h : n ≤ T.fan ^ (k + 1)) :
    i / T.fan ^ k < T.fan ∧ i % T.fan ^ k < part n (T.fan ^ k) (i / T.fan ^ k) := by
  have hpos := T.pow_pos k
  have hpow : T.fan ^ (k + 1) = T.fan * T.fan ^ k := Nat.pow_succ'
  have hdm := Nat.div_add_mod i (T.fan ^ k)
  have hml := Nat.mod_lt i hpos
  rw [Nat.mul_comm] at hdm
  refine ⟨?_, ?_⟩
  · rw [Nat.div_lt_iff_lt_mul hpos]
    omega
  · rw [part]
    omega

theorem Indexing.inner_subset : ∀ b ∈ T.inner d k r n, b ∈ T.blocks d k r n :=
  fun _ hb => List.mem_append_left _ hb

theorem Indexing.leaf_mem {i : ℕ} (hi : i < n) : T.leafAt d k r i ∈ T.blocks d k r n :=
  List.mem_append_right _ (List.mem_map.mpr ⟨i, List.mem_range.mpr hi, rfl⟩)

/-- **Frame.**  A tree depends on the content of its index cells only. -/
theorem Indexing.congr (k : ℕ) : ∀ r n, n ≤ T.fan ^ k →
    (∀ b ∈ T.inner d k r n, d' b = d b) →
    T.inner d' k r n = T.inner d k r n ∧ ∀ i, i < n → T.leafAt d' k r i = T.leafAt d k r i := by
  induction k with
  | zero => intro r n _ _; exact ⟨rfl, fun _ _ => rfl⟩
  | succ k ih =>
    intro r n hle h
    rcases Nat.eq_zero_or_pos n with rfl | hn
    · exact ⟨by simp, fun i hi => absurd hi (by omega)⟩
    · have hr : d' r = d r := h r (T.root_mem_inner hn)
      have hkid : ∀ j, j < T.fan → _ := fun j hj =>
        ih (T.word (d r) j) (part n (T.fan ^ k) j) (part_le _ _ _)
          fun b hb => h b (T.inner_of_child hj hb)
      constructor
      · rw [Indexing.inner, Indexing.inner, if_neg (by omega), if_neg (by omega), hr]
        congr 1
        exact List.flatMap_congr fun j hj => (hkid j (List.mem_range.mp hj)).1
      · intro i hi
        obtain ⟨hj, hm⟩ := T.child_of_leaf hi hle
        rw [Indexing.leafAt, Indexing.leafAt, hr]
        exact (hkid _ hj).2 _ hm

theorem Indexing.leaves_congr (hle : n ≤ T.fan ^ k) (h : ∀ b ∈ T.inner d k r n, d' b = d b) :
    T.leaves d' k r n = T.leaves d k r n :=
  List.map_congr_left fun i hi => (T.congr k r n hle h).2 i (List.mem_range.mp hi)

theorem Indexing.blocks_congr (hle : n ≤ T.fan ^ k) (h : ∀ b ∈ T.inner d k r n, d' b = d b) :
    T.blocks d' k r n = T.blocks d k r n := by
  unfold Indexing.blocks
  rw [(T.congr k r n hle h).1, T.leaves_congr hle h]

/-! ### How many cells a tree has -/

/-- The number of index cells of a tree with `n` leaves. -/
def Indexing.innerCount (T : Indexing β) : ℕ → ℕ → ℕ
  | 0, _ => 0
  | k + 1, n =>
    if n = 0 then 0
    else 1 + ((List.range T.fan).map fun j => T.innerCount k (part n (T.fan ^ k) j)).sum

/-- The number of cells of a tree with `n` leaves. -/
def Indexing.count (T : Indexing β) (k n : ℕ) : ℕ := T.innerCount k n + n

theorem Indexing.length_inner (k : ℕ) : ∀ r n, (T.inner d k r n).length = T.innerCount k n := by
  induction k with
  | zero => intro r n; rfl
  | succ k ih =>
    intro r n
    rw [Indexing.inner, Indexing.innerCount]
    split
    · rfl
    · rw [List.length_cons, List.length_flatMap, Nat.add_comm]
      simp only [ih]

theorem Indexing.length_blocks : (T.blocks d k r n).length = T.count k n := by
  simp [Indexing.blocks, Indexing.leaves, Indexing.count, Indexing.length_inner]

/-- Every layer of index cells is the layer below it, rounded up to full cells. -/
theorem Indexing.innerCount_eq (T : Indexing β) (k : ℕ) : ∀ n, n ≤ T.fan ^ k →
    T.innerCount k n =
      ∑ i ∈ Finset.range k, (n + (T.fan ^ (i + 1) - 1)) / T.fan ^ (i + 1) := by
  induction k with
  | zero => intro n _; rfl
  | succ k ih =>
    intro n hn
    have hpos := T.pow_pos (k + 1)
    have hpow : T.fan ^ (k + 1) = T.fan * T.fan ^ k := Nat.pow_succ'
    rw [Indexing.innerCount, Finset.sum_range_succ]
    rcases Nat.eq_zero_or_pos n with rfl | hnp
    · rw [if_pos rfl, Nat.zero_add, Nat.div_eq_of_lt (by omega), Nat.add_zero]
      refine (Finset.sum_eq_zero fun i _ => ?_).symm
      have := T.pow_pos (i + 1)
      exact Nat.div_eq_of_lt (by omega)
    · have htop : (n + (T.fan ^ (k + 1) - 1)) / T.fan ^ (k + 1) = 1 :=
        Nat.div_eq_of_lt_le (by omega) (by omega)
      rw [if_neg (by omega), htop, Nat.add_comm]
      congr 1
      calc ((List.range T.fan).map fun j => T.innerCount k (part n (T.fan ^ k) j)).sum
          = ∑ j ∈ Finset.range T.fan, T.innerCount k (part n (T.fan ^ k) j) := rfl
        _ = ∑ j ∈ Finset.range T.fan, ∑ i ∈ Finset.range k,
              (part n (T.fan ^ k) j + (T.fan ^ (i + 1) - 1)) / T.fan ^ (i + 1) :=
            Finset.sum_congr rfl fun j _ => ih _ (part_le _ _ _)
        _ = ∑ i ∈ Finset.range k, ∑ j ∈ Finset.range T.fan,
              (part n (T.fan ^ k) j + (T.fan ^ (i + 1) - 1)) / T.fan ^ (i + 1) :=
            Finset.sum_comm
        _ = _ := by
            refine Finset.sum_congr rfl fun i hi => ?_
            have hi' : k = k - (i + 1) + (i + 1) := by
              have := Finset.mem_range.mp hi
              omega
            exact sum_parts (fun n => (n + (T.fan ^ (i + 1) - 1)) / T.fan ^ (i + 1))
              (T.fan ^ (i + 1)) (T.fan ^ (k - (i + 1))) (T.pow_pos _) (fun _ => rfl) (T.fan ^ k)
              (by rw [← Nat.pow_add, ← hi']) T.fan n (by omega)

theorem Indexing.innerCount_mono (k : ℕ) : ∀ {s t}, s ≤ t → T.innerCount k s ≤ T.innerCount k t := by
  induction k with
  | zero => intro s t _; exact le_refl _
  | succ k ih =>
    intro s t hst
    rw [Indexing.innerCount, Indexing.innerCount]
    split
    · omega
    · rw [if_neg (by omega)]
      apply Nat.add_le_add_left
      exact List.sum_le_sum fun j _ => ih (part_mono hst _ _)

theorem Indexing.count_mono {s t : ℕ} (h : s ≤ t) : T.count k s ≤ T.count k t :=
  Nat.add_le_add (T.innerCount_mono k h) h

/-! ### Behind the last leaf -/

/-- The words that lead to no cell are zero. -/
def Indexing.ZeroPadded (T : Indexing β) (d : ℕ → β) : ℕ → ℕ → ℕ → Prop
  | 0, _, _ => True
  | k + 1, r, n => 0 < n → ∀ j, j < T.fan →
    (part n (T.fan ^ k) j = 0 → T.word (d r) j = 0) ∧
      T.ZeroPadded d k (T.word (d r) j) (part n (T.fan ^ k) j)

/-- The subtree in which the first leaf that is not there would be. -/
theorem Indexing.child_behind (T : Indexing β) {k n : ℕ} (h : n < T.fan ^ (k + 1)) :
    n / T.fan ^ k < T.fan ∧ part n (T.fan ^ k) (n / T.fan ^ k) = n % T.fan ^ k := by
  have hpos := T.pow_pos k
  have hpow : T.fan ^ (k + 1) = T.fan * T.fan ^ k := Nat.pow_succ'
  refine ⟨(Nat.div_lt_iff_lt_mul hpos).mpr (hpow ▸ h), ?_⟩
  rw [part, Nat.mul_comm, ← Nat.mod_eq_sub_mul_div]
  exact Nat.min_eq_right (Nat.mod_lt n hpos).le

/-! ### Forests -/

/-- A tree, by its height, its root and the number of its leaves. -/
structure Tree where
  height : ℕ
  root : ℕ
  leaves : ℕ

/-- The cells of some trees. -/
def Indexing.forest (T : Indexing β) (d : ℕ → β) (l : List Tree) : List ℕ :=
  l.flatMap fun a => T.blocks d a.height a.root a.leaves

/-- The index cells of some trees. -/
def Indexing.forestInner (T : Indexing β) (d : ℕ → β) (l : List Tree) : List ℕ :=
  l.flatMap fun a => T.inner d a.height a.root a.leaves

/-- No tree has more leaves than its height allows. -/
def Indexing.Bounded (T : Indexing β) (l : List Tree) : Prop :=
  ∀ a ∈ l, a.leaves ≤ T.fan ^ a.height

variable {a a' : Tree} {l l' : List Tree}

theorem Indexing.forest_cons :
    T.forest d (a :: l) = T.blocks d a.height a.root a.leaves ++ T.forest d l := rfl

theorem Indexing.forestInner_cons :
    T.forestInner d (a :: l) = T.inner d a.height a.root a.leaves ++ T.forestInner d l := rfl

theorem Indexing.forestInner_subset : ∀ b ∈ T.forestInner d l, b ∈ T.forest d l := by
  intro b hb
  obtain ⟨a, ha, hba⟩ := List.mem_flatMap.mp hb
  exact List.mem_flatMap.mpr ⟨a, ha, T.inner_subset b hba⟩

/-- Trees depend on the content of their index cells only. -/
theorem Indexing.forest_congr (hl : T.Bounded l) (h : ∀ b ∈ T.forestInner d l, d' b = d b) :
    T.forest d' l = T.forest d l ∧ T.forestInner d' l = T.forestInner d l := by
  have hmem : ∀ a ∈ l, ∀ b ∈ T.inner d a.height a.root a.leaves, d' b = d b :=
    fun a ha b hb => h b (List.mem_flatMap.mpr ⟨a, ha, hb⟩)
  exact ⟨List.flatMap_congr fun a ha => T.blocks_congr (hl a ha) (hmem a ha),
    List.flatMap_congr fun a ha => (T.congr _ _ _ (hl a ha) (hmem a ha)).1⟩

/-! ### Growth -/

theorem perm_append_middle (l₁ l₂ l₃ l₄ : List ℕ) :
    (l₁ ++ l₂ ++ (l₃ ++ l₄)).Perm (l₁ ++ l₃ ++ (l₂ ++ l₄)) := by
  rw [List.append_assoc, List.append_assoc]
  refine List.Perm.append_left _ ?_
  rw [← List.append_assoc, ← List.append_assoc]
  exact List.perm_append_comm.append_right l₄

variable {s t : ℕ} {v v₁ v₂ : List ℕ}

/-- The cells of a tree before it grows: a fresh root when it has no leaves yet. -/
def Indexing.base (T : Indexing β) (d : ℕ → β) (k r s : ℕ) : List ℕ :=
  if s = 0 then [r] else T.blocks d k r s

/-- The tree at `r` has grown from `s` to `t` leaves by the new cells `v`. -/
structure Indexing.Grows (T : Indexing β) (d d' : ℕ → β) (k r s t : ℕ) (v : List ℕ) : Prop where
  perm : (T.blocks d' k r t).Perm (T.base d k r s ++ v)
  frame : ∀ b, b ∉ T.inner d' k r t → d' b = d b
  leaf : ∀ i, i < s → T.leafAt d' k r i = T.leafAt d k r i
  inner : ∀ b ∈ T.inner d k r s, b ∈ T.inner d' k r t

/-- The tree `a` has become `a'` by the new cells `v`; it gets a root when it had no leaves. -/
structure Indexing.Extends (T : Indexing β) (d d' : ℕ → β) (a a' : Tree) (v : List ℕ) : Prop where
  height : a'.height = a.height
  le : a.leaves ≤ a'.leaves
  top : a'.leaves ≤ T.fan ^ a'.height
  perm : (T.blocks d' a'.height a'.root a'.leaves).Perm (T.blocks d a.height a.root a.leaves ++ v)
  frame : ∀ b, b ∉ T.inner d' a'.height a'.root a'.leaves → d' b = d b
  leaf : ∀ i, i < a.leaves → T.leafAt d' a'.height a'.root i = T.leafAt d a.height a.root i
  inner : ∀ b ∈ T.inner d a.height a.root a.leaves, b ∈ T.inner d' a'.height a'.root a'.leaves

/-- The trees `l` have become `l'` by the new cells `v`. -/
structure Indexing.ForestGrows (T : Indexing β) (d d' : ℕ → β) (l l' : List Tree) (v : List ℕ) :
    Prop where
  perm : (T.forest d' l').Perm (T.forest d l ++ v)
  frame : ∀ b, b ∉ T.forestInner d' l' → d' b = d b
  leaf : List.Forall₂ (fun a a' => ∀ i, i < a.leaves →
    T.leafAt d' a'.height a'.root i = T.leafAt d a.height a.root i) l l'
  inner : ∀ b ∈ T.forestInner d l, b ∈ T.forestInner d' l'

/-- A growth whose root is either the old one or, for a tree without leaves, a new cell. -/
theorem Indexing.Grows.extends {r x : ℕ} (h : T.Grows d d' k x s t v) (hst : s ≤ t)
    (ht : t ≤ T.fan ^ k) (hold : 0 < s → r = x) :
    T.Extends d d' ⟨k, r, s⟩ ⟨k, x, t⟩ ((if s = 0 then [x] else []) ++ v) := by
  refine ⟨rfl, hst, ht, ?_, h.frame, ?_, ?_⟩
  · refine h.perm.trans ?_
    by_cases hs : s = 0
    · simp [Indexing.base, hs]
    · simp [Indexing.base, hs, hold (by omega)]
  · intro i hi
    rw [show r = x from hold (Nat.lt_of_le_of_lt (Nat.zero_le _) hi)]
    exact h.leaf i hi
  · intro b hb
    rcases Nat.eq_zero_or_pos s with hs | hs
    · simp [hs] at hb
    · rw [show r = x from hold hs] at hb
      exact h.inner b hb

/-- The cells a growing tree ends up with are its old ones and the new ones. -/
theorem Indexing.Extends.inner_mem (h : T.Extends d d' a a' v) {b : ℕ}
    (hb : b ∈ T.inner d' a'.height a'.root a'.leaves) : b ∈ T.forest d [a] ++ v := by
  have := h.perm.mem_iff.mp (T.inner_subset b hb)
  rwa [show T.forest d [a] = T.blocks d a.height a.root a.leaves from List.append_nil _]

/-- The growth of a tree leaves trees alone that have none of its cells. -/
theorem Indexing.Extends.forest_eq (h : T.Extends d d' a a' v) (hl : T.Bounded l)
    (hdis : ∀ b ∈ T.forest d [a] ++ v, b ∉ T.forest d l) :
    T.forest d' l = T.forest d l ∧ T.forestInner d' l = T.forestInner d l :=
  T.forest_congr hl fun b hb =>
    h.frame b fun hbi => hdis b (h.inner_mem hbi) (T.forestInner_subset b hb)

theorem Indexing.ForestGrows.refl : T.ForestGrows d d l l [] :=
  ⟨by rw [List.append_nil], fun _ _ => rfl, List.forall₂_same.mpr fun _ _ _ _ => rfl,
    fun _ hb => hb⟩

/-- **One tree, then the rest.**  When all cells involved are distinct neither disturbs the other. -/
theorem Indexing.ForestGrows.cons (h₁ : T.Extends d d' a a' v₁) (h₂ : T.ForestGrows d' d'' l l' v₂)
    (hl : T.Bounded l) (hdis : ∀ b ∈ T.forest d [a] ++ v₁, b ∉ T.forest d l ++ v₂) :
    T.ForestGrows d d'' (a :: l) (a' :: l') (v₁ ++ v₂) := by
  -- the first tree leaves the others alone
  have hrest := h₁.forest_eq hl fun b hb hm => hdis b hb (List.mem_append_left _ hm)
  -- the others leave the first tree alone
  have hsame : ∀ b ∈ T.inner d' a'.height a'.root a'.leaves, d'' b = d' b := by
    intro b hb
    apply h₂.frame
    intro hbr
    have hm := h₂.perm.mem_iff.mp (T.forestInner_subset b hbr)
    rw [hrest.1] at hm
    exact hdis b (h₁.inner_mem hb) hm
  have hcong := T.congr _ _ _ h₁.top hsame
  refine ⟨?_, ?_, ?_, ?_⟩
  · rw [Indexing.forest_cons, Indexing.forest_cons, T.blocks_congr h₁.top hsame]
    refine (h₁.perm.append h₂.perm).trans ?_
    rw [hrest.1]
    exact perm_append_middle _ _ _ _
  · intro b hb
    rw [Indexing.forestInner_cons, List.mem_append, not_or] at hb
    rw [h₂.frame b hb.2]
    apply h₁.frame
    rw [← hcong.1]
    exact hb.1
  · refine List.Forall₂.cons ?_ ?_
    · intro i hi
      rw [← h₁.leaf i hi]
      exact hcong.2 i (lt_of_lt_of_le hi h₁.le)
    · obtain ⟨hlen, hleaf⟩ := List.forall₂_iff_zip.mp h₂.leaf
      refine List.forall₂_iff_zip.mpr ⟨hlen, ?_⟩
      intro c c' hcc i hi
      have hc : c ∈ l := (List.of_mem_zip hcc).1
      rw [hleaf hcc i hi]
      refine (T.congr _ _ _ (hl c hc) fun b hb => h₁.frame b fun hbi => ?_).2 i hi
      exact hdis b (h₁.inner_mem hbi) (List.mem_append_left _
        (List.mem_flatMap.mpr ⟨c, hc, T.inner_subset b hb⟩))
  · intro b hb
    rw [Indexing.forestInner_cons, List.mem_append] at hb ⊢
    rcases hb with hb | hb
    · rw [hcong.1]
      exact Or.inl (h₁.inner b hb)
    · rw [← hrest.2] at hb
      exact Or.inr (h₂.inner b hb)

/-! ### The subtrees of an index cell -/

variable {w w' : ℕ → ℕ} {lo m : ℕ}

/-- The subtrees `lo .. lo + m` of an index cell with pointers `w`, in a tree with `n` leaves. -/
def Indexing.kids (T : Indexing β) (k : ℕ) (w : ℕ → ℕ) (n lo m : ℕ) : List Tree :=
  (List.range' lo m).map fun j => ⟨k, w j, part n (T.fan ^ k) j⟩

theorem Indexing.kids_succ : T.kids k w n lo (m + 1) =
    ⟨k, w lo, part n (T.fan ^ k) lo⟩ :: T.kids k w n (lo + 1) m := by
  rw [Indexing.kids, List.range'_succ, List.map_cons]
  rfl

theorem Indexing.kids_congr (hw : ∀ j, lo ≤ j → j < lo + m → w' j = w j) :
    T.kids k w' n lo m = T.kids k w n lo m := by
  apply List.map_congr_left
  intro j hj
  obtain ⟨h1, h2⟩ := List.mem_range'_1.mp hj
  rw [hw j h1 h2]

theorem Indexing.bounded_kids : T.Bounded (T.kids k w n lo m) := by
  intro a ha
  obtain ⟨j, -, rfl⟩ := List.mem_map.mp ha
  exact part_le _ _ _

/-- The number of cells of the subtrees `lo .. lo + m`. -/
def Indexing.kidsCount (T : Indexing β) (k n lo m : ℕ) : ℕ :=
  ((List.range' lo m).map fun j => T.count k (part n (T.fan ^ k) j)).sum

theorem Indexing.length_kids : (T.forest d (T.kids k w n lo m)).length = T.kidsCount k n lo m := by
  simp only [Indexing.forest, Indexing.kids, Indexing.kidsCount, List.length_flatMap,
    Indexing.length_blocks, List.map_map]
  rfl

theorem Indexing.kidsCount_succ : T.kidsCount k n lo (m + 1) =
    T.count k (part n (T.fan ^ k) lo) + T.kidsCount k n (lo + 1) m := by
  simp only [Indexing.kidsCount, List.range'_succ, List.map_cons, List.sum_cons]

theorem Indexing.kidsCount_mono (h : s ≤ t) : T.kidsCount k s lo m ≤ T.kidsCount k t lo m :=
  List.sum_le_sum fun _ _ => T.count_mono (part_mono h _ _)

theorem Indexing.count_zero (T : Indexing β) : T.count k 0 = 0 := by
  cases k with
  | zero => rfl
  | succ k => rw [Indexing.count, Indexing.innerCount, if_pos rfl]

theorem Indexing.count_pos (hn : 0 < n) : 0 < T.count k n := Nat.add_pos_right _ hn

theorem Indexing.kidsCount_done (h : n ≤ lo * T.fan ^ k) : T.kidsCount k n lo m = 0 := by
  rw [Indexing.kidsCount, List.sum_eq_zero_iff]
  intro x hx
  obtain ⟨j, hj, rfl⟩ := List.mem_map.mp hx
  have := Nat.mul_le_mul_right (T.fan ^ k) (List.mem_range'_1.mp hj).1
  rw [part_eq_zero (by omega), T.count_zero]

theorem Indexing.forest_kids_done (h : n ≤ lo * T.fan ^ k) : T.forest d (T.kids k w n lo m) = [] :=
  List.length_eq_zero_iff.mp (T.length_kids.trans (T.kidsCount_done h))

theorem Indexing.ForestGrows.done (ht : t ≤ lo * T.fan ^ k) (hst : s ≤ t) :
    T.ForestGrows d d (T.kids k w s lo m) (T.kids k w t lo m) [] := by
  refine ⟨?_, fun _ _ => rfl, ?_, ?_⟩
  · rw [T.forest_kids_done ht, T.forest_kids_done (le_trans hst ht)]
    rfl
  · rw [Indexing.kids, Indexing.kids, List.forall₂_map_left_iff, List.forall₂_map_right_iff,
      List.forall₂_same]
    exact fun _ _ _ _ => rfl
  · intro b hb
    have hmem := T.forestInner_subset b hb
    rw [T.forest_kids_done (le_trans hst ht)] at hmem
    exact absurd hmem List.not_mem_nil

theorem Indexing.blocks_perm_kids (hn : 0 < n) (h : n ≤ T.fan ^ (k + 1)) :
    (T.blocks d (k + 1) r n).Perm (r :: T.forest d (T.kids k (T.word (d r)) n 0 T.fan)) := by
  have hp := T.blocks_succ_perm (d := d) (r := r) hn h
  rwa [Indexing.forest, Indexing.kids, List.flatMap_map, ← List.range_eq_range']

theorem Indexing.count_succ [Nonempty β] (hn : 0 < n) (h : n ≤ T.fan ^ (k + 1)) :
    T.count (k + 1) n = 1 + T.kidsCount k n 0 T.fan := by
  have x := Classical.arbitrary β
  have hlen := (T.blocks_perm_kids (d := fun _ => x) (r := 0) hn h).length_eq
  rw [T.length_blocks, List.length_cons, T.length_kids] at hlen
  omega

theorem Indexing.inner_eq_kids (hn : 0 < n) :
    T.inner d (k + 1) r n = r :: T.forestInner d (T.kids k (T.word (d r)) n 0 T.fan) := by
  rw [Indexing.inner, if_neg (by omega), Indexing.forestInner, Indexing.kids, List.flatMap_map,
    ← List.range_eq_range']

theorem Indexing.base_perm_kids (h : s ≤ T.fan ^ (k + 1)) :
    (T.base d (k + 1) r s).Perm (r :: T.forest d (T.kids k (T.word (d r)) s 0 T.fan)) := by
  rw [Indexing.base]
  split
  · rename_i hs
    rw [hs, T.forest_kids_done (Nat.zero_le _)]
  · exact T.blocks_perm_kids (by omega) h

/-- **A tree from its subtrees.**  When all subtrees of the index cell `r` have grown and the new
pointers are stored in `r` last, the tree at `r` has grown. -/
theorem Indexing.ForestGrows.tree {x : β}
    (h : T.ForestGrows d d' (T.kids k (T.word (d r)) s 0 T.fan) (T.kids k (T.word x) t 0 T.fan) v)
    (ht : 0 < t) (hst : s ≤ t) (htop : t ≤ T.fan ^ (k + 1))
    (hr : r ∉ T.forest d (T.kids k (T.word (d r)) s 0 T.fan) ++ v) :
    T.Grows d (Function.update d' r x) (k + 1) r s t v := by
  have hroot : Function.update d' r x r = x := Function.update_self _ _ _
  have hsame : ∀ b ∈ T.forestInner d' (T.kids k (T.word x) t 0 T.fan),
      Function.update d' r x b = d' b := by
    intro b hb
    apply Function.update_of_ne
    rintro rfl
    exact hr (h.perm.mem_iff.mp (T.forestInner_subset b hb))
  obtain ⟨hkids, hinner⟩ := T.forest_congr T.bounded_kids hsame
  refine ⟨?_, ?_, ?_, ?_⟩
  · refine (T.blocks_perm_kids ht htop).trans ?_
    rw [hroot, hkids]
    exact (h.perm.cons r).trans ((T.base_perm_kids (by omega)).symm.append_right v)
  · intro b hb
    rw [T.inner_eq_kids ht, hroot, hinner, List.mem_cons, not_or] at hb
    rw [Function.update_of_ne hb.1]
    exact h.frame b hb.2
  · intro i hi
    obtain ⟨hj, his⟩ := T.child_of_leaf hi (le_trans hst htop)
    have hleaf := h.leaf
    rw [Indexing.kids, Indexing.kids, List.forall₂_map_left_iff, List.forall₂_map_right_iff,
      List.forall₂_same] at hleaf
    have hmem : i / T.fan ^ k ∈ List.range' 0 T.fan := List.mem_range'_1.mpr ⟨Nat.zero_le _, by omega⟩
    rw [Indexing.leafAt, Indexing.leafAt, hroot, ← hleaf _ hmem _ his]
    apply (T.congr k _ _ (part_le t _ _) ?_).2 _ (lt_of_lt_of_le his (part_mono hst _ _))
    intro b hb
    exact hsame b (List.mem_flatMap.mpr ⟨_, List.mem_map.mpr ⟨_, hmem, rfl⟩, hb⟩)
  · intro b hb
    rcases Nat.eq_zero_or_pos s with hs | hs
    · simp [hs] at hb
    · rw [T.inner_eq_kids hs, List.mem_cons] at hb
      rw [T.inner_eq_kids ht, hroot, hinner, List.mem_cons]
      exact hb.imp_right (h.inner b)

end LemonCore.Foundation.PointerTree
