import LemonCore.EasyFs.IndexTree

/-!
# The blocks of a disk inode

An inode with `n` leaves has them behind its 27 direct words first, then behind index trees of one,
two and three levels.

* `owned`: all blocks of an inode, leaves and index blocks; `index`: the index blocks;
  `leaf`: the block that holds the bytes from `512 * i` on;
* `length_owned`: `count_total_block` counts them;
* `increaseSize_spec`: the inode owns its old blocks and exactly the new ones, keeps its leaves, and
  only index blocks it ends up with have changed;
* `clearSize_spec`: the blocks handed back are the owned ones, each once.
-/

namespace LemonCore.EasyFs

open Foundation.BorrowProgram Foundation.PointerTree

variable {m n x : ℕ} {held v : List ℕ} {d : Disk} {ino : DiskInode}

namespace DiskInode

/-- The block numbers and the size fit in a `u32`. -/
structure Fits (ino : DiskInode) : Prop where
  size : ino.size < 2 ^ 32
  direct : ∀ i, ino.direct i < 2 ^ 32
  indirect1 : ino.indirect1 < 2 ^ 32
  indirect2 : ino.indirect2 < 2 ^ 32
  indirect3 : ino.indirect3 < 2 ^ 32

/-- The direct blocks among the first `n` leaves. -/
def directs (ino : DiskInode) (n : ℕ) : List ℕ := (List.range (min n directCount)).map ino.directAt

/-- The index trees when there are `n` leaves. -/
def trees (ino : DiskInode) (n : ℕ) : List Tree :=
  [⟨1, ino.indirect1, min (n - directCount) indirect1Count⟩,
    ⟨2, ino.indirect2, min (n - directCount - indirect1Count) indirect2Count⟩,
    ⟨3, ino.indirect3, min (n - directCount - indirect1Count - indirect2Count) indirect3Count⟩]

/-- The number of leaves of an inode. -/
def leafCount (ino : DiskInode) : ℕ := countDataBlock ino.size

/-- All blocks of an inode. -/
def owned (d : Disk) (ino : DiskInode) : List ℕ :=
  ino.directs ino.leafCount ++ indexing.forest d (ino.trees ino.leafCount)

/-- The index blocks of an inode. -/
def index (d : Disk) (ino : DiskInode) : List ℕ := indexing.forestInner d (ino.trees ino.leafCount)

/-- The block that is leaf `i`. -/
def leaf (d : Disk) (ino : DiskInode) (i : ℕ) : ℕ :=
  if i < directBound then ino.directAt i
  else if i < indirect1Bound then indexing.leafAt d 1 ino.indirect1 (i - directBound)
  else if i < indirect2Bound then indexing.leafAt d 2 ino.indirect2 (i - indirect1Bound)
  else indexing.leafAt d 3 ino.indirect3 (i - indirect2Bound)

end DiskInode

/-- The blocks of the trees behind the first `m` leaves of the second and third stanza. -/
def blocksBehind2 (m : ℕ) : ℕ :=
  indexing.count 2 (min m indirect2Count) + indexing.count 3 (min (m - indirect2Count) indirect3Count)

/-- The blocks of the index trees with `m` leaves in all. -/
def blocksBehind1 (m : ℕ) : ℕ :=
  indexing.count 1 (min m indirect1Count) + blocksBehind2 (m - indirect1Count)

/-- The number of blocks of an inode with `n` leaves. -/
def blocksOf (n : ℕ) : ℕ := min n directCount + blocksBehind1 (n - directCount)

/-! ### Counting -/

theorem pow_one_eq : indexing.fan ^ 1 = indirect1Count := Nat.pow_one _

theorem pow_two_eq : indexing.fan ^ 2 = indirect2Count := by rw [fan_eq, indirect2Count]; norm_num

theorem pow_three_eq : indexing.fan ^ 3 = indirect3Count := by rw [fan_eq, indirect3Count]; norm_num

theorem bounded_trees (ino : DiskInode) (n : ℕ) : indexing.Bounded (ino.trees n) := by
  intro a ha
  simp only [DiskInode.trees, List.mem_cons, List.not_mem_nil, or_false] at ha
  rcases ha with rfl | rfl | rfl
  · rw [pow_one_eq]; exact Nat.min_le_right _ _
  · rw [pow_two_eq]; exact Nat.min_le_right _ _
  · rw [pow_three_eq]; exact Nat.min_le_right _ _

theorem length_directs (ino : DiskInode) (n : ℕ) : (ino.directs n).length = min n directCount := by
  simp [DiskInode.directs]

theorem length_forest_one (d : Disk) (k r n : ℕ) :
    (indexing.forest d [⟨k, r, n⟩]).length = indexing.count k n := by
  rw [show indexing.forest d [⟨k, r, n⟩] = indexing.blocks d k r n from List.append_nil _,
    indexing.length_blocks]

theorem length_forest_two (d : Disk) (r₂ r₃ m : ℕ) :
    (indexing.forest d [⟨2, r₂, min m indirect2Count⟩,
      ⟨3, r₃, min (m - indirect2Count) indirect3Count⟩]).length = blocksBehind2 m := by
  rw [Indexing.forest_cons, List.length_append, indexing.length_blocks, length_forest_one,
    blocksBehind2]

theorem length_forest_trees (d : Disk) (ino : DiskInode) (n : ℕ) :
    (indexing.forest d (ino.trees n)).length = blocksBehind1 (n - directCount) := by
  rw [DiskInode.trees, Indexing.forest_cons, List.length_append, indexing.length_blocks,
    length_forest_two, blocksBehind1]

theorem length_owned (d : Disk) (ino : DiskInode) :
    (ino.owned d).length = blocksOf ino.leafCount := by
  rw [DiskInode.owned, List.length_append, length_directs, length_forest_trees, blocksOf]

theorem blocksBehind2_mono (h : m ≤ n) : blocksBehind2 m ≤ blocksBehind2 n :=
  Nat.add_le_add (indexing.count_mono (by omega)) (indexing.count_mono (by omega))

theorem blocksBehind1_mono (h : m ≤ n) : blocksBehind1 m ≤ blocksBehind1 n :=
  Nat.add_le_add (indexing.count_mono (by omega)) (blocksBehind2_mono (by omega))

theorem blocksOf_mono (h : m ≤ n) : blocksOf m ≤ blocksOf n :=
  Nat.add_le_add (by omega) (blocksBehind1_mono (by omega))

theorem countTotalBlock_def (size n : ℕ) (hn : DiskInode.countDataBlock size = n) :
    DiskInode.countTotalBlock size =
      if 16539 < n then
        (if 155 < n then (if 27 < n then n + 1 else n) + 1 + min ((n - 155 + 127) / 128) 128
          else if 27 < n then n + 1 else n) + 1 +
          ((n - 16539 + 16383) / 16384 + (n - 16539 + 127) / 128)
      else if 155 < n then (if 27 < n then n + 1 else n) + 1 + min ((n - 155 + 127) / 128) 128
      else if 27 < n then n + 1 else n := by
  subst hn
  rw [DiskInode.countTotalBlock, directBound, indirect1Bound, indirect2Bound, indirect1Count,
    indirect2Count]

theorem ceil_top {c : ℕ} (hc : 0 < c) (hx : x ≤ c) :
    (x + (c - 1)) / c = if x = 0 then 0 else 1 := by
  split
  · exact Nat.div_eq_of_lt (by omega)
  · exact Nat.div_eq_of_lt_le (by omega) (by omega)

theorem count_one (h : x ≤ indirect1Count) :
    indexing.count 1 x = (if x = 0 then 0 else 1) + x := by
  rw [Indexing.count, indexing.innerCount_eq 1 x (by rw [pow_one_eq]; exact h),
    Finset.sum_range_one, Nat.zero_add, pow_one_eq, ceil_top (by decide +kernel) h]

theorem count_two (h : x ≤ indirect2Count) :
    indexing.count 2 x = (x + 127) / 128 + (if x = 0 then 0 else 1) + x := by
  rw [Indexing.count, indexing.innerCount_eq 2 x (by rw [pow_two_eq]; exact h),
    Finset.sum_range_succ, Finset.sum_range_one, Nat.zero_add, pow_one_eq, pow_two_eq,
    ceil_top (by decide +kernel) h, indirect1Count]

theorem count_three (h : x ≤ indirect3Count) : indexing.count 3 x =
    (x + 127) / 128 + (x + 16383) / 16384 + (if x = 0 then 0 else 1) + x := by
  rw [Indexing.count, indexing.innerCount_eq 3 x (by rw [pow_three_eq]; exact h),
    Finset.sum_range_succ, Finset.sum_range_succ, Finset.sum_range_one, Nat.zero_add, pow_one_eq,
    pow_two_eq, pow_three_eq, ceil_top (by decide +kernel) h, indirect1Count, indirect2Count]

theorem blocksOf_eq (h : n ≤ 2113691) : blocksOf n =
    min n 27 + ((if n ≤ 27 then 0 else 1) + min (n - 27) 128 +
      ((min (n - 155) 16384 + 127) / 128 + (if n ≤ 155 then 0 else 1) + min (n - 155) 16384 +
        ((n - 16539 + 127) / 128 + (n - 16539 + 16383) / 16384 + (if n ≤ 16539 then 0 else 1) +
          (n - 16539)))) := by
  have htop : min (n - 16539) indirect3Count = n - 16539 :=
    Nat.min_eq_left (by rw [indirect3Count]; omega)
  have h1 : min (n - 27) 128 = 0 ↔ n ≤ 27 := by omega
  have h2 : min (n - 155) 16384 = 0 ↔ n ≤ 155 := by omega
  have h3 : n - 16539 = 0 ↔ n ≤ 16539 := by omega
  rw [blocksOf, blocksBehind1, blocksBehind2, count_one (Nat.min_le_right _ _),
    count_two (Nat.min_le_right _ _), count_three (Nat.min_le_right _ _), Nat.sub_sub, Nat.sub_sub,
    show directCount + indirect1Count = 155 from rfl,
    show 155 + indirect2Count = 16539 by rw [indirect2Count],
    htop, directCount, indirect1Count, indirect2Count]
  simp only [h1, h2, h3]

/-- `count_total_block` is the number of blocks of an inode that is not too large. -/
theorem countTotalBlock_eq {size : ℕ} (h : DiskInode.countDataBlock size ≤ 2113691) :
    DiskInode.countTotalBlock size = blocksOf (DiskInode.countDataBlock size) := by
  rw [countTotalBlock_def size _ rfl, blocksOf_eq h]
  generalize DiskInode.countDataBlock size = n at h ⊢
  -- the three bounds cut the numbers into four ranges
  rcases Nat.lt_or_ge 16539 n with h3 | h3
  · have h1 : min (n - 27) 128 = 128 := Nat.min_eq_right (by omega)
    have h2 : min (n - 155) 16384 = 16384 := Nat.min_eq_right (by omega)
    have hm : min ((n - 155 + 127) / 128) 128 = 128 := Nat.min_eq_right (by omega)
    rw [if_pos h3, if_pos (by omega), if_pos (by omega), h1, h2, hm, if_neg (by omega),
      if_neg (by omega), if_neg (by omega)]
    omega
  · rw [if_neg (by omega), show n - 16539 = 0 by omega, if_pos h3]
    rcases Nat.lt_or_ge 155 n with h2 | h2
    · have h1 : min (n - 27) 128 = 128 := Nat.min_eq_right (by omega)
      have hm : min (n - 155) 16384 = n - 155 := Nat.min_eq_left (by omega)
      rw [if_pos h2, if_pos (by omega), h1, hm, if_neg (by omega), if_neg (by omega)]
      omega
    · rw [if_neg (by omega), show n - 155 = 0 by omega, Nat.zero_min, if_pos h2]
      split <;> split <;> omega

/-! ### Direct blocks -/

theorem wp_nextBlock {slots b : ℕ} {blocks : List ℕ} {Q : ℕ × List ℕ → Disk → Prop}
    {E : Fault Panic → Prop} : wp slots (nextBlock (b :: blocks)) held d Q E ↔ Q (b, blocks) d :=
  wp_pure'

theorem directAt_setDirect (ino : DiskInode) {n i b : ℕ} (hn : n < directCount) :
    (ino.setDirect n b).directAt i = if i = n then b else ino.directAt i := by
  rw [DiskInode.directAt, DiskInode.directAt, DiskInode.setDirect]
  by_cases hi : i < directCount
  · rw [dif_pos hi, dif_pos hi]
  · rw [dif_neg hi, dif_neg hi, if_neg]
    rintro rfl
    exact hi hn

/-- The direct words from `n` on have taken the blocks `v`. -/
structure DirectGrown (ino ino' : DiskInode) (n : ℕ) (v : List ℕ) : Prop where
  same : ∃ f, ino' = { ino with direct := f }
  directs : (List.range (n + v.length)).map ino'.directAt =
    (List.range n).map ino.directAt ++ v
  leaf : ∀ i, i < n → ino'.directAt i = ino.directAt i
  fits : (∀ i, ino.direct i < 2 ^ 32) → ∀ i, ino'.direct i < 2 ^ 32

theorem growDirect_loop {rest : List ℕ} :
    ∀ (v : List ℕ) (ino : DiskInode) (n : ℕ), n + v.length ≤ directCount → (∀ b ∈ v, b < 2 ^ 32) →
      dwp (Prog.forList (fun i (s : DiskInode × List ℕ) => do
          let (b, blocks) ← nextBlock s.2
          pure (s.1.setDirect i b, blocks)) (List.range' n v.length) (ino, v ++ rest)) held d
        (fun o d' => d' = d ∧ o.2 = rest ∧ DirectGrown ino o.1 n v) fun _ => False := by
  intro v
  induction v with
  | nil =>
    intro ino n _ _
    exact wp_pure.mpr ⟨rfl, rfl, ⟨_, rfl⟩, by simp, fun _ _ => rfl, fun h => h⟩
  | cons b v ih =>
    intro ino n hn hfit
    rw [List.length_cons] at hn
    rw [List.length_cons, List.range'_succ, Prog.forList]
    refine wp_bind.mpr (wp_bind'.mpr (wp_nextBlock.mpr (wp_pure'.mpr ?_)))
    refine wp_mono (ih (ino.setDirect n b) (n + 1) (by omega)
      fun c hc => hfit c (List.mem_cons_of_mem _ hc)) ?_ fun _ h => h
    rintro ⟨ino', bs⟩ d' ⟨rfl, rfl, ⟨f, hsame⟩, hdirects, hleaf, hfits⟩
    refine ⟨rfl, rfl, ⟨f, by rw [hsame]; rfl⟩, ?_, ?_, ?_⟩
    · rw [List.length_cons, show n + (v.length + 1) = n + 1 + v.length by omega, hdirects,
        List.range_succ, List.map_append, List.map_singleton, directAt_setDirect _ (by omega),
        if_pos rfl, List.append_assoc, List.singleton_append]
      congr 1
      apply List.map_congr_left
      intro i hi
      have := List.mem_range.mp hi
      rw [directAt_setDirect _ (by omega), if_neg (by omega)]
    · intro i hi
      rw [hleaf i (by omega), directAt_setDirect _ (by omega), if_neg (by omega)]
    · intro h
      apply hfits
      intro i
      simp only [DiskInode.setDirect]
      split
      · exact hfit b List.mem_cons_self
      · exact h i

theorem growDirect_spec (ino : DiskInode) {n n' : ℕ} {v : List ℕ}
    (rest : List ℕ)
    (hn : n ≤ n') (hlen : v.length + min n directCount = min n' directCount)
    (hfit : ∀ b ∈ v, b < 2 ^ 32) :
    dwp (ino.growDirect n (min n' directCount) (v ++ rest)) held d
      (fun o d' => d' = d ∧ o.2 = rest ∧ (∃ f, o.1 = { ino with direct := f }) ∧
        o.1.directs n' = ino.directs n ++ v ∧
        (∀ i, i < min n directCount → o.1.directAt i = ino.directAt i) ∧
        ((∀ i, ino.direct i < 2 ^ 32) → ∀ i, o.1.direct i < 2 ^ 32)) fun _ => False := by
  rcases Nat.lt_or_ge n directCount with hlt | hge
  · have hm : min n' directCount - n = v.length := by omega
    rw [DiskInode.growDirect, hm]
    refine wp_mono (growDirect_loop v ino n (by omega) hfit) ?_ fun _ h => h
    rintro ⟨ino', bs⟩ d' ⟨hd, hbs, hsame, hdirects, hleaf, hfits⟩
    refine ⟨hd, hbs, hsame, ?_, fun i hi => hleaf i (by omega), hfits⟩
    rw [DiskInode.directs, DiskInode.directs, show min n' directCount = n + v.length by omega,
      show min n directCount = n by omega]
    exact hdirects
  · -- all direct words are taken already
    have hv : v = [] := List.length_eq_zero_iff.mp (by omega)
    subst hv
    rw [DiskInode.growDirect, show min n' directCount - n = 0 by omega]
    refine wp_pure.mpr ⟨rfl, rfl, ⟨_, rfl⟩, ?_, fun _ _ => rfl, fun h => h⟩
    rw [DiskInode.directs, DiskInode.directs, List.append_nil,
      show min n' directCount = min n directCount by omega]

/-! ### The indirect stanzas -/

/-- What growing the trees `l` to `total` blocks in all needs. -/
structure GrowPre (d : Disk) (held : List ℕ) (l : List Tree) (v : List ℕ) (total : ℕ) : Prop where
  bounded : indexing.Bounded l
  nodup : (indexing.forest d l ++ v).Nodup
  free : ∀ b ∈ indexing.forest d l ++ v, b ∉ held
  fits : ∀ b ∈ v, b < 2 ^ 32
  length : v.length + (indexing.forest d l).length = total

/-- The new blocks split into those of the first tree and the others; growing the first tree leaves
everything the others need in place. -/
theorem GrowPre.split {a : Tree} {l : List Tree}
    {c₁ c₂ : ℕ} (h : GrowPre d held (a :: l) v (c₁ + c₂))
    (h₁ : (indexing.forest d [a]).length ≤ c₁) (h₂ : (indexing.forest d l).length ≤ c₂) :
    ∃ v₁ v₂, v = v₁ ++ v₂ ∧ GrowPre d held [a] v₁ c₁ ∧
      (∀ b ∈ indexing.forest d [a] ++ v₁, b ∉ indexing.forest d l ++ v₂) ∧
      ∀ d' a', indexing.Extends d d' a a' v₁ → GrowPre d' held l v₂ c₂ := by
  have hcons : indexing.forest d (a :: l) = indexing.forest d [a] ++ indexing.forest d l := by
    rw [Indexing.forest_cons, Indexing.forest_cons]
    congr 1
    exact (List.append_nil _).symm
  have hlen := h.length
  rw [hcons, List.length_append] at hlen
  obtain ⟨v₁, v₂, rfl, hv₁⟩ : ∃ v₁ v₂, v = v₁ ++ v₂ ∧
      v₁.length = c₁ - (indexing.forest d [a]).length :=
    ⟨_, _, (List.take_append_drop (c₁ - (indexing.forest d [a]).length) v).symm, by
      rw [List.length_take]; omega⟩
  rw [List.length_append] at hlen
  have hperm := perm_append_middle (indexing.forest d [a]) (indexing.forest d l) v₁ v₂
  rw [← hcons] at hperm
  have hfree : ∀ b ∈ _, b ∉ held := fun b hb => h.free b (hperm.mem_iff.mpr hb)
  obtain ⟨hnd₁, hnd₂, hdis⟩ := List.nodup_append.mp (hperm.nodup_iff.mp h.nodup)
  have hbl : indexing.Bounded l := fun c hc => h.bounded c (List.mem_cons_of_mem _ hc)
  refine ⟨v₁, v₂, rfl, ⟨?_, hnd₁, fun b hb => hfree b (List.mem_append_left _ hb),
    fun b hb => h.fits b (List.mem_append_left _ hb), by omega⟩,
    fun b hb hm => hdis b hb b hm rfl, ?_⟩
  · intro c hc
    rw [List.mem_singleton] at hc
    exact h.bounded c (hc ▸ List.mem_cons_self)
  · intro d' a' hext
    have hsame := (hext.forest_eq hbl fun b hb hm =>
      hdis b hb b (List.mem_append_left _ hm) rfl).1
    refine ⟨hbl, ?_, ?_, fun b hb => h.fits b (List.mem_append_right _ hb), ?_⟩
    · rw [hsame]
      exact hnd₂
    · rw [hsame]
      exact fun b hb => hfree b (List.mem_append_right _ hb)
    · rw [hsame]
      omega

theorem GrowPre.nil_of_le {l : List Tree} {c : ℕ}
    (h : GrowPre d held l v c) (hc : c ≤ (indexing.forest d l).length) : v = [] := by
  have := h.length
  exact List.length_eq_zero_iff.mp (by omega)

/-- **One stanza of `increase_size`** grows its tree; its root comes from the new blocks when the
tree had no leaves. -/
theorem growLevel_spec (prev blockIndex total : ℕ) (rest : List ℕ)
    {k root cap s t : ℕ} {v : List ℕ} (hcap : indexing.fan ^ k = cap)
    (hs : s = min (blockIndex - prev) cap) (ht : t = min (total - prev) cap)
    (hprev : prev ≤ blockIndex) (hlt : prev < total) (hle : blockIndex ≤ total)
    (hroot : root < 2 ^ 32) (hcache : held.length + k ≤ blockCacheSize)
    (h : GrowPre d held [⟨k, root, s⟩] v (indexing.count k t)) :
    dwp (growLevel k prev ⟨root, blockIndex, total, v ++ rest⟩) held d
      (fun g d' => g.blockIndex = max (blockIndex - prev) t ∧ g.newTotalBlocks = total - prev ∧
        g.blocks = rest ∧ g.root < 2 ^ 32 ∧
        indexing.Extends d d' ⟨k, root, s⟩ ⟨k, g.root, t⟩ v) fun _ => False := by
  subst hcap
  have hpos := indexing.pow_pos k
  have hlen := h.length
  -- the tree is built once its root is known
  have hbuild : ∀ (p : ℕ) (v₁ : List ℕ), p < 2 ^ 32 → (0 < s → root = p) →
      v = (if s = 0 then [p] else []) ++ v₁ →
      dwp (do
        let (curLeaf, blocks) ← buildTree k (v₁ ++ rest) p 0 (blockIndex - prev) (total - prev)
        pure (⟨p, max (blockIndex - prev) curLeaf, total - prev, blocks⟩ : Growing)) held d
      (fun g d' => g.blockIndex = max (blockIndex - prev) t ∧ g.newTotalBlocks = total - prev ∧
        g.blocks = rest ∧ g.root < 2 ^ 32 ∧
        indexing.Extends d d' ⟨k, root, s⟩ ⟨k, g.root, t⟩ v) fun _ => False := by
    intro p v₁ hp hold hv
    have hperm := base_append_perm d k v₁ hold
    rw [← hv] at hperm
    have hpre : BuildPre d held k p s t v₁ := by
      refine ⟨hperm.nodup_iff.mpr h.nodup, fun b hb => h.free b (hperm.mem_iff.mp hb),
        fun b hb => h.fits b (by rw [hv]; exact List.mem_append_right _ hb), ?_⟩
      have hl := hperm.length_eq
      rw [List.length_append, List.length_append] at hl
      omega
    refine wp_bind'.mpr (wp_mono (buildTree_spec k d held p 0 _ _ s t v₁ rest (by simpa using hs)
      (by simpa using ht) (by omega) (by omega) hcache hpre) ?_ fun _ h => h)
    rintro ⟨cur, bs⟩ d' ⟨ho, hgrow⟩
    obtain ⟨rfl, rfl⟩ := Prod.mk.inj ho
    refine wp_pure'.mpr ⟨by rw [Nat.zero_add], rfl, rfl, hp, ?_⟩
    rw [hv]
    exact hgrow.extends (by omega) (by omega) hold
  rw [growLevel]
  by_cases hz : blockIndex = prev
  · have hs0 : s = 0 := by omega
    have hcount : 0 < indexing.count k t := indexing.count_pos (by omega)
    rw [length_forest_one, hs0, indexing.count_zero] at hlen
    obtain ⟨p, v', rfl⟩ : ∃ p v', v = p :: v' := by
      cases v with
      | nil => rw [List.length_nil] at hlen; omega
      | cons p v' => exact ⟨p, v', rfl⟩
    rw [if_pos hz]
    exact hbuild p v' (h.fits p List.mem_cons_self) (fun h => absurd h (by omega))
      (by rw [if_pos hs0]; rfl)
  · rw [if_neg hz]
    exact hbuild root v hroot (fun _ => rfl) (by rw [if_neg (by omega), List.nil_append])

theorem max_sub_right (a b : ℕ) : max a b - b = a - b := by omega

section Stanzas

variable {held : List ℕ} {d : Disk} (ino : DiskInode) {m m' : ℕ} {g : Growing}

/-- The last stanza, with `m` and `m'` leaves behind the stanzas before the second. -/
theorem growIndirect3_spec (hbi : g.blockIndex = max m indirect2Count) (htot : g.newTotalBlocks = m')
    (hm : m ≤ m') (hlt : indirect2Count < m')
    (hroot : ino.indirect3 < 2 ^ 32) (hcache : held.length + 3 ≤ blockCacheSize)
    (h : GrowPre d held [⟨3, ino.indirect3, min (m - indirect2Count) indirect3Count⟩] g.blocks
      (indexing.count 3 (min (m' - indirect2Count) indirect3Count))) :
    dwp (ino.growIndirect3 g) held d
      (fun ino' d' => (∃ r₃, r₃ < 2 ^ 32 ∧ ino' = { ino with indirect3 := r₃ }) ∧
        indexing.ForestGrows d d' [⟨3, ino.indirect3, min (m - indirect2Count) indirect3Count⟩]
          [⟨3, ino'.indirect3, min (m' - indirect2Count) indirect3Count⟩] g.blocks) fun _ => False := by
  have hrun := growLevel_spec indirect2Count g.blockIndex g.newTotalBlocks [] pow_three_eq
    (s := min (m - indirect2Count) indirect3Count) (by rw [hbi, max_sub_right]) (by rw [htot])
    (by omega) (by omega) (by omega) hroot hcache h
  rw [List.append_nil] at hrun
  refine wp_bind'.mpr (wp_mono hrun ?_ fun _ h => h)
  rintro g' d' ⟨-, -, -, hfit, hext⟩
  refine wp_pure'.mpr ⟨⟨g'.root, hfit, rfl⟩, ?_⟩
  have hgrow := Indexing.ForestGrows.cons hext (Indexing.ForestGrows.refl (l := []))
    (fun c hc => absurd hc List.not_mem_nil) (fun b _ hm => absurd hm List.not_mem_nil)
  rwa [List.append_nil] at hgrow

theorem growIndirect2_spec (hbi : g.blockIndex = max m indirect1Count) (htot : g.newTotalBlocks = m')
    (hm : m ≤ m') (hlt : indirect1Count < m')
    (hroot₂ : ino.indirect2 < 2 ^ 32) (hroot₃ : ino.indirect3 < 2 ^ 32)
    (hcache : held.length + 3 ≤ blockCacheSize)
    (h : GrowPre d held [⟨2, ino.indirect2, min (m - indirect1Count) indirect2Count⟩,
        ⟨3, ino.indirect3, min (m - indirect1Count - indirect2Count) indirect3Count⟩] g.blocks
      (blocksBehind2 (m' - indirect1Count))) :
    dwp (ino.growIndirect2 g) held d
      (fun ino' d' => (∃ r₂ r₃, r₂ < 2 ^ 32 ∧ r₃ < 2 ^ 32 ∧
          ino' = { ino with indirect2 := r₂, indirect3 := r₃ }) ∧
        indexing.ForestGrows d d' [⟨2, ino.indirect2, min (m - indirect1Count) indirect2Count⟩,
            ⟨3, ino.indirect3, min (m - indirect1Count - indirect2Count) indirect3Count⟩]
          [⟨2, ino'.indirect2, min (m' - indirect1Count) indirect2Count⟩,
            ⟨3, ino'.indirect3, min (m' - indirect1Count - indirect2Count) indirect3Count⟩] g.blocks)
      fun _ => False := by
  obtain ⟨v₁, v₂, hv, h₁, hdis, hrest⟩ := h.split
    (by
      rw [length_forest_one]
      exact indexing.count_mono (min_le_min_right _ (Nat.sub_le_sub_right hm _)))
    (by
      rw [length_forest_one]
      exact indexing.count_mono
        (min_le_min_right _ (Nat.sub_le_sub_right (Nat.sub_le_sub_right hm _) _)))
  have hbound : indexing.Bounded
      [⟨3, ino.indirect3, min (m - indirect1Count - indirect2Count) indirect3Count⟩] :=
    fun c hc => h.bounded c (List.mem_cons_of_mem _ hc)
  have hrun := growLevel_spec indirect1Count g.blockIndex g.newTotalBlocks v₂ pow_two_eq
    (s := min (m - indirect1Count) indirect2Count) (by rw [hbi, max_sub_right]) (by rw [htot])
    (by omega) (by omega) (by omega) hroot₂ (by omega) h₁
  rw [← hv] at hrun
  refine wp_bind'.mpr (wp_mono hrun ?_ fun _ h => h)
  rintro g' d₁ ⟨hbi', htot', rfl, hfit, hext⟩
  have hpre := hrest d₁ _ hext
  rw [hbi, max_sub_right] at hbi'
  rw [htot] at htot'
  rw [hv]
  show dwp (if g'.newTotalBlocks ≤ indirect2Count then _ else _) held d₁ _ _
  by_cases hdone : g'.newTotalBlocks ≤ indirect2Count
  · -- the third tree has no leaves and gets none
    have hz : min (m' - indirect1Count - indirect2Count) indirect3Count =
        min (m - indirect1Count - indirect2Count) indirect3Count := by
      rw [htot'] at hdone
      rw [Nat.sub_eq_zero_of_le hdone, Nat.sub_eq_zero_of_le
        (le_trans (Nat.sub_le_sub_right hm _) hdone)]
    have hnil : g'.blocks = [] := hpre.nil_of_le (by rw [length_forest_one, hz])
    rw [hnil] at hdis ⊢
    rw [if_pos hdone]
    refine wp_pure'.mpr ⟨⟨g'.root, ino.indirect3, hfit, hroot₃, rfl⟩, ?_⟩
    rw [hz]
    exact Indexing.ForestGrows.cons hext Indexing.ForestGrows.refl hbound hdis
  · rw [if_neg hdone]
    refine wp_mono (growIndirect3_spec { ino with indirect2 := g'.root }
      (m := m - indirect1Count) (by omega) htot' (by omega) (by omega) hroot₃ hcache hpre) ?_
      fun _ h => h
    rintro ino' d₂ ⟨⟨r₃, hr₃, rfl⟩, hgrow⟩
    exact ⟨⟨g'.root, r₃, hfit, hr₃, rfl⟩, Indexing.ForestGrows.cons hext hgrow hbound hdis⟩

theorem growIndirect1_spec (hbi : g.blockIndex = max m directCount) (htot : g.newTotalBlocks = m')
    (hm : m ≤ m') (hlt : directCount < m')
    (hroot₁ : ino.indirect1 < 2 ^ 32) (hroot₂ : ino.indirect2 < 2 ^ 32)
    (hroot₃ : ino.indirect3 < 2 ^ 32) (hcache : held.length + 3 ≤ blockCacheSize)
    (h : GrowPre d held (ino.trees m) g.blocks (blocksBehind1 (m' - directCount))) :
    dwp (ino.growIndirect1 g) held d
      (fun ino' d' => (∃ r₁ r₂ r₃, r₁ < 2 ^ 32 ∧ r₂ < 2 ^ 32 ∧ r₃ < 2 ^ 32 ∧
          ino' = { ino with indirect1 := r₁, indirect2 := r₂, indirect3 := r₃ }) ∧
        indexing.ForestGrows d d' (ino.trees m) (ino'.trees m') g.blocks) fun _ => False := by
  obtain ⟨v₁, v₂, hv, h₁, hdis, hrest⟩ := h.split
    (by rw [length_forest_one]; exact indexing.count_mono (by omega))
    (by rw [length_forest_two]; exact blocksBehind2_mono (by omega))
  have hbound : indexing.Bounded
      [⟨2, ino.indirect2, min (m - directCount - indirect1Count) indirect2Count⟩,
        ⟨3, ino.indirect3, min (m - directCount - indirect1Count - indirect2Count) indirect3Count⟩] :=
    fun c hc => h.bounded c (List.mem_cons_of_mem _ hc)
  have hrun := growLevel_spec directCount g.blockIndex g.newTotalBlocks v₂ pow_one_eq
    (s := min (m - directCount) indirect1Count) (by rw [hbi, max_sub_right]) (by rw [htot])
    (by omega) (by omega) (by omega) hroot₁ (by omega) h₁
  rw [← hv] at hrun
  refine wp_bind'.mpr (wp_mono hrun ?_ fun _ h => h)
  rintro g' d₁ ⟨hbi', htot', rfl, hfit, hext⟩
  have hpre := hrest d₁ _ hext
  rw [hbi, max_sub_right] at hbi'
  rw [htot] at htot'
  rw [hv]
  show dwp (if g'.newTotalBlocks ≤ indirect1Count then _ else _) held d₁ _ _
  by_cases hdone : g'.newTotalBlocks ≤ indirect1Count
  · have hz₁ : m' - directCount - indirect1Count = m - directCount - indirect1Count := by omega
    have hnil : g'.blocks = [] := hpre.nil_of_le (by rw [length_forest_two, hz₁])
    rw [hnil] at hdis ⊢
    rw [if_pos hdone]
    refine wp_pure'.mpr ⟨⟨g'.root, ino.indirect2, ino.indirect3, hfit, hroot₂, hroot₃, rfl⟩, ?_⟩
    rw [DiskInode.trees, DiskInode.trees, hz₁]
    exact Indexing.ForestGrows.cons hext Indexing.ForestGrows.refl hbound hdis
  · rw [if_neg hdone]
    refine wp_mono (growIndirect2_spec { ino with indirect1 := g'.root }
      (m := m - directCount) (by omega) htot' (by omega) (by omega) hroot₂ hroot₃ hcache hpre) ?_
      fun _ h => h
    rintro ino' d₂ ⟨⟨r₂, r₃, hr₂, hr₃, rfl⟩, hgrow⟩
    exact ⟨⟨g'.root, r₂, r₃, hfit, hr₂, hr₃, rfl⟩, Indexing.ForestGrows.cons hext hgrow hbound hdis⟩

end Stanzas

/-! ### `increase_size` -/

/-- What an inode needs to grow to `newSize` by the new blocks `v`. -/
structure IncreasePre (d : Disk) (held : List ℕ) (ino : DiskInode) (newSize : ℕ) (v : List ℕ) :
    Prop where
  nodup : (ino.owned d ++ v).Nodup
  free : ∀ b ∈ ino.owned d ++ v, b ∉ held
  fits : ∀ b ∈ v, b < 2 ^ 32
  length : v.length + blocksOf ino.leafCount = blocksOf (DiskInode.countDataBlock newSize)

/-- The inode `ino` has become `ino'` by growing to `newSize` with the new blocks `v`. -/
structure Grown (d d' : Disk) (ino ino' : DiskInode) (newSize : ℕ) (v : List ℕ) : Prop where
  kind : ino'.kind = ino.kind
  size : ino'.size = newSize
  perm : (ino'.owned d').Perm (ino.owned d ++ v)
  frame : ∀ b, b ∉ ino'.index d' → d' b = d b
  leaf : ∀ i, i < ino.leafCount → i < indirect3Bound → ino'.leaf d' i = ino.leaf d i
  index : ∀ b ∈ ino.index d, b ∈ ino'.index d'
  fits : ino'.Fits

/-- The leaves of an inode stay where they are when its direct words and its trees grow. -/
theorem leaf_of_grows {d' : Disk} {ino' : DiskInode} {n' : ℕ}
    (hdirect : ∀ i, i < min n directCount → ino'.directAt i = ino.directAt i)
    (hgrow : indexing.ForestGrows d d' (ino.trees n) (ino'.trees n') v) {i : ℕ} (hi : i < n)
    (htop : i < indirect3Bound) : ino'.leaf d' i = ino.leaf d i := by
  have hleaf := hgrow.leaf
  simp only [DiskInode.trees, List.forall₂_cons, List.forall₂_nil_left_iff, and_true] at hleaf
  obtain ⟨h₁, h₂, h₃⟩ := hleaf
  have hb0 : directBound = 27 := rfl
  have hb1 : indirect1Bound = 155 := rfl
  have hb2 : indirect2Bound = 16539 := by rw [indirect2Bound]
  have hb3 : indirect3Bound = 2113691 := by rw [indirect3Bound]
  have hc0 : directCount = 27 := rfl
  have hc1 : indirect1Count = 128 := rfl
  have hc2 : indirect2Count = 16384 := by rw [indirect2Count]
  have hc3 : indirect3Count = 2097152 := by rw [indirect3Count]
  rw [DiskInode.leaf, DiskInode.leaf]
  by_cases hi0 : i < directBound
  · rw [if_pos hi0, if_pos hi0]
    exact hdirect i (lt_min hi hi0)
  · rw [if_neg hi0, if_neg hi0]
    by_cases hi1 : i < indirect1Bound
    · rw [if_pos hi1, if_pos hi1]
      exact h₁ _ (lt_min (by omega) (by omega))
    · rw [if_neg hi1, if_neg hi1]
      by_cases hi2 : i < indirect2Bound
      · rw [if_pos hi2, if_pos hi2]
        exact h₂ _ (lt_min (by omega) (by omega))
      · rw [if_neg hi2, if_neg hi2]
        exact h₃ _ (lt_min (by omega) (by omega))

theorem Grown.of_parts {d' : Disk} {ino' : DiskInode} {newSize : ℕ} {v₁ v₂ : List ℕ}
    (hkind : ino'.kind = ino.kind) (hsize : ino'.size = newSize)
    (hdirects : ino'.directs ino'.leafCount = ino.directs ino.leafCount ++ v₁)
    (hdirect : ∀ i, i < min ino.leafCount directCount → ino'.directAt i = ino.directAt i)
    (hgrow : indexing.ForestGrows d d' (ino.trees ino.leafCount) (ino'.trees ino'.leafCount) v₂)
    (hfits : ino'.Fits) : Grown d d' ino ino' newSize (v₁ ++ v₂) := by
  refine ⟨hkind, hsize, ?_, hgrow.frame, fun i hi htop => leaf_of_grows hdirect hgrow hi htop,
    hgrow.inner, hfits⟩
  rw [DiskInode.owned, DiskInode.owned, hdirects]
  exact (hgrow.perm.append_left _).trans (perm_append_middle _ _ _ _)

/-- **Growth of an inode.** -/
theorem increaseSize_spec {newSize : ℕ}
    (hle : ino.size ≤ newSize) (hfits : ino.Fits) (hnew : newSize < 2 ^ 32)
    (hcache : held.length + 3 ≤ blockCacheSize) (h : IncreasePre d held ino newSize v) :
    dwp (ino.increaseSize newSize v) held d
      (fun ino' d' => Grown d d' ino ino' newSize v) fun _ => False := by
  have hn : ino.leafCount ≤ DiskInode.countDataBlock newSize := by
    rw [DiskInode.leafCount, DiskInode.countDataBlock, DiskInode.countDataBlock]
    exact Nat.div_le_div_right (by omega)
  obtain ⟨v₁, v₂, rfl, hv₁⟩ : ∃ v₁ v₂, v = v₁ ++ v₂ ∧
      v₁.length + min ino.leafCount directCount = min (DiskInode.countDataBlock newSize) directCount := by
    refine ⟨_, _, (List.take_append_drop (min (DiskInode.countDataBlock newSize) directCount -
      min ino.leafCount directCount) v).symm, ?_⟩
    have hlen := h.length
    have hmono := blocksBehind1_mono (Nat.sub_le_sub_right hn directCount)
    rw [blocksOf, blocksOf] at hlen
    rw [List.length_take]
    omega
  have hlen := h.length
  rw [blocksOf, blocksOf, List.length_append] at hlen
  have hperm := perm_append_middle (ino.directs ino.leafCount)
    (indexing.forest d (ino.trees ino.leafCount)) v₁ v₂
  obtain ⟨-, hnd, -⟩ := List.nodup_append.mp (hperm.nodup_iff.mp h.nodup)
  have hpre : GrowPre d held (ino.trees ino.leafCount) v₂
      (blocksBehind1 (DiskInode.countDataBlock newSize - directCount)) := by
    refine ⟨bounded_trees ino _, hnd,
      fun b hb => h.free b (hperm.mem_iff.mpr (List.mem_append_right _ hb)),
      fun b hb => h.fits b (List.mem_append_right _ hb), ?_⟩
    rw [length_forest_trees]
    omega
  rw [DiskInode.increaseSize]
  refine wp_bind'.mpr (wp_mono (growDirect_spec { ino with size := newSize } v₂ hn
    hv₁ fun b hb => h.fits b (List.mem_append_left _ hb)) ?_ fun _ h => h)
  rintro ⟨ino₁, bs⟩ d₁ ⟨rfl, hbs, ⟨f, hino⟩, hdirects, hleaf, hfit⟩
  simp only at hbs hino hdirects hleaf hfit
  subst hbs hino
  have hfit' := hfit hfits.direct
  show dwp (if DiskInode.countDataBlock newSize ≤ directCount then _ else _) held d₁ _ _
  by_cases hdone : DiskInode.countDataBlock newSize ≤ directCount
  · rw [if_pos hdone]
    have hz : DiskInode.countDataBlock newSize - directCount = ino.leafCount - directCount := by
      omega
    have hnil := hpre.nil_of_le (by rw [length_forest_trees, hz])
    subst hnil
    refine wp_pure'.mpr <| Grown.of_parts rfl rfl hdirects hleaf ?_ ⟨hnew, hfit', hfits.3, hfits.4, hfits.5⟩
    rw [DiskInode.trees, DiskInode.trees,
      show ({ ino with size := newSize, direct := f } : DiskInode).leafCount - directCount =
        ino.leafCount - directCount from hz]
    exact Indexing.ForestGrows.refl
  · rw [if_neg hdone]
    refine wp_mono (growIndirect1_spec { ino with size := newSize, direct := f }
      (m := ino.leafCount) ?_ rfl hn (Nat.not_le.mp hdone) hfits.3 hfits.4 hfits.5 hcache hpre) ?_
      fun _ h => h
    · show max ino.leafCount (min (DiskInode.countDataBlock newSize) directCount) = _
      omega
    · rintro ino' d' ⟨⟨r₁, r₂, r₃, hr₁, hr₂, hr₃, rfl⟩, hgrow⟩
      exact Grown.of_parts rfl rfl hdirects hleaf hgrow ⟨hnew, hfit', hr₁, hr₂, hr₃⟩

/-! ### `clear_size` -/

theorem collectRoot_spec {k cap : ℕ} (root : ℕ) (dropped : List ℕ)
    {l : List ℕ}
    (hcap : indexing.fan ^ k = cap) (hm : 0 < m) (hcache : held.length + k ≤ blockCacheSize)
    (hnd : (indexing.forest d [⟨k, root, min m cap⟩] ++ l).Nodup)
    (hfree : ∀ b ∈ indexing.forest d [⟨k, root, min m cap⟩] ++ l, b ∉ held) :
    dwp (collectTree k (dropped ++ [root]) root 0 m) held d
      (fun o d' => d' = d ∧ o.2.Perm (dropped ++ indexing.forest d [⟨k, root, min m cap⟩]))
      fun _ => False := by
  have hone : indexing.forest d [⟨k, root, min m cap⟩] = indexing.blocks d k root (min m cap) :=
    List.append_nil _
  rw [hone] at hnd hfree ⊢
  refine wp_mono (collectTree_spec k d held root 0 m (min m cap) _ (by rw [hcap, Nat.sub_zero]) hm
    hcache (List.nodup_append.mp hnd).1 fun b hb => hfree b (List.mem_append_left _ hb)) ?_
    fun _ h => h
  rintro o d' ⟨hd, -, u, hcol, hu⟩
  refine ⟨hd, ?_⟩
  rw [hcol, List.append_assoc, List.singleton_append]
  exact hu.append_left _

theorem owned_eq (d : Disk) (ino : DiskInode) : ino.owned d =
    ino.directs ino.leafCount ++
      (indexing.forest d [⟨1, ino.indirect1, min (ino.leafCount - directCount) indirect1Count⟩] ++
      (indexing.forest d [⟨2, ino.indirect2,
          min (ino.leafCount - directCount - indirect1Count) indirect2Count⟩] ++
      indexing.forest d [⟨3, ino.indirect3,
          min (ino.leafCount - directCount - indirect1Count - indirect2Count) indirect3Count⟩])) := by
  rw [DiskInode.owned, DiskInode.trees]
  simp only [Indexing.forest, List.flatMap_cons, List.flatMap_nil, List.append_nil]

theorem forest_empty (d : Disk) (k r : ℕ) {m : ℕ} (hm : m = 0) (cap : ℕ) :
    indexing.forest d [⟨k, r, min m cap⟩] = [] := by
  rw [hm, Nat.zero_min]
  exact (List.append_nil _).trans Indexing.blocks_zero

/-- **Clearing.**  The inode is empty and all its blocks are handed back, each once. -/
theorem clearSize_spec (hfits : ino.Fits)
    (hcache : held.length + 3 ≤ blockCacheSize) (hnd : (ino.owned d).Nodup)
    (hfree : ∀ b ∈ ino.owned d, b ∉ held) :
    dwp ino.clearSize held d
      (fun o d' => d' = d ∧ o.1.kind = ino.kind ∧ o.1.size = 0 ∧ o.1.Fits ∧
        o.2.Perm (ino.owned d)) fun _ => False := by
  have hpos : (0 : ℕ) < 2 ^ 32 := by norm_num
  rw [owned_eq] at hnd hfree ⊢
  have hnd₁ := (List.nodup_append.mp hnd).2.1
  have hnd₂ := (List.nodup_append.mp hnd₁).2.1
  have hnd₃ := (List.nodup_append.mp hnd₂).2.1
  have hfree₁ : ∀ b ∈ _, b ∉ held := fun b hb => hfree b (List.mem_append_right _ hb)
  have hfree₂ : ∀ b ∈ _, b ∉ held := fun b hb => hfree₁ b (List.mem_append_right _ hb)
  have hfree₃ : ∀ b ∈ _, b ∉ held := fun b hb => hfree₂ b (List.mem_append_right _ hb)
  rw [DiskInode.clearSize, show DiskInode.countDataBlock ino.size = ino.leafCount from rfl]
  by_cases h0 : ino.leafCount ≤ directCount
  · -- no index trees
    rw [if_pos h0, forest_empty d 1 _ (by omega), forest_empty d 2 _ (by omega),
      forest_empty d 3 _ (by omega)]
    refine wp_pure'.mpr ⟨rfl, rfl, rfl, ⟨hpos, fun _ => hpos, hfits.3, hfits.4, hfits.5⟩, ?_⟩
    simp [DiskInode.directs]
  rw [if_neg h0]
  refine wp_bind'.mpr (wp_mono (collectRoot_spec _ _ pow_one_eq (by omega) (by omega) hnd₁ hfree₁) ?_
    fun _ h => h)
  rintro ⟨_, dropped₁⟩ d₁ ⟨rfl, hp₁⟩
  show dwp (if ino.leafCount - directCount ≤ indirect1Count then _ else _) held d₁ _ _
  by_cases h1 : ino.leafCount - directCount ≤ indirect1Count
  · rw [if_pos h1, forest_empty d₁ 2 _ (by omega), forest_empty d₁ 3 _ (by omega)]
    refine wp_pure'.mpr ⟨rfl, rfl, rfl, ⟨hpos, fun _ => hpos, hpos, hfits.4, hfits.5⟩, ?_⟩
    rw [List.append_nil, List.append_nil]
    exact hp₁
  rw [if_neg h1]
  have hrun₂ := collectRoot_spec (m := ino.leafCount - directCount - indirect1Count) _ dropped₁
    pow_two_eq (by omega) (by omega) hnd₂ hfree₂
  refine wp_bind'.mpr (wp_mono hrun₂ ?_ fun _ h => h)
  rintro ⟨_, dropped₂⟩ d₂ ⟨rfl, hp₂⟩
  show dwp (if ino.leafCount - directCount - indirect1Count ≤ indirect2Count then _ else _) held d₂ _ _
  by_cases h2 : ino.leafCount - directCount - indirect1Count ≤ indirect2Count
  · rw [if_pos h2, forest_empty d₂ 3 _ (Nat.sub_eq_zero_of_le h2)]
    refine wp_pure'.mpr ⟨rfl, rfl, rfl, ⟨hpos, fun _ => hpos, hpos, hpos, hfits.5⟩, ?_⟩
    rw [List.append_nil, ← List.append_assoc]
    exact hp₂.trans (hp₁.append_right _)
  rw [if_neg h2]
  have hrun₃ := collectRoot_spec (m := ino.leafCount - directCount - indirect1Count - indirect2Count)
    (l := []) ino.indirect3 dropped₂ pow_three_eq
    (Nat.sub_pos_of_lt (Nat.not_le.mp h2)) hcache
    (by rw [List.append_nil]; exact hnd₃) (by rw [List.append_nil]; exact hfree₃)
  refine wp_bind'.mpr (wp_mono hrun₃ ?_ fun _ h => h)
  rintro ⟨_, dropped₃⟩ d₃ ⟨rfl, hp₃⟩
  refine wp_pure'.mpr ⟨rfl, rfl, rfl, ⟨hpos, fun _ => hpos, hpos, hpos, hpos⟩, ?_⟩
  rw [← List.append_assoc, ← List.append_assoc]
  exact hp₃.trans ((hp₂.trans (hp₁.append_right _)).append_right _)

end LemonCore.EasyFs
