import LemonCore.EasyFs.Growth

/-!
# Which blocks reading and writing look up

`read_at` and `write_at` look blocks up in the cache by the numbers they find in the inode and in its index
blocks.  What is behind the last leaf is no number of a block: it is zero, and block 0 is the super block.

* `DiskInode.ZeroPadded`: an inode whose unused pointers are zero;
* `blockId_behind`: looking up the first leaf that is not there leads to block 0, in each of the four ranges
  of `block_id` and at each of their ends;
* `lookups_own_iff`: the loop of `write_at` runs at least once, also when there is nothing to write.  So
  `write_at` leaves the blocks of the inode exactly for an offset at the end of a file that fills its last
  block.
-/

namespace LemonCore.EasyFs

open Foundation.BorrowProgram Foundation.PointerTree

variable {d d' : Disk} {held : List ℕ} {ino : DiskInode} {offset : ℕ} {buf : List UInt8}

/-- The pointers of an inode that are not in use are zero, and block 0 is none of its blocks. -/
structure DiskInode.ZeroPadded (d : Disk) (ino : DiskInode) : Prop where
  zero : 0 ∉ ino.owned d
  direct : ∀ i, ino.leafCount ≤ i → i < directCount → ino.directAt i = 0
  root : ∀ a ∈ ino.trees ino.leafCount, a.leaves = 0 → a.root = 0
  words : ∀ a ∈ ino.trees ino.leafCount, indexing.ZeroPadded d a.height a.root a.leaves

/-! ### Behind the last leaf -/

/-- A tree with room behind its last leaf: it has no cell yet, or its unused words are zero. -/
def Roomy (d : Disk) (held : List ℕ) (k r n : ℕ) : Prop :=
  (n = 0 ∧ r = 0) ∨ (0 < n ∧ n < indexing.fan ^ k ∧ indexing.ZeroPadded d k r n ∧
    ∀ b ∈ indexing.inner d k r n, b ∉ held)

theorem roomy_zero {r n : ℕ} (h : Roomy d held 0 r n) : r = 0 := by
  rcases h with ⟨-, hr⟩ | ⟨hpos, hlt, -⟩
  · exact hr
  · rw [Nat.pow_zero] at hlt
    omega

/-- **One pointer on the way to the first missing leaf**: it leads to a tree with room, or is zero. -/
theorem Roomy.follow {k r n : ℕ} (h : Roomy d held (k + 1) r n) (h0 : 0 ∈ held)
    (hlen : held.length < blockCacheSize) :
    dwp (Prog.borrow r fun x => pure (x.u32 (4 * (n / indexing.fan ^ k)))) held d
      (fun b d' => d' = d ∧ Roomy d held k b (n % indexing.fan ^ k)) fun f => f = .locked 0 := by
  rcases h with ⟨hn, hr⟩ | ⟨hpos, hlt, hpad, hfree⟩
  · rw [hr]
    exact wp_borrow_locked h0 rfl
  obtain ⟨hj, hpart⟩ := indexing.child_behind hlt
  obtain ⟨hzero, hchild⟩ := hpad hpos _ hj
  rw [hpart] at hzero hchild
  refine wp_word (hfree r (indexing.root_mem_inner hpos)) hlen ⟨rfl, ?_⟩
  rcases Nat.eq_zero_or_pos (n % indexing.fan ^ k) with hm | hm
  · exact Or.inl ⟨hm, hzero hm⟩
  · refine Or.inr ⟨hm, Nat.mod_lt _ (indexing.pow_pos k), hchild, ?_⟩
    intro b hb
    refine hfree b (indexing.inner_of_child hj ?_)
    rw [hpart]
    exact hb

theorem DiskInode.ZeroPadded.roomy (h : ino.ZeroPadded d) (hfree : ∀ b ∈ ino.index d, b ∉ held) {a : Tree}
    (ha : a ∈ ino.trees ino.leafCount) (hlt : a.leaves < indexing.fan ^ a.height) :
    Roomy d held a.height a.root a.leaves := by
  rcases Nat.eq_zero_or_pos a.leaves with hz | hpos
  · exact Or.inl ⟨hz, h.root a ha hz⟩
  · exact Or.inr ⟨hpos, hlt, h.words a ha, fun b hb => hfree b (mem_index ha hb)⟩

/-- **The first missing leaf** is block 0, and while somebody holds block 0 an index block on the way may be
it as well. -/
theorem blockId_behind (h : ino.ZeroPadded d) (hfree : ∀ b ∈ ino.index d, b ∉ held) (h0 : 0 ∈ held)
    (hlen : held.length < blockCacheSize) (htop : ino.leafCount < indirect3Bound) :
    dwp (ino.blockId ino.leafCount) held d (fun b d' => b = 0 ∧ d' = d) fun f => f = .locked 0 := by
  obtain ⟨-, -, -, -, -, hb0, hb1, hb2, hb3⟩ := bounds_eq
  have hr₁ := h.roomy hfree (tree1_mem ino _)
  have hr₂ := h.roomy hfree (tree2_mem ino _)
  have hr₃ := h.roomy hfree (tree3_mem ino _)
  simp only [pow_one_eq, pow_two_eq, pow_three_eq] at hr₁ hr₂ hr₃
  generalize hn : ino.leafCount = n at htop hr₁ hr₂ hr₃ ⊢
  rw [DiskInode.blockId]
  by_cases h0' : n < directBound
  · rw [if_pos h0']
    exact wp_pure'.mpr ⟨h.direct n (le_of_eq hn) h0', rfl⟩
  rw [if_neg h0']
  by_cases h1 : n < indirect1Bound
  · rw [if_pos h1]
    rw [Nat.min_eq_left (by omega), ← hb0] at hr₁
    have hrun := (hr₁ (by omega)).follow h0 hlen
    rw [Nat.pow_zero, Nat.div_one] at hrun
    exact wp_mono hrun (fun b d' hb => ⟨roomy_zero hb.2, hb.1⟩) fun _ h => h
  rw [if_neg h1]
  by_cases h2 : n < indirect2Bound
  · rw [if_pos h2]
    rw [Nat.min_eq_left (by omega),
      show n - directCount - indirect1Count = n - indirect1Bound by omega] at hr₂
    have hrun := (hr₂ (by omega)).follow h0 hlen
    rw [pow_one_eq] at hrun
    refine wp_bind'.mpr (wp_mono hrun ?_ fun _ h => h)
    rintro b d₁ ⟨rfl, hb⟩
    have hrun' := hb.follow h0 hlen
    rw [Nat.pow_zero, Nat.div_one] at hrun'
    exact wp_mono hrun' (fun b d' hb => ⟨roomy_zero hb.2, hb.1⟩) fun _ h => h
  rw [if_neg h2]
  rw [Nat.min_eq_left (by omega),
    show n - directCount - indirect1Count - indirect2Count = n - indirect2Bound by omega] at hr₃
  have hlt : n - indirect2Bound < indirect3Count := by omega
  have hcube : indirect3Count = indirectCount * indirect2Count := by
    obtain ⟨-, -, -, h2, h3, -⟩ := bounds_eq
    rw [h3, h2, pow_succ']
  have hin : (n - indirect2Bound) / indirect2Count < indirectCount := by
    rw [Nat.div_lt_iff_lt_mul (pow_two_eq ▸ indexing.pow_pos 2), ← hcube]
    exact hlt
  have hrun := (hr₃ hlt).follow h0 hlen
  rw [pow_two_eq] at hrun
  refine wp_bind'.mpr ?_
  simp only [if_pos hin]
  refine wp_mono hrun ?_ fun _ h => h
  rintro b d₁ ⟨rfl, hb⟩
  have hrun' := hb.follow h0 hlen
  rw [pow_one_eq] at hrun'
  refine wp_bind'.mpr (wp_mono hrun' ?_ fun _ h => h)
  rintro b d₂ ⟨rfl, hb⟩
  have hrun'' := hb.follow h0 hlen
  rw [Nat.pow_zero, Nat.div_one] at hrun''
  exact wp_mono hrun'' (fun b d' hb => ⟨roomy_zero hb.2, hb.1⟩) fun _ h => h

/-! ### `write_at` -/

theorem endCurrentBlock_self (start : ℕ) : DiskInode.endCurrentBlock start start = start := by
  rw [DiskInode.endCurrentBlock, blockSize]
  omega

theorem writeAt_inside (hok : InodeOk d held ino) (hlen : held.length < blockCacheSize)
    (hle : offset ≤ ino.size) (hin : offset / blockSize < ino.leafCount) :
    dwp (ino.writeAt offset buf) held d (fun _ _ => True) fun _ => False := by
  simp only [DiskInode.writeAt]
  refine wp_bind'.mpr (wp_assert (by omega) ?_)
  rcases Nat.lt_or_ge offset (min (offset + buf.length) ino.size) with hlt | hge
  · exact wp_mono (writeLoop_spec hlen (by omega) _ d offset 0 hok rfl hlt (by omega)) (fun _ _ _ => trivial)
      fun _ h => h
  -- nothing to write: one turn of the loop
  rw [show min (offset + buf.length) ino.size = offset by omega, DiskInode.writeLoop]
  refine wp_bind'.mpr (wp_mono
    (LemonCore.EasyFs.blockId_spec hin (lt_of_lt_of_le hin hok.top) hok.index_free hlen) ?_ fun _ h => h)
  rintro b d₁ ⟨rfl, rfl⟩
  refine wp_bind'.mpr (wp_update (hok.free _ (leaf_mem_owned hok.top hin)) hlen (wp_pure'.mpr ?_))
  rw [dif_pos (endCurrentBlock_self offset)]
  exact wp_pure'.mpr trivial

/-- At the end of a file that fills its last block, `write_at` looks up block 0. -/
theorem writeAt_behind (h : ino.ZeroPadded d) (hfree : ∀ b ∈ ino.index d, b ∉ held) (h0 : 0 ∈ held)
    (hlen : held.length < blockCacheSize) (htop : ino.leafCount < indirect3Bound)
    (hend : ino.size / blockSize = ino.leafCount) :
    dwp (ino.writeAt ino.size buf) held d (fun _ _ => False) fun f => f = .locked 0 := by
  simp only [DiskInode.writeAt]
  refine wp_bind'.mpr (wp_assert (by omega) ?_)
  rw [show min (ino.size + buf.length) ino.size = ino.size by omega, DiskInode.writeLoop, hend]
  refine wp_bind'.mpr (wp_mono (blockId_behind h hfree h0 hlen htop) ?_ fun _ h => h)
  rintro b d₁ ⟨rfl, rfl⟩
  exact wp_bind'.mpr (wp_update_locked h0 rfl)

theorem writeAt_full (hok : InodeOk d held ino) (hlen : held.length < blockCacheSize)
    (hfull : ino.leafCount = indirect3Bound) (hend : ino.size / blockSize = ino.leafCount) :
    dwp (ino.writeAt ino.size buf) held d (fun _ _ => False) fun f => ∃ e, f = .panic e := by
  obtain ⟨-, -, -, h2, h3, hb0, hb1, hb2, hb3⟩ := bounds_eq
  have hcube : indirect3Count = indirectCount * indirect2Count := by rw [h3, h2, pow_succ']
  have hpos : 0 < indirect2Count := pow_two_eq ▸ indexing.pow_pos 2
  have hpos' : 0 < indirect3Count := pow_three_eq ▸ indexing.pow_pos 3
  have hroot : ino.indirect3 ∉ held := by
    refine hok.index_free _ (mem_index (tree3_mem ino _) (indexing.root_mem_inner ?_))
    rw [hfull]
    exact lt_min (by omega) hpos'
  have h0 : ¬ indirect3Bound < directBound := by omega
  have h1 : ¬ indirect3Bound < indirect1Bound := by omega
  have h2 : ¬ indirect3Bound < indirect2Bound := by omega
  simp only [DiskInode.writeAt]
  refine wp_bind'.mpr (wp_assert (by omega) ?_)
  rw [show min (ino.size + buf.length) ino.size = ino.size by omega, DiskInode.writeLoop, hend, hfull,
    DiskInode.blockId, if_neg h0, if_neg h1, if_neg h2]
  refine wp_bind'.mpr (wp_bind'.mpr (wp_borrow hroot hlen ?_))
  have hout : ¬ (indirect3Bound - indirect2Bound) / indirect2Count < indirectCount := by
    rw [Nat.div_lt_iff_lt_mul hpos, ← hcube]
    omega
  rw [if_neg hout]
  exact wp_panic.mpr ⟨_, rfl⟩

/-- The file fills its last block, and there could be one more. -/
def DiskInode.Aligned (ino : DiskInode) : Prop := blockSize ∣ ino.size ∧ ino.size < maxFileSize

theorem InodeOk.cons {b : ℕ} (hok : InodeOk d held ino) (hb : b ∉ ino.owned d) :
    InodeOk d (b :: held) ino := by
  refine ⟨hok.top, hok.nodup, ?_⟩
  intro c hc hin
  rcases List.mem_cons.mp hin with rfl | hin
  · exact hb hc
  · exact hok.free c hc hin

/-- **Where `read_at` and `write_at` stay inside the inode**: always, except that `write_at` leaves it at the
end of a file that fills its last block. -/
theorem lookups_own_iff (hok : InodeOk d held ino) (hpad : ino.ZeroPadded d)
    (hcache : held.length + 1 < blockCacheSize) (offset : ℕ) (buf : List UInt8) :
    ((∀ b ∈ asked blockCacheSize (ino.readAt offset buf) held d, b ∈ ino.owned d) ∧
      (offset ≤ ino.size → ∀ b ∈ asked blockCacheSize (ino.writeAt offset buf) held d, b ∈ ino.owned d)) ↔
    ¬ (offset = ino.size ∧ ino.Aligned) := by
  have hblock : blockSize = 512 := rfl
  constructor
  · rintro ⟨-, hwrite⟩ ⟨heq, hdvd, hmax⟩
    subst heq
    have hend : ino.size / blockSize = ino.leafCount := by
      rw [DiskInode.leafCount, DiskInode.countDataBlock, hblock]
      rw [hblock] at hdvd
      omega
    have htop : ino.leafCount < indirect3Bound := by
      rw [← hend]
      exact (Nat.div_lt_iff_lt_mul (by decide)).mpr hmax
    have hfree : ∀ b ∈ ino.index d, b ∉ held ++ [0] := by
      intro b hb hin
      rcases List.mem_append.mp hin with hin | hin
      · exact hok.index_free b hb hin
      · rw [List.mem_singleton.mp hin] at hb
        exact hpad.zero (index_subset hok.top hb)
    refine hpad.zero (hwrite le_rfl 0 (asked_of_wp (writeAt_behind hpad hfree (by simp) ?_ htop hend)))
    rw [List.length_append]
    exact hcache
  · intro hnot
    refine ⟨?_, ?_⟩
    · intro b
      contrapose
      intro hb
      exact not_asked_of_wp (wp_weaken (readAt_spec (hok.cons hb) hcache offset buf) fun _ _ h => h)
    · intro hle b
      contrapose
      intro hb
      by_cases hin : offset / blockSize < ino.leafCount
      · exact not_asked_of_wp (wp_weaken (writeAt_inside (hok.cons hb) hcache hle hin) fun _ _ h => h)
      -- the end of the largest file
      have hend : offset = ino.size ∧ blockSize ∣ ino.size := by
        rw [DiskInode.leafCount, DiskInode.countDataBlock, hblock] at hin
        rw [hblock]
        omega
      have hfull : ino.size = maxFileSize := by
        have hsize := size_le_of_leafCount hok.top
        by_contra hne
        exact hnot ⟨hend.1, hend.2, lt_of_le_of_ne hsize hne⟩
      have hdiv : ino.size / blockSize = indirect3Bound := by
        rw [hfull, maxFileSize]
        exact Nat.mul_div_cancel _ (by decide)
      have hcount : ino.leafCount = indirect3Bound := by
        refine le_antisymm hok.top ?_
        rw [← hdiv]
        exact Nat.div_le_div_right (Nat.le_add_right _ _)
      rw [hend.1]
      exact not_asked_of_wp (wp_mono (writeAt_full (hok.cons hb) hcache hcount (hdiv.trans hcount.symm))
        (fun _ _ h => h) fun _ h => h)

/-- A file that fills its direct blocks. -/
def directFile : DiskInode := ⟨.file, 27 * 512, fun i => i.val + 1, 0, 0, 0⟩

theorem leafCount_directFile : directFile.leafCount = 27 := rfl

theorem owned_directFile (d : Disk) : directFile.owned d = List.range' 1 27 := by
  have h1 : directFile.leafCount - directCount = 0 := rfl
  have h2 : directFile.leafCount - directCount - indirect1Count = 0 := rfl
  have h3 : directFile.leafCount - directCount - indirect1Count - indirect2Count = 0 := by
    rw [h2, Nat.zero_sub]
  rw [owned_eq, forest_empty d 1 _ h1, forest_empty d 2 _ h2, forest_empty d 3 _ h3]
  decide +kernel

theorem zeroPadded_directFile (d : Disk) : directFile.ZeroPadded d := by
  have htrees : ∀ a ∈ directFile.trees directFile.leafCount, a.leaves = 0 ∧ a.root = 0 := by
    intro a ha
    simp only [DiskInode.trees, List.mem_cons, List.not_mem_nil, or_false] at ha
    have hz : directFile.leafCount - directCount = 0 := rfl
    rw [hz, Nat.zero_sub, Nat.zero_sub, Nat.zero_min, Nat.zero_min, Nat.zero_min] at ha
    rcases ha with rfl | rfl | rfl <;> exact ⟨rfl, rfl⟩
  refine ⟨?_, ?_, fun a ha _ => (htrees a ha).2, ?_⟩
  · rw [owned_directFile]
    decide
  · intro i hi hlt
    exact absurd hlt (Nat.not_lt.mpr hi)
  · intro a ha
    rw [(htrees a ha).1]
    cases a.height with
    | zero => trivial
    | succ k => exact fun h => absurd h (Nat.lt_irrefl 0)

/-- Writing nothing at the end of this file takes the super block for an index block, and its magic number
for the number of a block. -/
theorem empty_write_follows_magic :
    asked blockCacheSize (directFile.writeAt (27 * 512) []) [] (fun _ => Block.zero.setU32 0 efsMagic) =
      [0, efsMagic] ∧ 0 ∉ directFile.owned fun _ => Block.zero.setU32 0 efsMagic := by
  refine ⟨?_, (zeroPadded_directFile _).zero⟩
  simp only [DiskInode.writeAt]
  rw [DiskInode.writeLoop]
  rfl

/-- Inside the file nothing goes wrong. -/
theorem lookups_own_inside : directFile.ZeroPadded (fun _ => .zero) ∧
    ∀ b ∈ asked blockCacheSize (directFile.writeAt 512 []) [] (fun _ => .zero),
      b ∈ directFile.owned fun _ => .zero := by
  have hok : InodeOk (fun _ => .zero) [] directFile := by
    refine ⟨?_, ?_, fun _ _ => List.not_mem_nil⟩
    · rw [leafCount_directFile, indirect3Bound]
      norm_num
    · rw [owned_directFile]
      exact List.nodup_range'
  have hpad := zeroPadded_directFile fun _ => .zero
  refine ⟨hpad, ((lookups_own_iff hok hpad (by decide) 512 []).mpr ?_).2 (by decide)⟩
  rintro ⟨heq, -⟩
  exact absurd heq (by decide)

end LemonCore.EasyFs
