import LemonCore.EasyFs.LargeDirectory

/-!
# What `decrease_size` hands back

`decrease_size` should hand back the blocks that the inode has at its old size and not at its new one.
It does so when all blocks of the inode are direct ones.  Otherwise it either forgets the index blocks,
when no index tree is left, or it collects the leaves that are kept.

* `Sheds`: what is expected of the result;
* `collectTree_first`: the first leaf of a tree is collected whenever there is something to collect;
* `decreaseSize_sheds_iff`: the sizes for which the result is as expected.
-/

namespace LemonCore.EasyFs

open Foundation.BorrowProgram Foundation.PointerTree

variable {d : Disk} {held : List ℕ} {ino : DiskInode} {newSize : ℕ}

/-- The inode has as many blocks as `count_total_block` says, and no two of them are the same. -/
structure DiskInode.WellFormed (d : Disk) (ino : DiskInode) : Prop where
  length : (ino.owned d).length = DiskInode.countTotalBlock ino.size
  nodup : (ino.owned d).Nodup

/-- The blocks given back are those of the tree for the old size that the tree for the new size has not,
and the leaves that are kept are found as before. -/
structure Sheds (d : Disk) (held : List ℕ) (ino : DiskInode) (newSize : ℕ) (o : DiskInode × List ℕ)
    (d' : Disk) : Prop where
  nodup : o.2.Nodup
  mem : ∀ b, b ∈ o.2 ↔ b ∈ ino.owned d ∧ b ∉ ({ ino with size := newSize } : DiskInode).owned d
  length : o.2.length = DiskInode.countTotalBlock ino.size - DiskInode.countTotalBlock newSize
  blockId : ∀ i, i < DiskInode.countDataBlock newSize →
    drun (o.1.blockId i) held d' = drun (ino.blockId i) held d

/-! ### Collecting the leaves that are kept -/

theorem collectTree_keeps : ∀ (k : ℕ) (held : List ℕ) (d : Disk) (collected : List ℕ) (r c max : ℕ),
    dwp (collectTree k collected r c max) held d (fun o _ => ∀ b ∈ collected, b ∈ o.2)
      fun _ => True := by
  intro k
  induction k with
  | zero =>
    intro held d collected r c max
    exact wp_pure'.mpr fun b hb => hb
  | succ k ih =>
    intro held d collected r c max
    rw [collectTree]
    refine wp_borrow_any (fun _ => trivial) ?_
    refine wp_forUntil (fun (s : ℕ × List ℕ) _ => ∀ b ∈ collected, b ∈ s.2) ?_ _ _ _ fun b hb => hb
    intro j s d' hs
    refine wp_mono (ih _ d' _ _ _ _) ?_ fun _ h => h
    intro o _ ho b hb
    exact ho b (List.mem_append_left _ (hs b hb))

theorem collectTree_first (k : ℕ) (collected : List ℕ) (r : ℕ) {c max : ℕ} (hc : c < max) :
    dwp (collectTree (k + 1) collected r c max) held d
      (fun o _ => indexing.word (d r) 0 ∈ o.2 ∧ ∀ b ∈ collected, b ∈ o.2) fun _ => True := by
  have hrange : List.range indirectCount = 0 :: List.range' 1 127 := rfl
  rw [collectTree]
  refine wp_borrow_any (fun _ => trivial) ?_
  rw [hrange, Prog.forUntil, if_neg (by simpa using hc)]
  refine wp_bind.mpr (wp_mono (collectTree_keeps k _ d _ _ _ _) ?_ fun _ h => h)
  intro s d' hs
  refine wp_forUntil (fun (s : ℕ × List ℕ) _ => indexing.word (d r) 0 ∈ s.2 ∧ ∀ b ∈ collected, b ∈ s.2)
    ?_ _ _ _ ?_
  · rintro j s₁ d₁ ⟨hfirst, hold⟩
    refine wp_mono (collectTree_keeps k _ d₁ _ _ _ _) ?_ fun _ h => h
    intro o _ ho
    exact ⟨ho _ (List.mem_append_left _ hfirst), fun b hb => ho b (List.mem_append_left _ (hold b hb))⟩
  · exact ⟨hs _ (List.mem_append_right _ List.mem_cons_self),
      fun b hb => hs b (List.mem_append_left _ hb)⟩

theorem mem_push {c : Prop} [Decidable c] {i₁ i₂ : DiskInode} {collected : List ℕ} {b r : ℕ}
    (hb : b ∈ collected) : b ∈ (if c then (i₁, collected ++ [r]) else (i₂, collected)).2 := by
  split
  · exact List.mem_append_left _ hb
  · exact hb

/-- When leaves behind the first index block are kept, the first of them is handed back. -/
theorem decreaseSize_first (hle : newSize ≤ ino.size)
    (hm : directCount < DiskInode.countDataBlock newSize) :
    dwp (ino.decreaseSize newSize) held d
      (fun o _ => indexing.word (d ino.indirect1) 0 ∈ o.2) fun _ => True := by
  have hmono : DiskInode.countDataBlock newSize ≤ DiskInode.countDataBlock ino.size :=
    Nat.div_le_div_right (Nat.add_le_add_right hle _)
  have hstop : ¬ max (DiskInode.countDataBlock newSize)
      (min (DiskInode.countDataBlock ino.size) directCount) ≤ directCount := by omega
  have hold : DiskInode.countDataBlock ino.size ≠ directCount := by omega
  rw [DiskInode.decreaseSize]
  simp only [DiskInode.dropDirect]
  rw [if_neg hstop, if_neg hold]
  refine wp_bind'.mpr (wp_mono (collectTree_first 0 _ ino.indirect1 (by omega)) ?_ fun _ h => h)
  rintro o₁ d₁ ⟨hfirst, _⟩
  dsimp only
  split
  · exact wp_pure'.mpr hfirst
  -- the stanzas that follow only add blocks
  refine wp_bind'.mpr (wp_mono (collectTree_keeps 2 _ _ _ _ _ _) ?_ fun _ h => h)
  intro o₂ d₂ hkeep₂
  have hfirst₂ := hkeep₂ _ (mem_push hfirst)
  split
  · exact wp_pure'.mpr hfirst₂
  refine wp_bind'.mpr (wp_mono (collectTree_keeps 3 _ _ _ _ _ _) ?_ fun _ h => h)
  intro o₃ d₃ hkeep₃
  exact wp_pure'.mpr (hkeep₃ _ (mem_push hfirst₂))

/-! ### When the result is as expected -/

theorem DiskInode.first_leaf_mem_owned (h : directCount < ino.leafCount) :
    indexing.word (d ino.indirect1) 0 ∈ ino.owned d := by
  have hpos : 0 < min (ino.leafCount - directCount) indirect1Count :=
    lt_min (Nat.sub_pos_of_lt h) (by decide)
  have hleaf : indexing.leafAt d 1 ino.indirect1 0 = indexing.word (d ino.indirect1) 0 := by
    rw [Indexing.leafAt, Indexing.leafAt, Nat.zero_div]
  rw [owned, trees, Indexing.forest_cons, ← hleaf]
  exact List.mem_append_right _ (List.mem_append_left _ (Indexing.leaf_mem hpos))

theorem DiskInode.indirect1_mem_forest (h : directCount < ino.leafCount) :
    ino.indirect1 ∈ indexing.forest d (ino.trees ino.leafCount) := by
  have hpos : 0 < min (ino.leafCount - directCount) indirect1Count :=
    lt_min (Nat.sub_pos_of_lt h) (by decide)
  rw [trees, Indexing.forest_cons, blocks_one d _ hpos]
  exact List.mem_append_left _ List.mem_cons_self

theorem not_sheds_of_kept (hlt : newSize < ino.size)
    (hm : directCount < DiskInode.countDataBlock newSize) :
    ¬ dwp (ino.decreaseSize newSize) held d (Sheds d held ino newSize) fun _ => False := by
  intro h
  obtain ⟨o, d', hrun, hsheds⟩ := wp_returns h
  have hfirst := wp_result (decreaseSize_first (Nat.le_of_lt hlt) hm) hrun
  have hkept : indexing.word (d ino.indirect1) 0 ∈ ({ ino with size := newSize } : DiskInode).owned d :=
    DiskInode.first_leaf_mem_owned
      (show directCount < DiskInode.leafCount { ino with size := newSize } from hm)
  exact ((hsheds.mem _).mp hfirst).2 hkept

theorem DiskInode.droppedBlocks_subset (hle : newSize ≤ ino.size)
    (hm : countDataBlock newSize ≤ directCount) {b : ℕ} (hb : b ∈ ino.droppedBlocks newSize) :
    b ∈ ino.directs ino.leafCount := by
  have hmono : countDataBlock newSize ≤ ino.leafCount :=
    Nat.div_le_div_right (Nat.add_le_add_right hle _)
  rw [directs_eq_append hmono hm]
  exact List.mem_append_right _ hb

theorem not_sheds_of_tree (hok : ino.WellFormed d) (hlt : newSize < ino.size)
    (hold : directCount < ino.leafCount) (hm : DiskInode.countDataBlock newSize ≤ directCount) :
    ¬ dwp (ino.decreaseSize newSize) held d (Sheds d held ino newSize) fun _ => False := by
  intro h
  rw [DiskInode.decreaseSize_eq hm] at h
  have hsheds := wp_pure'.mp h
  have hroot := DiskInode.indirect1_mem_forest (d := d) hold
  have hdisjoint : ino.indirect1 ∉ ino.directs ino.leafCount := fun hdirect =>
    (List.nodup_append.mp hok.nodup).2.2 _ hdirect _ hroot rfl
  have hmono : DiskInode.countDataBlock newSize ≤ ino.leafCount :=
    Nat.div_le_div_right (Nat.add_le_add_right (Nat.le_of_lt hlt) _)
  have hnew : ino.indirect1 ∉ ({ ino with size := newSize } : DiskInode).owned d := by
    rw [DiskInode.owned_of_direct
      (show DiskInode.leafCount { ino with size := newSize } ≤ directCount from hm)]
    intro hkept
    apply hdisjoint
    rw [DiskInode.directs_eq_append hmono hm]
    exact List.mem_append_left _ hkept
  have hdropped := (hsheds.mem _).mpr ⟨List.mem_append_right _ hroot, hnew⟩
  exact hdisjoint (DiskInode.droppedBlocks_subset (Nat.le_of_lt hlt) hm hdropped)

theorem DiskInode.countTotalBlock_direct {size : ℕ} (h : countDataBlock size ≤ directCount) :
    countTotalBlock size = countDataBlock size := by
  have h27 : countDataBlock size ≤ 27 := h
  rw [countTotalBlock_def size _ rfl, if_neg (by omega), if_neg (by omega), if_neg (by omega)]

theorem sheds_of_direct (hok : ino.WellFormed d) (hlt : newSize < ino.size)
    (hold : ino.leafCount ≤ directCount) :
    dwp (ino.decreaseSize newSize) held d (Sheds d held ino newSize) fun _ => False := by
  have hmono : DiskInode.countDataBlock newSize ≤ ino.leafCount :=
    Nat.div_le_div_right (Nat.add_le_add_right (Nat.le_of_lt hlt) _)
  have hm : DiskInode.countDataBlock newSize ≤ directCount := le_trans hmono hold
  have hnd := hok.nodup
  have hnew : ({ ino with size := newSize } : DiskInode).owned d =
      ino.directs (DiskInode.countDataBlock newSize) :=
    DiskInode.owned_of_direct
      (show DiskInode.leafCount { ino with size := newSize } ≤ directCount from hm)
  have hsplit : ino.owned d =
      ino.directs (DiskInode.countDataBlock newSize) ++ ino.droppedBlocks newSize := by
    rw [DiskInode.owned_of_direct hold, DiskInode.directs_eq_append hmono hm]
  rw [hsplit] at hnd
  obtain ⟨_, hdropped, hdisjoint⟩ := List.nodup_append.mp hnd
  rw [DiskInode.decreaseSize_eq hm]
  refine wp_pure'.mpr ⟨hdropped, ?_, ?_, ?_⟩
  · intro b
    rw [hsplit, hnew, List.mem_append]
    constructor
    · intro hb
      exact ⟨Or.inr hb, fun hkept => hdisjoint b hkept b hb rfl⟩
    · rintro ⟨hb, hkept⟩
      exact hb.resolve_left hkept
  · show (ino.droppedBlocks newSize).length = _
    rw [DiskInode.countTotalBlock_direct hold, DiskInode.countTotalBlock_direct hm,
      DiskInode.droppedBlocks, List.length_map, List.length_range', Nat.min_eq_left hold]
    rfl
  · intro i hi
    have hdirect : i < directBound := lt_of_lt_of_le hi hm
    show drun ((ino.shrunk newSize).blockId i) held d = _
    rw [DiskInode.blockId, DiskInode.blockId, if_pos hdirect, if_pos hdirect,
      DiskInode.directAt_shrunk hi]

/-- **Shrinking.**  `decrease_size` hands back the right blocks exactly when the inode has no index tree,
that is, at most 27 blocks. -/
theorem decreaseSize_sheds_iff (hok : ino.WellFormed d) (hlt : newSize < ino.size) :
    dwp (ino.decreaseSize newSize) held d (Sheds d held ino newSize) (fun _ => False) ↔
      ino.size ≤ 27 * 512 := by
  have hcount : ino.leafCount ≤ directCount ↔ ino.size ≤ 27 * 512 := by
    rw [DiskInode.leafCount, DiskInode.countDataBlock, directCount, blockSize]
    omega
  rw [← hcount]
  constructor
  · intro h
    by_contra hlarge
    by_cases hm : directCount < DiskInode.countDataBlock newSize
    · exact not_sheds_of_kept hlt hm h
    · exact not_sheds_of_tree hok hlt (Nat.not_le.mp hlarge) (Nat.not_lt.mp hm) h
  · intro hsmall
    exact sheds_of_direct hok hlt hsmall

/-- An inode of the given size whose direct words are 1 to 27 and whose first index block is 28. -/
def inodeOfSize (size : ℕ) : DiskInode := ⟨.file, size, fun i => i.val + 1, 28, 0, 0⟩

/-- A file of two blocks loses the second one. -/
theorem decreaseSize_sheds_two_blocks : (inodeOfSize 1024).WellFormed (fun _ => Block.zero) ∧
    dwp ((inodeOfSize 1024).decreaseSize 512) [] (fun _ => Block.zero)
      (Sheds (fun _ => Block.zero) [] (inodeOfSize 1024) 512) fun _ => False := by
  have howned : (inodeOfSize 1024).owned (fun _ => Block.zero) = [1, 2] := by
    rw [DiskInode.owned_of_direct (by decide)]
    rfl
  have hok : (inodeOfSize 1024).WellFormed fun _ => Block.zero := by
    constructor
    · rw [howned, DiskInode.countTotalBlock_direct (by decide)]
      rfl
    · rw [howned]
      decide
  exact ⟨hok, (decreaseSize_sheds_iff hok (by decide)).mpr (by decide)⟩

/-- The disk on which index block 28 has its first pointer at block 29. -/
def oneLeafDisk : Disk := Function.update (fun _ => Block.zero) 28 (Block.zero.setU32 0 29)

/-- A file of 28 blocks gets 32 bytes shorter and still has 28 blocks.  Block 29, which holds its last
bytes, is handed back all the same. -/
theorem decreaseSize_drops_kept : (inodeOfSize 14336).WellFormed oneLeafDisk ∧
    (inodeOfSize 14336).leaf oneLeafDisk 27 = 29 ∧
    29 ∈ (inodeOfSize 14304).owned oneLeafDisk ∧
    dwp ((inodeOfSize 14336).decreaseSize 14304) [] oneLeafDisk (fun o _ => o.2 = [29]) fun _ => False := by
  have hword : indexing.word (oneLeafDisk 28) 0 = 29 := by
    rw [oneLeafDisk, Function.update_self]
    exact word_setU32_same Block.zero (by decide) (by decide)
  have hleaves : indexing.leaves oneLeafDisk 1 28 1 = [29] := by
    rw [← hword]
    rfl
  have howned : ∀ size, DiskInode.countDataBlock size = 28 →
      (inodeOfSize size).owned oneLeafDisk = (List.range 27).map (· + 1) ++ [28, 29] := by
    intro size hsize
    have hcount : (inodeOfSize size).leafCount = 28 := hsize
    rw [owned_one _ (by rw [hcount]; decide) (by rw [hcount]; decide), hcount]
    show _ ++ 28 :: indexing.leaves oneLeafDisk 1 28 1 = _
    rw [hleaves]
    rfl
  have hnodup : ∀ size, DiskInode.countDataBlock size = 28 →
      ((inodeOfSize size).owned oneLeafDisk).Nodup := by
    intro size hsize
    rw [howned size hsize]
    decide
  refine ⟨⟨?_, hnodup 14336 rfl⟩, ?_, ?_, ?_⟩
  · rw [howned 14336 rfl, countTotalBlock_def _ 28 rfl]
    rfl
  · rw [← hword]
    rfl
  · rw [howned 14304 rfl]
    decide
  · have hok : InodeOk oneLeafDisk [] (inodeOfSize 14304) :=
      ⟨by decide +kernel, hnodup 14304 rfl, fun b _ => List.not_mem_nil⟩
    refine wp_mono (decreaseSize_wipes
      (show InodeOk oneLeafDisk [] { inodeOfSize 14336 with size := 14304 } from hok)
      (by decide) (by decide) (by decide) (by decide)) ?_ fun _ h => h
    rintro o _ ⟨_, _, hperm⟩
    have hone : o.2.Perm [29] := by
      rw [← hleaves]
      exact hperm
    exact List.perm_singleton.mp hone

end LemonCore.EasyFs
