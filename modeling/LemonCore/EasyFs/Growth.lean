import LemonCore.EasyFs.Slots
import LemonCore.Foundation.BorrowTraces

/-!
# Where the blocks of an inode go

`increase_size` is handed the blocks that `blocks_num_needed` has asked for, and `clear_size` hands blocks
back.  Both walk the same partially filled index trees, and `count_total_block` counts the blocks of these
trees by divisions.

* `increase_size_takes_all`: all blocks handed in are used, as leaves or as index blocks, and the leaves
  that were there stay where they are;
* `Built`: an inode that has grown from the empty one, with the blocks it was given on the way;
* `clear_size_returns_all`: clearing hands back exactly these blocks.  The inode that is left can grow again,
  and looks at no index block but those it is given then.
-/

namespace LemonCore.EasyFs

open Foundation.BorrowProgram Foundation.PointerTree

variable {d d' : Disk} {held : List ℕ} {ino ino' : DiskInode} {newSize : ℕ} {v : List ℕ}

/-! ### Counting -/

theorem blocksNumNeeded_ok {n : ℕ} (h : drun (ino.blocksNumNeeded newSize) held d = .ok (n, d)) :
    ino.size ≤ newSize ∧ n = ino.growth newSize := by
  by_cases hle : ino.size ≤ newSize
  · have hwp : dwp (ino.blocksNumNeeded newSize) held d (fun n _ => n = ino.growth newSize) fun _ => True :=
      wp_bind'.mpr (wp_assert hle (wp_pure'.mpr rfl))
    exact ⟨hle, wp_result hwp h⟩
  · have hwp : dwp (ino.blocksNumNeeded newSize) held d (fun _ _ => False) fun _ => True := by
      refine wp_bind'.mpr ?_
      rw [Prog.assert, if_neg hle]
      exact wp_panic.mpr trivial
    exact (wp_result hwp h).elim

/-- What `blocks_num_needed` asks for in all when an inode of the size `size` grows to one size after the
other. -/
def blocksNeeded (size : ℕ) : List ℕ → ℕ
  | [] => 0
  | newSize :: sizes =>
    (DiskInode.countTotalBlock newSize - DiskInode.countTotalBlock size) + blocksNeeded newSize sizes

/-- **Steps add up**: on the way to a size, the stops in between make no difference. -/
theorem blocksNeeded_append {last : ℕ} (hlast : last ≤ maxFileSize) : ∀ {sizes : List ℕ} {size : ℕ},
    (size :: (sizes ++ [last])).Pairwise (· ≤ ·) → blocksNeeded size (sizes ++ [last]) =
      DiskInode.countTotalBlock last - DiskInode.countTotalBlock size := by
  intro sizes
  induction sizes with
  | nil => exact fun _ => rfl
  | cons next sizes ih =>
    intro size h
    obtain ⟨hfirst, hrest⟩ := List.pairwise_cons.mp h
    have hnext : next ≤ last := (List.pairwise_cons.mp hrest).1 last (by simp)
    have h1 := countTotalBlock_mono (hfirst next List.mem_cons_self) (le_trans hnext hlast)
    have h2 := countTotalBlock_mono hnext hlast
    rw [List.cons_append, blocksNeeded, ih hrest]
    omega

/-! ### Growing -/

theorem InodeOk.of_size_zero (h : ino.size = 0) : InodeOk d held ino := by
  refine ⟨?_, ?_, ?_⟩
  · rw [DiskInode.leafCount, h]
    exact countDataBlock_le (Nat.zero_le _)
  · rw [owned_of_size_zero h]
    exact List.nodup_nil
  · rw [owned_of_size_zero h]
    exact fun b hb => absurd hb List.not_mem_nil

/-- Blocks that an inode can be given: distinct, none of them its own and none held. -/
structure Fresh (d : Disk) (held : List ℕ) (ino : DiskInode) (v : List ℕ) : Prop where
  nodup : v.Nodup
  other : ∀ b ∈ v, b ∉ ino.owned d
  free : ∀ b ∈ v, b ∉ held
  fits : ∀ b ∈ v, b < 2 ^ 32

theorem Fresh.increasePre (h : Fresh d held ino v) (hok : InodeOk d held ino) (hle : ino.size ≤ newSize)
    (htop : newSize ≤ maxFileSize) (hlen : v.length = ino.growth newSize) :
    IncreasePre d held ino newSize v := by
  refine ⟨?_, ?_, h.fits, length_of_growth hle htop hlen⟩
  · refine List.nodup_append.mpr ⟨hok.nodup, h.nodup, ?_⟩
    intro a ha b hb heq
    exact h.other b hb (heq ▸ ha)
  · intro b hb
    rcases List.mem_append.mp hb with hb | hb
    · exact hok.free b hb
    · exact h.free b hb

theorem Grown.inodeOk (hg : Grown d d' ino ino' newSize v) (hpre : IncreasePre d held ino newSize v)
    (htop : newSize ≤ maxFileSize) : InodeOk d' held ino' := by
  refine ⟨?_, hg.perm.nodup_iff.mpr hpre.nodup, fun b hb => hpre.free b (hg.perm.mem_iff.mp hb)⟩
  rw [DiskInode.leafCount, hg.size]
  exact countDataBlock_le htop

theorem InodeOk.run_blockId {i : ℕ} (hok : InodeOk d held ino) (hlen : held.length < blockCacheSize)
    (hi : i < ino.leafCount) : drun (ino.blockId i) held d = .ok (ino.leaf d i, d) := by
  obtain ⟨b, d', hrun, rfl, rfl⟩ := wp_returns
    (LemonCore.EasyFs.blockId_spec hi (lt_of_lt_of_le hi hok.top) hok.index_free hlen)
  exact hrun

/-- Where the new blocks are after growing: among the new leaves and the new index blocks. -/
theorem Grown.new_blocks (hg : Grown d d' ino ino' newSize v) (hok : InodeOk d held ino)
    (hok' : InodeOk d' held ino') (hle : ino.leafCount ≤ ino'.leafCount) :
    ((List.range' ino.leafCount (ino'.leafCount - ino.leafCount)).map (ino'.leaf d') ++
      (ino'.index d').diff (ino.index d)).Perm v := by
  have hindex : (ino.index d).Nodup :=
    (List.nodup_append.mp ((owned_perm hok.top).nodup_iff.mp hok.nodup)).1
  have hsplit : (ino.index d ++ (ino'.index d').diff (ino.index d)).Perm (ino'.index d') :=
    List.subperm_append_diff_self_of_count_le fun b hb => by
      rw [List.count_eq_one_of_mem hindex hb]
      exact List.count_pos_iff.mpr (hg.index b hb)
  have hleaves : (List.range ino'.leafCount).map (ino'.leaf d') =
      (List.range ino.leafCount).map (ino.leaf d) ++
        (List.range' ino.leafCount (ino'.leafCount - ino.leafCount)).map (ino'.leaf d') := by
    have hrange : List.range ino'.leafCount =
        List.range ino.leafCount ++ List.range' ino.leafCount (ino'.leafCount - ino.leafCount) := by
      rw [List.range_eq_range', List.range_eq_range',
        show List.range' ino.leafCount _ = List.range' (0 + ino.leafCount) _ by rw [Nat.zero_add],
        List.range'_append_1, Nat.add_sub_cancel' hle]
    rw [hrange, List.map_append]
    congr 1
    refine List.map_congr_left fun i hi => ?_
    have hlt := List.mem_range.mp hi
    exact hg.leaf i hlt (lt_of_lt_of_le hlt hok.top)
  -- the old index blocks and the old leaves are on both sides
  have hall := (owned_perm hok'.top).symm.trans (hg.perm.trans ((owned_perm hok.top).append_right v))
  rw [hleaves] at hall
  generalize (List.range' ino.leafCount (ino'.leafCount - ino.leafCount)).map (ino'.leaf d') = new at hall ⊢
  generalize (ino'.index d').diff (ino.index d) = added at hsplit ⊢
  generalize (List.range ino.leafCount).map (ino.leaf d) = old at hall
  have h1 := (hsplit.append_right (old ++ new)).trans hall
  have h2 := (perm_append_middle (ino.index d) added old new).symm.trans h1
  exact List.perm_append_comm.trans ((List.perm_append_left_iff _).mp h2)

/-- **`increase_size` takes exactly the blocks that it is given.**  It returns; the leaves that were there
stay where they are, all leaves are distinct, and the new leaves with the new index blocks are the given
ones.  It makes no difference for their number whether an inode grows in several steps or at once. -/
theorem increase_size_takes_all (hok : InodeOk d held ino) (hfits : ino.Fits)
    (hcache : held.length + 3 ≤ blockCacheSize) (htop : newSize ≤ maxFileSize)
    (hfresh : Fresh d held ino v) (hneed : drun (ino.blocksNumNeeded newSize) held d = .ok (v.length, d)) :
    ∃ ino' d' leaf, drun (ino.increaseSize newSize v) held d = .ok (ino', d') ∧ ino'.size = newSize ∧
      (∀ i, i < DiskInode.countDataBlock ino.size → drun (ino.blockId i) held d = .ok (leaf i, d)) ∧
      (∀ i, i < DiskInode.countDataBlock newSize → drun (ino'.blockId i) held d' = .ok (leaf i, d')) ∧
      Set.InjOn leaf (Set.Iio (DiskInode.countDataBlock newSize)) ∧
      ((List.range' (DiskInode.countDataBlock ino.size)
          (DiskInode.countDataBlock newSize - DiskInode.countDataBlock ino.size)).map leaf ++
        (ino'.index d').diff (ino.index d)).Perm v ∧
      ∀ sizes, (ino.size :: (sizes ++ [newSize])).Pairwise (· ≤ ·) →
        blocksNeeded ino.size (sizes ++ [newSize]) = v.length := by
  obtain ⟨hle, hlen⟩ := blocksNumNeeded_ok hneed
  have hpre := hfresh.increasePre hok hle htop hlen
  obtain ⟨ino', d', hrun, hg⟩ := wp_returns
    (increaseSize_spec hle hfits (lt_of_le_of_lt htop maxFileSize_lt) hcache hpre)
  have hok' := hg.inodeOk hpre htop
  have hroom : held.length < blockCacheSize := by omega
  have hcount : ino'.leafCount = DiskInode.countDataBlock newSize := by rw [DiskInode.leafCount, hg.size]
  have hmono : ino.leafCount ≤ ino'.leafCount := by
    rw [hcount]
    exact Nat.div_le_div_right (Nat.add_le_add_right hle _)
  refine ⟨ino', d', ino'.leaf d', hrun, hg.size, ?_, ?_, ?_, ?_, ?_⟩
  · intro i hi
    rw [hg.leaf i hi (lt_of_lt_of_le hi hok.top)]
    exact hok.run_blockId hroom hi
  · intro i hi
    exact hok'.run_blockId hroom (hcount ▸ hi)
  · intro i hi j hj heq
    exact leaf_inj hok'.top hok'.nodup (hcount ▸ hi) (hcount ▸ hj) heq
  · rw [← hcount]
    exact hg.new_blocks hok hok' hmono
  · intro sizes hsorted
    rw [blocksNeeded_append htop hsorted, hlen, DiskInode.growth]

/-- A new file. -/
def newFile : DiskInode := ⟨.file, 0, fun _ => 0, 0, 0, 0⟩

theorem newFile_fits : newFile.Fits := by
  have hpos : (0 : ℕ) < 2 ^ 32 := by norm_num
  exact ⟨hpos, fun _ => hpos, hpos, hpos, hpos⟩

-- the 28th data block is the first one that an index block names
theorem newFile_growth : newFile.growth 13825 = 29 := by
  rw [DiskInode.growth, countTotalBlock_def 13825 28 rfl]
  exact congrArg (29 - ·) (countTotalBlock_def 0 0 rfl)

theorem newFile_needs (d : Disk) : drun (newFile.blocksNumNeeded 13825) [] d = .ok (29, d) := by
  have hwp : dwp (newFile.blocksNumNeeded 13825) [] d (fun n d' => n = 29 ∧ d' = d) fun _ => False :=
    wp_bind'.mpr (wp_assert (Nat.zero_le _) (wp_pure'.mpr ⟨newFile_growth, rfl⟩))
  obtain ⟨_, _, hrun, rfl, rfl⟩ := wp_returns hwp
  exact hrun

theorem given_lt : ∀ b ∈ List.range' 7 29, b < 2 ^ 32 := by decide

/-- A new file grows by 28 data blocks and the index block that it needs for the last one. -/
theorem increase_size_takes_index : ∃ (ino' : DiskInode) (d' : Disk) (leaf : ℕ → ℕ),
    drun (newFile.increaseSize 13825 (List.range' 7 29)) [] (fun _ => .zero) = .ok (ino', d') ∧
      ino'.size = 13825 ∧ (∀ i, i < 28 → drun (ino'.blockId i) [] d' = .ok (leaf i, d')) ∧
      ((List.range' 0 28).map leaf ++ (ino'.index d').diff (newFile.index fun _ => .zero)).Perm
        (List.range' 7 29) := by
  have hfresh : Fresh (fun _ => .zero) [] newFile (List.range' 7 29) := by
    refine ⟨List.nodup_range', ?_, fun _ _ => List.not_mem_nil, given_lt⟩
    rw [owned_of_size_zero rfl]
    exact fun _ _ => List.not_mem_nil
  obtain ⟨ino', d', leaf, hrun, hsize, -, hleaf, -, hperm, -⟩ := increase_size_takes_all
    (InodeOk.of_size_zero rfl) newFile_fits (by decide) (by rw [maxFileSize, indirect3Bound]; decide) hfresh
    (newFile_needs _)
  exact ⟨ino', d', leaf, hrun, hsize, hleaf, hperm⟩

/-! ### Clearing -/

/-- An inode that has grown from an empty one by calls of `increase_size`, and the blocks that it was given.
Between the calls others may write to the disk, but not to its index blocks. -/
inductive Built (held : List ℕ) : Disk → DiskInode → List ℕ → Prop where
  | empty {d : Disk} {ino : DiskInode} (hsize : ino.size = 0) (hfits : ino.Fits) : Built held d ino []
  | grow {d d' : Disk} {ino ino' : DiskInode} {given v : List ℕ} {newSize : ℕ}
      (h : Built held d ino given) (htop : newSize ≤ maxFileSize)
      (hneed : drun (ino.blocksNumNeeded newSize) held d = .ok (v.length, d))
      (hfresh : (given ++ v).Nodup) (hfree : ∀ b ∈ v, b ∉ held ∧ b < 2 ^ 32)
      (hrun : drun (ino.increaseSize newSize v) held d = .ok (ino', d')) : Built held d' ino' (given ++ v)
  | others {d d' : Disk} {ino : DiskInode} {given : List ℕ} (h : Built held d ino given)
      (hkept : ∀ b ∈ ino.index d, d' b = d b) : Built held d' ino given

/-- **The blocks of an inode are those that it was given.** -/
theorem Built.spec {given : List ℕ} (h : Built held d ino given) (hcache : held.length + 3 ≤ blockCacheSize) :
    InodeOk d held ino ∧ ino.Fits ∧ (ino.owned d).Perm given := by
  induction h with
  | empty hsize hfits =>
    refine ⟨.of_size_zero hsize, hfits, ?_⟩
    rw [owned_of_size_zero hsize]
  | grow _ htop hneed hnodup hfree hrun ih =>
    obtain ⟨hok, hfits, hperm⟩ := ih
    obtain ⟨hle, hlen⟩ := blocksNumNeeded_ok hneed
    have hparts := List.nodup_append.mp hnodup
    have hfresh : Fresh _ held _ _ := ⟨hparts.2.1,
      fun b hb hown => hparts.2.2 b (hperm.mem_iff.mp hown) b hb rfl, fun b hb => (hfree b hb).1,
      fun b hb => (hfree b hb).2⟩
    have hpre := hfresh.increasePre hok hle htop hlen
    have hg := wp_result
      (increaseSize_spec hle hfits (lt_of_le_of_lt htop maxFileSize_lt) hcache hpre) hrun
    exact ⟨hg.inodeOk hpre htop, hg.fits, hg.perm.trans (hperm.append_right _)⟩
  | others _ hkept ih =>
    obtain ⟨hok, hfits, hperm⟩ := ih
    obtain ⟨howned, -, -⟩ := inode_congr hkept
    exact ⟨⟨hok.top, howned ▸ hok.nodup, howned ▸ hok.free⟩, hfits, howned ▸ hperm⟩

/-- **An empty inode looks at no block but those it is given** when it grows. -/
theorem increaseSize_asks (hsize : ino.size = 0) (hfits : ino.Fits)
    (hcache : held.length + 4 ≤ blockCacheSize) (htop : newSize ≤ maxFileSize)
    (hlen : v.length = ino.growth newSize) (hnodup : v.Nodup) (hfree : ∀ b ∈ v, b ∉ held ∧ b < 2 ^ 32) :
    ∃ ino' d', drun (ino.increaseSize newSize v) held d = .ok (ino', d') ∧
      ∀ b ∈ asked blockCacheSize (ino.increaseSize newSize v) held d, b ∈ v := by
  have hle : ino.size ≤ newSize := hsize ▸ Nat.zero_le _
  -- it also returns while somebody holds a block that is not given
  have hwp : ∀ held' : List ℕ, held'.length + 3 ≤ blockCacheSize → (∀ b ∈ v, b ∉ held') →
      dwp (ino.increaseSize newSize v) held' d (fun ino' d' => Grown d d' ino ino' newSize v)
        fun _ => False := by
    intro held' hcache' hfree'
    have hfresh : Fresh d held' ino v := by
      refine ⟨hnodup, ?_, hfree', fun b hb => (hfree b hb).2⟩
      rw [owned_of_size_zero hsize]
      exact fun b _ => List.not_mem_nil
    exact increaseSize_spec hle hfits (lt_of_le_of_lt htop maxFileSize_lt) hcache'
      (hfresh.increasePre (.of_size_zero hsize) hle htop hlen)
  obtain ⟨ino', d', hrun, -⟩ := wp_returns (hwp held (by omega) fun b hb => (hfree b hb).1)
  refine ⟨ino', d', hrun, ?_⟩
  intro b
  contrapose
  intro hnot
  refine not_asked_of_wp (wp_weaken (hwp (b :: held) (by rw [List.length_cons]; omega) ?_) fun _ _ h => h)
  intro c hc hin
  rcases List.mem_cons.mp hin with heq | hin
  · exact hnot (heq ▸ hc)
  · exact (hfree c hc).1 hin

/-- **`clear_size` hands back exactly the blocks given.**  Each comes once, so that there are
`count_total_block` of them; the inode is empty then, and when it grows again it follows no pointer that was
there before. -/
theorem clear_size_returns_all {given : List ℕ} (h : Built held d ino given)
    (hcache : held.length + 4 ≤ blockCacheSize) :
    ∃ ino' dropped, drun ino.clearSize held d = .ok ((ino', dropped), d) ∧ dropped.Nodup ∧
      dropped.Perm given ∧ dropped.length = DiskInode.countTotalBlock ino.size ∧ ino'.size = 0 ∧
      ∀ (d₁ : Disk) (newSize : ℕ) (v : List ℕ), newSize ≤ maxFileSize →
        drun (ino'.blocksNumNeeded newSize) held d₁ = .ok (v.length, d₁) → v.Nodup →
        (∀ b ∈ v, b ∉ held ∧ b < 2 ^ 32) →
        ∃ ino'' d'', drun (ino'.increaseSize newSize v) held d₁ = .ok (ino'', d'') ∧
          ∀ b ∈ asked blockCacheSize (ino'.increaseSize newSize v) held d₁, b ∈ v := by
  obtain ⟨hok, hfits, hperm⟩ := h.spec (by omega)
  obtain ⟨⟨ino', dropped⟩, d', hrun, rfl, -, hsize, hfits', hdropped⟩ :=
    wp_returns (clearSize_spec hfits (by omega) hok.nodup hok.free)
  have hb : indirect3Bound = 2113691 := by rw [indirect3Bound]
  refine ⟨ino', dropped, hrun, hdropped.nodup_iff.mpr hok.nodup, hdropped.trans hperm, ?_, hsize, ?_⟩
  · rw [hdropped.length_eq, length_owned, countTotalBlock_eq (le_of_le_of_eq hok.top hb)]
    rfl
  · intro d₁ newSize v htop hneed hnodup hfree
    exact increaseSize_asks hsize hfits' hcache htop (blocksNumNeeded_ok hneed).2 hnodup hfree

/-- All 29 blocks of that file come back, the index block among them. -/
theorem clear_size_returns_index : ∃ ino d ino' dropped,
    drun (newFile.increaseSize 13825 (List.range' 7 29)) [] (fun _ => .zero) = .ok (ino, d) ∧
      drun ino.clearSize [] d = .ok ((ino', dropped), d) ∧ dropped.Perm (List.range' 7 29) ∧
      ino'.size = 0 := by
  have htop : 13825 ≤ maxFileSize := by
    rw [maxFileSize, indirect3Bound]
    decide
  have hfree : ∀ b ∈ List.range' 7 29, b ∉ ([] : List ℕ) ∧ b < 2 ^ 32 :=
    fun b hb => ⟨List.not_mem_nil, given_lt b hb⟩
  have hstart : Built [] (fun _ => .zero) newFile [] := .empty rfl newFile_fits
  obtain ⟨ino, d, hrun, -⟩ :
      ∃ ino d, drun (newFile.increaseSize 13825 (List.range' 7 29)) [] (fun _ => .zero) = .ok (ino, d) ∧ _ :=
    increaseSize_asks rfl newFile_fits (by decide) htop newFile_growth.symm List.nodup_range' hfree
  obtain ⟨ino', dropped, hclear, -, hperm, -, hsize, -⟩ := clear_size_returns_all
    (hstart.grow htop (newFile_needs _) List.nodup_range' hfree hrun) (by decide)
  exact ⟨ino, d, ino', dropped, hrun, hclear, hperm, hsize⟩

end LemonCore.EasyFs
