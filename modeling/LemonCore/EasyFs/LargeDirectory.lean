import LemonCore.EasyFs.Unlinking

/-!
# Deleting from a large directory

A directory with more than 432 entries has blocks behind its first index block.  When it still has
such blocks after a deletion, `decrease_size` hands back the blocks that are kept: the entries in them
are lost.

* `wipe_spec`: what `decrease_size` does to an inode with one index tree;
* `delete_wipes`: the entries of the directory after `delete`;
* `Filled`: a directory of 434 files made by `create`, from which deleting the first one loses another.
-/

namespace LemonCore.EasyFs

open Foundation.BorrowProgram Foundation.Overwrite Foundation.PointerTree

variable {G : Geometry} {tab : Table} {d d' d₁ : Disk} {id i k dir newSize : ℕ} {held : List ℕ}
variable {i n : ℕ}
  {ino : DiskInode} {name : String}

/-! ### Shrinking with an index tree -/

/-- A tree of one level is its root and its leaves. -/
theorem blocks_one (d : Disk) (r : ℕ) {n : ℕ} (hn : 0 < n) :
    indexing.blocks d 1 r n = r :: indexing.leaves d 1 r n := by
  have hinner : indexing.inner d 1 r n = [r] := by
    rw [Indexing.inner, if_neg (by omega)]
    simp [Indexing.inner]
  rw [Indexing.blocks, hinner]
  rfl

theorem owned_one (d : Disk) (hlo : directCount < ino.leafCount)
    (hhi : ino.leafCount ≤ indirect1Bound) : ino.owned d = ino.directs ino.leafCount ++
      ino.indirect1 :: indexing.leaves d 1 ino.indirect1 (ino.leafCount - directCount) := by
  obtain ⟨h0, h1, h2, -, -, hb0, hb1, -, -⟩ := bounds_eq
  have hmin : min (ino.leafCount - directCount) indirect1Count = ino.leafCount - directCount :=
    Nat.min_eq_left (by omega)
  rw [owned_eq, forest_empty d 2 _ (by omega), forest_empty d 3 _ (by omega), List.append_nil,
    List.append_nil, hmin, show indexing.forest d [⟨1, ino.indirect1, ino.leafCount - directCount⟩] =
      indexing.blocks d 1 ino.indirect1 (ino.leafCount - directCount) from List.append_nil _,
    blocks_one d _ (by omega)]

/-- The blocks of an inode that has fewer leaves behind its first index block, but still some. -/
theorem owned_resize (hhi : ino.leafCount ≤ indirect1Bound)
    (hlo : directCount < DiskInode.countDataBlock newSize)
    (hle : DiskInode.countDataBlock newSize ≤ ino.leafCount) :
    (DiskInode.owned d { ino with size := newSize }).Sublist (ino.owned d) := by
  have hold : min ino.leafCount directCount = directCount :=
    Nat.min_eq_right (Nat.le_of_lt (lt_of_lt_of_le hlo hle))
  have hnew : min (DiskInode.countDataBlock newSize) directCount = directCount :=
    Nat.min_eq_right (Nat.le_of_lt hlo)
  have hdirects : DiskInode.directs { ino with size := newSize } (DiskInode.countDataBlock newSize) =
      ino.directs ino.leafCount := by
    rw [DiskInode.directs, DiskInode.directs, hold, hnew]
    rfl
  rw [owned_one d (lt_of_lt_of_le hlo hle) hhi,
    owned_one d (show directCount < DiskInode.leafCount { ino with size := newSize } from hlo)
      (le_trans hle hhi)]
  show (DiskInode.directs _ (DiskInode.countDataBlock newSize) ++ _).Sublist _
  rw [hdirects]
  refine List.Sublist.append_left (List.Sublist.cons_cons _ ?_) _
  exact (List.range_sublist.mpr (Nat.sub_le_sub_right hle _)).map _

theorem InodeOk.resize (hok : InodeOk d held ino) (hhi : ino.leafCount ≤ indirect1Bound)
    (hlo : directCount < DiskInode.countDataBlock newSize)
    (hle : DiskInode.countDataBlock newSize ≤ ino.leafCount) :
    InodeOk d held { ino with size := newSize } := by
  have hsub := owned_resize (d := d) hhi hlo hle
  exact ⟨le_trans hle hok.top, hok.nodup.sublist hsub, fun b hb => hok.free b (hsub.subset hb)⟩

/-- The leaves that are kept behind the first index block, all of them, are collected. -/
theorem decreaseSize_wipes (hok : InodeOk d held { ino with size := newSize })
    (hcache : held.length + 1 ≤ blockCacheSize)
    (hlo : directCount < DiskInode.countDataBlock newSize)
    (hhi : DiskInode.countDataBlock newSize ≤ indirect1Bound)
    (hle : DiskInode.countDataBlock newSize ≤ ino.leafCount) :
    dwp (ino.decreaseSize newSize) held d
      (fun o d' => d' = d ∧ o.1 = { ino with size := newSize } ∧
        o.2.Perm (indexing.leaves d 1 ino.indirect1 (DiskInode.countDataBlock newSize - directCount)))
      fun _ => False := by
  obtain ⟨h0, h1, h2, -, -, hb0, hb1, -, -⟩ := bounds_eq
  have hdrop : DiskInode.dropDirect { ino with size := newSize } (DiskInode.countDataBlock newSize)
      (min (DiskInode.countDataBlock ino.size) directCount) = ({ ino with size := newSize }, []) := by
    have hmin : min ino.leafCount directCount = directCount :=
      Nat.min_eq_right (Nat.le_of_lt (lt_of_lt_of_le hlo hle))
    rw [show DiskInode.countDataBlock ino.size = ino.leafCount from rfl, hmin,
      DiskInode.dropDirect, Nat.sub_eq_zero_of_le hlo.le]
    refine Prod.ext ?_ rfl
    refine DiskInode.ext rfl rfl ?_ rfl rfl rfl
    funext j
    exact if_neg fun h => absurd (lt_of_lt_of_le hlo h.1) (by have := j.isLt; omega)
  have hmax : max (DiskInode.countDataBlock newSize) (min ino.leafCount directCount) =
      DiskInode.countDataBlock newSize := by omega
  have howned := owned_one d
    (show directCount < DiskInode.leafCount { ino with size := newSize } from hlo) hhi
  have hblocks := blocks_one d ino.indirect1 (n := DiskInode.countDataBlock newSize - directCount)
    (by omega)
  have hnd := hok.nodup
  have hfree := hok.free
  rw [howned] at hnd hfree
  have hcollect := collectTree_spec 1 d held ino.indirect1 0 (DiskInode.countDataBlock newSize - directCount)
    (DiskInode.countDataBlock newSize - directCount) [] (by rw [pow_one_eq]; omega) (by omega) hcache
    (by rw [hblocks]; exact (List.nodup_append.mp hnd).2.1)
    (by rw [hblocks]; exact fun b hb => hfree b (List.mem_append_right _ hb))
  rw [DiskInode.decreaseSize]
  simp only [hdrop]
  rw [show DiskInode.countDataBlock ino.size = ino.leafCount from rfl, hmax,
    if_neg (by omega), if_neg (by omega)]
  refine wp_bind'.mpr (wp_mono hcollect ?_ fun _ h => h)
  rintro o d' ⟨hd, _, u, hu, hperm⟩
  rw [hblocks] at hperm
  show dwp (if DiskInode.countDataBlock newSize - directCount ≤ indirect1Count then _ else _) held d' _ _
  rw [if_pos (by omega)]
  refine wp_pure'.mpr ⟨hd, rfl, ?_⟩
  show o.2.Perm _
  rw [hu, List.nil_append]
  exact (List.perm_cons _).mp hperm

theorem mem_leaves_one (hlo : directCount < ino.leafCount) (hhi : ino.leafCount ≤ indirect1Bound)
    {b : ℕ} : b ∈ indexing.leaves d 1 ino.indirect1 (ino.leafCount - directCount) ↔
      ∃ i, directCount ≤ i ∧ i < ino.leafCount ∧ ino.leaf d i = b := by
  obtain ⟨h0, -, -, -, -, hb0, hb1, -, -⟩ := bounds_eq
  have hleaf : ∀ i, directCount ≤ i → i < ino.leafCount →
      ino.leaf d i = indexing.leafAt d 1 ino.indirect1 (i - directCount) := by
    intro i h1 h2
    rw [DiskInode.leaf, if_neg (by omega), if_pos (by omega)]
    rfl
  rw [Indexing.leaves, List.mem_map]
  constructor
  · rintro ⟨j, hj, heq⟩
    have hj' := List.mem_range.mp hj
    refine ⟨directCount + j, by omega, by omega, ?_⟩
    rw [hleaf _ (by omega) (by omega), Nat.add_sub_cancel_left, heq]
  · rintro ⟨i, h1, h2, heq⟩
    exact ⟨i - directCount, List.mem_range.mpr (by omega), by rw [← hleaf i h1 h2, heq]⟩

/-- Inode `ino` has become `ino'`, which has the same blocks; those behind the index block are free
and zero. -/
structure Wiped (G : Geometry) (d d' : Disk) (held : List ℕ) (ino ino' : DiskInode) : Prop where
  ok : InodeOk d' held ino'
  kind : ino'.kind = ino.kind
  count : ino'.leafCount = ino.leafCount
  fits : ino.Fits → ino'.size < 2 ^ 32 → ino'.Fits
  keep : ∀ p, p < 512 * directCount → ino'.byteAt d' p = ino.byteAt d p
  zero : ∀ p, 512 * directCount ≤ p → p < 512 * ino.leafCount → ino'.byteAt d' p = 0
  frame : ∀ b, ¬ G.InBitmap b → ¬ G.InPool b → d' b = d b
  pool : ∀ b ∈ ino'.owned d', G.InPool b

theorem Wiped.of_freed {l : List ℕ} (hok : InodeOk d held ino) (hlo : directCount < ino.leafCount)
    (hhi : ino.leafCount ≤ indirect1Bound) (hm : DiskInode.countDataBlock newSize = ino.leafCount)
    (hfreed : Freed G d d' l) (hpool : ∀ b ∈ ino.owned d, G.InPool b)
    (hl : ∀ b, b ∈ l ↔ b ∈ indexing.leaves d 1 ino.indirect1 (ino.leafCount - directCount)) :
    Wiped G d d' held ino { ino with size := newSize } := by
  have hcount : ({ ino with size := newSize } : DiskInode).leafCount = ino.leafCount := hm
  have hleaves : ∀ b, b ∈ l ↔ ∃ i, directCount ≤ i ∧ i < ino.leafCount ∧ ino.leaf d i = b :=
    fun b => (hl b).trans (mem_leaves_one hlo hhi)
  have hframe : ∀ b ∈ ino.owned d, b ∉ l → d' b = d b := fun b hb hbl =>
    hfreed.frame b (Geometry.not_inBitmap_of_inPool (hpool b hb)) hbl
  have hindex : ∀ b ∈ ino.index d, d' b = d b := by
    intro b hb
    refine hframe b (index_subset hok.top hb) fun hbl => ?_
    obtain ⟨i, _, hi, heq⟩ := (hleaves b).mp hbl
    rw [← heq] at hb
    exact leaf_notMem_index hok.top hok.nodup hi hb
  obtain ⟨howned, -, hleaf⟩ := inode_congr hindex
  have howned' : DiskInode.owned d' { ino with size := newSize } = ino.owned d := by
    rw [← howned, DiskInode.owned, hcount]
    rfl
  have hbyte : ∀ p, p < 512 * ino.leafCount →
      DiskInode.byteAt d' { ino with size := newSize } p =
        (d' (ino.leaf d (p / 512))).byte (p % 512) := by
    intro p hp
    have hi : p / 512 < ino.leafCount := by omega
    rw [← hleaf _ hi (lt_of_lt_of_le hi hok.top)]
    rfl
  have hle := hlo.le
  refine ⟨⟨?_, ?_, ?_⟩, rfl, hcount, ?_, ?_, ?_, ?_, by rw [howned']; exact hpool⟩
  · rw [hcount]
    exact hok.top
  · rw [howned']
    exact hok.nodup
  · rw [howned']
    exact hok.free
  · exact fun hfits hsize => ⟨hsize, hfits.2, hfits.3, hfits.4, hfits.5⟩
  · intro p hp
    have hi : p / 512 < ino.leafCount := by omega
    rw [hbyte p (by omega), hframe _ (leaf_mem_owned hok.top hi)]
    · rfl
    · intro hbl
      obtain ⟨j, hj, hj', heq⟩ := (hleaves _).mp hbl
      have := leaf_inj hok.top hok.nodup hj' hi heq
      omega
  · intro p hp hp'
    have hi : p / 512 < ino.leafCount := by omega
    rw [hbyte p hp', hfreed.zero _ ((hleaves _).mpr ⟨p / 512, by omega, hi, rfl⟩), Block.byte_zero]
  · intro b h1 h2
    refine hfreed.frame b h1 fun hbl => h2 ?_
    obtain ⟨i, _, hi, heq⟩ := (hleaves b).mp hbl
    rw [← heq]
    exact hpool _ (leaf_mem_owned hok.top hi)

/-- **What goes wrong.**  An inode with one index tree that shrinks and keeps blocks behind the index block
loses the content of these blocks. -/
theorem wipe_spec (hcore : Core G tab d) (hid : id < G.slots) (hheld : Aside G held)
    (hlt : newSize < (tab id).size) (hhi : (tab id).leafCount ≤ indirect1Bound)
    (hlo : directCount < DiskInode.countDataBlock newSize) :
    dwp (G.fs.decreaseSize newSize (tab id)) held d
      (fun ino' d' => ino'.size = newSize ∧ Wiped G d d' held { tab id with size := newSize } ino')
      fun _ => False := by
  have hle : DiskInode.countDataBlock newSize ≤ (tab id).leafCount :=
    Nat.div_le_div_right (Nat.add_le_add_right (Nat.le_of_lt hlt) _)
  have hok := (hcore.inodeOk hid hheld).resize hhi hlo hle
  have hhi' := le_trans hle hhi
  have howned := owned_one d
    (show directCount < DiskInode.leafCount { tab id with size := newSize } from hlo) hhi'
  have hsub : ∀ b ∈ DiskInode.owned d { tab id with size := newSize }, b ∈ (tab id).owned d :=
    fun b hb => (owned_resize hhi hlo hle).subset hb
  have hmem : ∀ b ∈ indexing.leaves d 1 (tab id).indirect1
      (DiskInode.countDataBlock newSize - directCount),
      b ∈ DiskInode.owned d { tab id with size := newSize } := by
    intro b hb
    rw [howned]
    exact List.mem_append_right _ (List.mem_cons_of_mem _ hb)
  rw [EasyFileSystem.decreaseSize, if_neg (Nat.not_le.mpr hlt)]
  refine wp_bind'.mpr (wp_mono (decreaseSize_wipes hok hheld.bitmapFree.room hlo hhi' hle) ?_
    fun _ h => h)
  rintro o d₁ ⟨hd, ho, hperm⟩
  subst hd
  have hnd := hok.nodup
  rw [howned] at hnd
  obtain ⟨_, hnd₂, hdisj⟩ := List.nodup_append.mp hnd
  rw [List.nodup_cons] at hnd₂
  refine wp_bind'.mpr (wp_mono (deallocBlocks_spec hheld.bitmapFree _ _
    (hperm.nodup_iff.mpr hnd₂.2) ?_) ?_ fun _ h => h)
  · intro b hb
    have hb' := hmem b (hperm.mem_iff.mp hb)
    obtain ⟨h1, h2⟩ := hcore.used id hid b (hsub b hb')
    exact ⟨h1, hok.free b hb', h2⟩
  intro _ d₂ hfreed
  refine wp_pure'.mpr ?_
  rw [ho]
  exact ⟨rfl, Wiped.of_freed hok hlo hhi' rfl hfreed
    (fun b hb => (hcore.used id hid b (hsub b hb)).1) fun b => hperm.mem_iff⟩

/-! ### The directory afterwards -/

/-- The first 432 entries are those of a proper removal; the others are empty. -/
structure EntriesLost (G : Geometry) (d d' : Disk) (dir i : ℕ) : Prop where
  kind : (G.node d' dir).kind = .directory
  length : (G.node d' dir).data.length = 32 * ((G.node d dir).data.length / 32 - 1)
  ok : InodeOk d' [(G.pos dir).1] (G.slot d' dir)
  front : ∀ j, j < 432 →
    entryAt (G.node d' dir).data j = entryAt (removeEntry (G.node d dir).data i) j
  lost : ∀ j, 432 ≤ j → j < (G.node d dir).data.length / 32 - 1 →
    entryAt (G.node d' dir).data j = .empty

theorem Wiped.getD {d₂ d₃ : Disk} {ino' : DiskInode} (h : Listed G d dir i k name)
    (hm : Marked G d d₁ k false) (hcore : Core G (G.slot d) d) (hdir : dir < G.slots)
    (hwr : Written d₁ d₂ (G.slot d dir) (32 * i)
      (entryAt (G.node d dir).data ((G.node d dir).data.length / 32 - 1)).asBytes)
    (hsize : ino'.size = 32 * ((G.node d dir).data.length / 32 - 1))
    (hw : Wiped G d₂ d₃ held { G.slot d dir with size := newSize } ino') {p : ℕ} (hp : p < ino'.size) :
    (ino'.data d₃).getD p 0 =
      if p < 13824 then (removeEntry (G.node d dir).data i).getD p 0 else 0 := by
  have hle := size_le_leaves ino'
  have hcount := hw.count
  rw [getD_data hp]
  rcases Nat.lt_or_ge p 13824 with hlt | hge
  · have hbyte : DiskInode.byteAt d₂ { G.slot d dir with size := newSize } p =
        (G.slot d dir).byteAt d₂ p := rfl
    rw [if_pos hlt, hw.keep p hlt, hbyte, Written.removed h hm hcore hdir hwr (by omega)]
  · rw [if_neg (by omega), hw.zero p hge (by omega)]

theorem asBytes_empty_getD (k : ℕ) : DirEntry.empty.asBytes.getD k 0 = 0 := by
  have hzero : DirEntry.empty.asBytes = List.replicate 32 0 := by decide
  rw [hzero, List.getD, List.getElem?_replicate]
  split <;> rfl

/-- The entries in bytes that are those of a proper removal up to the end of block 26, and zero
behind it. -/
theorem entryAt_wiped {v w : List UInt8} (hv : v.length = 32 * n) (hw : w.length = 32 * n)
    (hn : 432 ≤ n) (h : ∀ p, p < 32 * n → v.getD p 0 = if p < 13824 then w.getD p 0 else 0) :
    (∀ j, j < 432 → entryAt v j = entryAt w j) ∧ ∀ j, 432 ≤ j → j < n → entryAt v j = .empty := by
  refine ⟨?_, ?_⟩
  · intro j hj
    refine entryAt_congr ?_ (by omega) (by omega)
    intro k hk
    rw [h _ (by omega), if_pos (by omega)]
  · intro j hj hjn
    refine entryAt_eq ?_ (by omega)
    intro k hk
    rw [h _ (by omega), if_neg (by omega), asBytes_empty_getD]

/-- A directory of 434 to 2480 entries has data blocks behind its first index block, also with one entry
less, and none behind the second. -/
theorem Listing.large_counts (h : Listing G d dir) (hlo : 434 ≤ (G.node d dir).data.length / 32)
    (hhi : (G.node d dir).data.length / 32 ≤ 2480) :
    directCount < DiskInode.countDataBlock (32 * ((G.node d dir).data.length / 32 - 1)) ∧
      (G.slot d dir).leafCount ≤ indirect1Bound := by
  have hsize := h.size_eq
  have hdirect : directCount = 27 := rfl
  have hbound : indirect1Bound = 155 := rfl
  constructor
  · rw [DiskInode.countDataBlock, blockSize]
    omega
  · rw [DiskInode.leafCount, DiskInode.countDataBlock, hsize, blockSize]
    omega

/-- **`delete`** in a directory that keeps blocks behind its first index block.  The number of the entry
is released, but the entries in these blocks are lost. -/
theorem delete_wipes (hcore : Core G (G.slot d) d) (hdir : dir < G.slots)
    (h : Listed G d dir i k name) (hlo : 434 ≤ (G.node d dir).data.length / 32)
    (hhi : (G.node d dir).data.length / 32 ≤ 2480)
    (hname : name = "" → i + 1 = (G.node d dir).data.length / 32) :
    dwp ((G.handle dir).delete G.fs name) [] d
      (fun _ d' => EntriesLost G d d' dir i ∧
        ∀ j, j < G.slots → G.live d' j = if j = k then false else G.live d j) fun _ => False := by
  have hsize := h.size_eq
  have hlt := h.lt
  have hheld := aside_slot hdir
  have harea := (Geometry.pos_inArea hdir).outside
  obtain ⟨hnew, hold⟩ := h.large_counts hlo hhi
  refine wp_delete hcore hdir h ?_
  intro d₁ d₂ hm hc hwr
  refine wp_mono (wipe_spec hc.core hdir hheld (by omega) hold hnew) ?_ fun _ h => h
  rintro ino' d₃ ⟨hnew, hw⟩
  have hentries := entryAt_wiped (v := ino'.data d₃) (by rw [length_data, hnew])
    (length_removeEntry hlt) (by omega)
    fun p hp => Wiped.getD h hm hcore hdir hwr hnew hw (by rw [hnew]; exact hp)
  have hslotFits := hcore.fits dir hdir
  have hsizeFits : ino'.size < 2 ^ 32 := by
    have := hslotFits.size
    omega
  have hfits : ino'.Fits := hw.fits ⟨hnew ▸ hsizeFits, hslotFits.2, hslotFits.3, hslotFits.4,
    hslotFits.5⟩ hsizeFits
  have hempty : ∀ j, i < j → j < (G.node d dir).data.length / 32 → name ≠ "" := by
    intro j hij hj hname'
    have := hname hname'
    omega
  refine ⟨hw.ok, ?_, ?_, ?_⟩
  · intro j hij hj
    rw [Passes, hnew]
    rcases Nat.lt_or_ge j 432 with hj432 | hj432
    · rw [hentries.1 j hj432, entryAt_removeEntry hlt (by omega) (by omega)]
      exact Or.inl ⟨by omega, h.other hj (by omega)⟩
    · rcases Nat.lt_or_ge j ((G.node d dir).data.length / 32 - 1) with hjn | hjn
      · rw [hentries.2 j hj432 hjn]
        exact Or.inl ⟨by omega, "", name?_empty, (hempty j hij hj).symm⟩
      · exact Or.inr ⟨by omega, hempty j hij hj⟩
  · rw [hw.frame _ harea.2.1 harea.2.2, hc.outside _ harea.2.1 harea.2.2, hm.frame _ harea.1]
  -- the disk inode goes back into its slot, away from the blocks of the directory
  have hslot : G.slot (G.put d₃ dir ino') dir = ino' := Geometry.slot_put_same hfits
  have hput : ∀ b ∈ ino'.owned d₃, G.put d₃ dir ino' b = d₃ b := fun b hb =>
    Geometry.put_outside hdir (hw.pool b hb).not_inArea
  obtain ⟨howned, hbytes⟩ := owned_congr hw.ok.top hput
  have hdata : (G.node (G.put d₃ dir ino') dir).data = ino'.data d₃ := by
    show (G.slot (G.put d₃ dir ino') dir).data _ = _
    rw [hslot]
    exact data_congr rfl fun p hp => hbytes p (lt_of_lt_of_le hp (size_le_leaves _))
  refine ⟨⟨?_, ?_, ?_, ?_, ?_⟩, ?_⟩
  · show (G.slot (G.put d₃ dir ino') dir).kind = _
    rw [hslot, hw.kind]
    exact h.directory
  · rw [hdata, length_data, hnew]
  · rw [hslot]
    exact ⟨hw.ok.top, by rw [howned]; exact hw.ok.nodup, by rw [howned]; exact hw.ok.free⟩
  · rw [hdata]
    exact hentries.1
  · rw [hdata]
    exact hentries.2
  · -- the inode bitmap was changed by the mark only
    intro j hj
    rw [live_congr (fun b hb => ?_) hj, hm.live j]
    rw [Geometry.put_outside hdir hb.outside.1, hw.frame b hb.outside.2.1 hb.outside.2.2,
      hc.outside b hb.outside.2.1 hb.outside.2.2]

/-! ### A directory of many files -/

/-- A name of one character for each number. -/
def fileName (i : ℕ) : String := String.singleton (Char.ofNat (256 + i))

theorem toList_fileName (i : ℕ) : (fileName i).toList = [Char.ofNat (256 + i)] :=
  String.toList_singleton _

theorem toNat_fileName (hi : i < 1000) : (Char.ofNat (256 + i)).toNat = 256 + i := by
  have hvalid : (256 + i).isValidChar := Or.inl (by omega)
  rw [Char.ofNat, dif_pos hvalid]
  rfl

theorem fileName_inj {j : ℕ} (hi : i < 1000) (hj : j < 1000) (h : fileName i = fileName j) :
    i = j := by
  have hchar := congrArg String.toList h
  rw [toList_fileName, toList_fileName, List.cons.injEq] at hchar
  have hnat := congrArg Char.toNat hchar.1
  rw [toNat_fileName hi, toNat_fileName hj] at hnat
  omega

theorem nulFree_fileName (hi : i < 1000) : Char.ofNat 0 ∉ (fileName i).toList := by
  rw [toList_fileName, List.mem_singleton]
  intro h
  have hnat := congrArg Char.toNat h
  rw [toNat_fileName hi] at hnat
  exact absurd hnat (show (0 : ℕ) ≠ 256 + i by omega)

theorem fileName_ne_empty (i : ℕ) : fileName i ≠ "" := by
  intro h
  have hlist := congrArg String.toList h
  rw [toList_fileName] at hlist
  exact absurd hlist (by simp)

theorem fileName_fits (i : ℕ) : (strBytes (fileName i)).length ≤ nameLengthLimit + 1 := by
  rw [strBytes_eq_flatMap, toList_fileName, List.flatMap_singleton, String.length_utf8EncodeChar,
    nameLengthLimit]
  have := Char.utf8Size_le_four (Char.ofNat (256 + i))
  omega

theorem name?_fileName (hi : i < 1000) (id : ℕ) :
    (DirEntry.make (fileName i) id).name? = some (fileName i) :=
  name?_make_of_nulFree (fileName_fits i) (nulFree_fileName hi) id

/-- The entry of file number `i`. -/
def fileEntry (i : ℕ) : DirEntry := .make (fileName i) (i + 1)

/-- The root directory has the files `0` to `n - 1`, and nothing else is on the disk. -/
structure Filled (G : Geometry) (n : ℕ) (d : Disk) : Prop where
  sound : Sound G d [G.handle 0]
  kind : (G.node d 0).kind = .directory
  length : (G.node d 0).data.length = 32 * n
  entries_eq : entries (G.node d 0).data = (List.range n).map fileEntry
  live : ∀ j, (G.image d).live j = decide (j ≤ n)
  card : G.total - G.dataStart ≤ (G.free d).card + DiskInode.countTotalBlock (32 * n)

theorem Formatted.filled (h : Formatted G d) : Filled G 0 d := by
  have hlive : ∀ j, (G.image d).live j = decide (j ≤ 0) := by
    intro j
    rw [h.image]
    simp [Image.fresh]
  have hnode : G.node d 0 = ⟨.directory, []⟩ := by
    rw [← image_node (lt_slots_of_live (hlive 0)), h.image]
    rfl
  exact ⟨h.sound, by rw [hnode], by rw [hnode]; rfl, by rw [hnode]; rfl, hlive,
    by rw [h.card_free]; exact Nat.le_add_right _ _⟩

theorem Filled.createOk (h : Filled G n d) (hn : n < 1000) (hslots : n + 1 < G.slots)
    (hspace : DiskInode.countTotalBlock (32 * (n + 1)) ≤ G.total - G.dataStart) :
    CreateOk G d 0 (fileName n) ∧ lookup (fileName n) (entries (G.node d 0).data) = none := by
  have h0 : 0 < G.slots := by omega
  have hsize : (G.slot d 0).size = 32 * n := by
    rw [← length_data (d := d)]
    exact h.length
  have happended : (G.slot d 0).appended = 32 * (n + 1) := by
    rw [DiskInode.appended, hsize, direntSize]
    omega
  have hsmall : 32 * (n + 1) ≤ maxFileSize := by
    rw [maxFileSize, indirect3Bound, blockSize]
    omega
  have hnone : lookup (fileName n) (entries (G.node d 0).data) = none := by
    rw [h.entries_eq, lookup_eq_none]
    intro e he heq
    obtain ⟨i, hi, rfl⟩ := List.mem_map.mp he
    have hi' := List.mem_range.mp hi
    rw [fileEntry, name?_fileName (by omega)] at heq
    have := fileName_inj (by omega) hn (Option.some.inj heq)
    omega
  refine ⟨⟨h.kind, ?_, fun _ => ⟨⟨fileName_fits n, ?_, ?_⟩, n + 1, hslots, ?_⟩⟩, hnone⟩
  · have hdec := (h.sound.decodes 0 (by rw [image_node h0]; exact h.kind)).2
    rwa [image_node h0] at hdec
  · rw [happended]
    exact hsmall
  · have hcard := h.card
    rw [Geometry.Room, DiskInode.growth, happended, hsize]
    omega
  · rw [← image_live hslots, h.live]
    simp

/-- **One more file.** -/
theorem Filled.create (h : Filled G n d) (hn : n < 1000) (hslots : n + 1 < G.slots)
    (hspace : DiskInode.countTotalBlock (32 * (n + 1)) ≤ G.total - G.dataStart) :
    dwp ((Call.create (G.handle 0) (fileName n)).prog G.fs) [] d
      (fun _ d' => Filled G (n + 1) d') fun _ => False := by
  have h0 : 0 < G.slots := by omega
  obtain ⟨hok, hnone⟩ := h.createOk hn hslots hspace
  obtain ⟨_, _, heq, hlive⟩ := h.sound.known _ (List.mem_singleton_self _)
  rw [← Geometry.handle_inj heq] at hlive
  refine wp_bind'.mpr (wp_mono (createInode_op h.sound.core h0 hlive (fileName n) .file) ?_
    fun _ hno => hno hok)
  rintro r d' ⟨_, hcases⟩
  rcases hcases with ⟨hsome, _⟩ | ⟨_, new, _, hc⟩
  · exact absurd hnone hsome
  refine wp_pure'.mpr ?_
  have hnew : new = n + 1 := by
    have hfresh := (image_live hc.lt).trans hc.fresh
    rw [h.live] at hfresh
    rcases Nat.lt_or_ge (n + 1) new with hlt | hge
    · have := (image_live hslots).trans (hc.first _ hlt)
      rw [h.live] at this
      exact absurd this (by simp)
    · have : ¬ new ≤ n := of_decide_eq_false hfresh
      omega
  subst hnew
  have hroot : ((G.image d).allocate (n + 1) .file).node 0 = G.node d 0 := by
    rw [Image.node_allocate_other (by omega), image_node h0]
  have hdvd : 32 ∣ (G.node d 0).data.length := ⟨n, h.length⟩
  have hkind : (G.node d' 0).kind = .directory := by
    rw [← image_node h0, hc.image, Image.createInode, Image.append, Image.kind_write, hroot, h.kind]
  have hdata : (G.node d' 0).data = (G.node d 0).data ++ (fileEntry n).asBytes := by
    rw [← image_node h0, hc.image, Image.createInode, Image.append_data (by rw [hroot]; exact hdvd),
      hroot]
    rfl
  have hsize : (G.slot d 0).size = 32 * n := by
    rw [← length_data (d := d)]
    exact h.length
  refine ⟨?_, hkind, ?_, ?_, ?_, ?_⟩
  · have hmade := h.sound.made hc.toMade (by rw [hc.image]; exact h.sound.decodes.createInode hc.fits)
      (by rw [hc.image]; rfl)
    exact ⟨hmade.core, hmade.super, hmade.decodes, fun i hi =>
      hmade.known i (List.mem_cons_of_mem _ hi)⟩
  · rw [hdata, List.length_append, h.length, DirEntry.length_asBytes]
    omega
  · rw [hdata, entries_append hdvd, h.entries_eq, List.range_succ, List.map_append]
    rfl
  · intro j
    rw [hc.image, Image.live_createInode]
    by_cases hj : j = n + 1
    · rw [hj, Image.live_setLive_same]
      simp
    · rw [Image.live_setLive_other _ hj, h.live, decide_eq_decide]
      omega
  · have happended : (G.slot d 0).appended = 32 * (n + 1) := by
      rw [DiskInode.appended, hsize, direntSize]
      omega
    have hcard := hc.card (hok.append hnone).1.room
    have hmono := countTotalBlock_mono (show 32 * n ≤ 32 * (n + 1) by omega) (by
      rw [maxFileSize, indirect3Bound, blockSize]
      omega)
    have hold := h.card
    rw [DiskInode.growth, happended, hsize] at hcard
    omega

theorem exists_filled (n : ℕ) (hn : n ≤ 434) : ∃ hist s,
    Run .efsTest (fun _ _ call => ∃ name, call = .create (Geometry.efsTest.handle 0) name)
      (fun _ => Block.zero) hist s ∧
    Filled .efsTest n s.cache.content ∧ Geometry.efsTest.handle 0 ∈ s.inodes := by
  have hspace : DiskInode.countTotalBlock (32 * 434) ≤
      Geometry.efsTest.total - Geometry.efsTest.dataStart := by
    rw [countTotalBlock_def (32 * 434) 28 rfl]
    decide
  induction n with
  | zero =>
    obtain ⟨s, hrun, hformat, hinodes⟩ := exists_init .efsTest
      (fun _ _ call => ∃ name, call = .create (Geometry.efsTest.handle 0) name) fun _ => Block.zero
    exact ⟨[], s, hrun, hformat.filled, by rw [hinodes]; exact List.mem_singleton_self _⟩
  | succ n ih =>
    obtain ⟨hist, s, hrun, hfilled, hmem⟩ := ih (by omega)
    have hmono := countTotalBlock_mono (show 32 * (n + 1) ≤ 32 * 434 by omega) (by
      rw [maxFileSize, indirect3Bound, blockSize]
      norm_num)
    have hslots : Geometry.efsTest.slots = 4096 := rfl
    have hself : (Call.create (Geometry.efsTest.handle 0) (fileName n)).self ∈ s.inodes := hmem
    obtain ⟨reply, c, _, hrun', hfilled'⟩ := hrun.extend hself ⟨_, rfl⟩
      (hfilled.create (by omega) (by omega) (le_trans hmono hspace)) fun _ hno => hno
    exact ⟨_, _, hrun', hfilled', List.mem_append_right _ hmem⟩

theorem Filled.entryAt_eq (h : Filled G n d) (hi : i < n) :
    entryAt (G.node d 0).data i = fileEntry i := by
  have hlt : i < (entries (G.node d 0).data).length := by
    rw [h.entries_eq, List.length_map, List.length_range]
    exact hi
  rw [← getElem_entries hlt]
  simp [h.entries_eq]

theorem Filled.distinct (h : Filled G n d) (hn : n ≤ 1000) :
    ((entries (G.node d 0).data).map DirEntry.name?).Nodup := by
  rw [h.entries_eq, List.map_map]
  refine List.Nodup.map_on ?_ List.nodup_range
  intro a ha b hb heq
  have ha' := List.mem_range.mp ha
  have hb' := List.mem_range.mp hb
  rw [Function.comp, Function.comp, fileEntry, fileEntry, name?_fileName (by omega),
    name?_fileName (by omega)] at heq
  exact fileName_inj (by omega) (by omega) (Option.some.inj heq)

theorem Filled.lookup_eq (h : Filled G n d) (hn : n ≤ 1000) (hi : i < n) :
    lookup (fileName i) (entries (G.node d 0).data) = some (fileEntry i).inodeNumber := by
  refine lookup_of_mem (h.distinct hn) ?_ (name?_fileName (by omega) _)
  rw [h.entries_eq]
  exact List.mem_map.mpr ⟨i, List.mem_range.mpr hi, rfl⟩

/-- The first file of a filled directory can be named. -/
theorem Filled.names (h : Filled G n d) (hpos : 0 < n) (hn : n ≤ 1000)
    (hslots : 1 < G.slots) : Names G d 0 0 1 (fileName 0) := by
  have h0 : 0 < G.slots := by omega
  have hdec := h.sound.decodes 0 (by rw [image_node h0]; exact h.kind)
  rw [image_node h0] at hdec
  refine ⟨h.kind, hdec.1, hdec.2, h.distinct hn, ?_, ?_, ?_, fileName_ne_empty 0, ?_⟩
  · rw [h.length]
    omega
  · rw [h.entryAt_eq hpos]
    exact name?_fileName (by omega) _
  · rw [h.entryAt_eq hpos]
    rfl
  · rw [h.live]
    exact decide_eq_true hpos

theorem EntriesLost.lookup_eq (hl : EntriesLost G d d' 0 0) (h : Filled G 434 d) :
    (∀ e ∈ entries (G.node d' 0).data, e.name?.isSome) ∧
      lookup (fileName 432) (entries (G.node d' 0).data) = none := by
  have hlen := h.length
  have hentry : ∀ e ∈ entries (G.node d' 0).data, ∃ s, e.name? = some s ∧ s ≠ fileName 432 := by
    intro e he
    obtain ⟨j, hj, heq⟩ := List.getElem_of_mem he
    rw [getElem_entries] at heq
    rw [length_entries, hl.length] at hj
    subst heq
    rcases Nat.lt_or_ge j 432 with hlt | hge
    · rw [hl.front j hlt]
      rcases Nat.eq_zero_or_pos j with h0 | hpos
      · -- the last entry has come to the front
        subst h0
        rw [entryAt_removeEntry_same (by omega), hlen, show 32 * 434 / 32 - 1 = 433 by rfl,
          h.entryAt_eq (by omega)]
        refine ⟨fileName 433, name?_fileName (by omega) _, fun heq => ?_⟩
        exact absurd (fileName_inj (by omega) (by omega) heq) (by omega)
      · rw [entryAt_removeEntry (by omega) (by omega) (by omega), h.entryAt_eq (by omega)]
        refine ⟨fileName j, name?_fileName (by omega) _, fun heq => ?_⟩
        have := fileName_inj (by omega) (by omega) heq
        omega
    · rw [hl.lost j hge (by omega)]
      exact ⟨"", name?_empty, (fileName_ne_empty 432).symm⟩
  refine ⟨?_, ?_⟩
  · intro e he
    obtain ⟨s, hs, _⟩ := hentry e he
    rw [hs]
    rfl
  · rw [lookup_eq_none]
    intro e he heq
    obtain ⟨s, hs, hne⟩ := hentry e he
    exact hne (Option.some.inj (hs.symm.trans heq))

/-- **An entry is lost.**  After 434 files have been created in the root directory, deleting the first
one makes `find` miss another one. -/
theorem delete_loses_entry : ∃ hist s c,
    Run .efsTest (fun _ _ call => ∃ name, call = .create (Geometry.efsTest.handle 0) name)
      (fun _ => Block.zero) hist s ∧
    (entries (Geometry.efsTest.node s.cache.content 0).data).length = 434 ∧
    Finds s.fs s.cache (Geometry.efsTest.handle 0) (fileName 0) (some (Geometry.efsTest.handle 1)) ∧
    exec cacheMachine ((Call.delete (Geometry.efsTest.handle 0) (fileName 0)).prog s.fs) s.cache =
      .ok (.unit, c) ∧
    Finds s.fs s.cache (Geometry.efsTest.handle 0) (fileName 432)
      (some (Geometry.efsTest.handle 433)) ∧
    Finds s.fs c (Geometry.efsTest.handle 0) (fileName 432) none := by
  obtain ⟨hist, s, hrun, hfilled, hmem⟩ := exists_filled 434 (Nat.le_refl _)
  obtain ⟨hfs, hp⟩ := hrun.presents
  have hlen := hfilled.length
  have hn := hfilled.names (by omega) (by omega) (by decide)
  have hdelete : dwp ((Call.delete (Geometry.efsTest.handle 0) (fileName 0)).prog
      Geometry.efsTest.fs) [] s.cache.content
      (fun reply d' => reply = .unit ∧ EntriesLost .efsTest s.cache.content d' 0 0)
      fun _ => False := by
    refine wp_bind'.mpr (wp_mono (delete_wipes hfilled.sound.core (by decide) hn.listed (by omega)
      (by omega) fun hempty => absurd hempty hn.nonempty) ?_ fun _ hno => hno)
    exact fun _ d' hd => wp_pure'.mpr ⟨rfl, hd.1⟩
  obtain ⟨reply, d', hdrun, hreply, hlost⟩ := wp_returns hdelete
  obtain ⟨c, hexec, hc⟩ := exec_returns hp hdrun
  subst hreply
  rw [← hc.content_eq] at hlost hc
  obtain ⟨hdec, hnone⟩ := hlost.lookup_eq hfilled
  refine ⟨hist, s, c, hrun, ?_, ?_, ?_, ?_, ?_⟩
  · rw [length_entries, hlen]
  · rw [hfs, hfilled.sound.finds_iff hp (by decide) hfilled.kind,
      hfilled.lookup_eq (by omega) (by omega)]
    rfl
  · rw [hfs]
    exact hexec
  · rw [hfs, hfilled.sound.finds_iff hp (by decide) hfilled.kind,
      hfilled.lookup_eq (by omega) (by omega)]
    rfl
  · rw [hfs, finds_iff hc hlost.ok hlost.kind hdec, hnone]
    rfl

end LemonCore.EasyFs
