import LemonCore.EasyFs.Unlinking

/-!
# Who owns the blocks

A block of the pool is *owned* when an allocated inode has it as a data block or as an index block.

* `bitmap_marks_owned_blocks`: in runs without `delete` the data bitmap marks exactly the owned
  blocks, and no block is owned twice;
* `delete_keeps_blocks_owned`: when `delete` leaves no marked block without an owner.  It never
  releases the blocks of the inode it frees, and shrinking a directory from 28 blocks to 27 loses two
  blocks.
-/

namespace LemonCore.EasyFs

open Foundation.BorrowProgram Foundation.PointerTree

variable {G : Geometry} {d d' : Disk} {id b : ℕ}

/-- Block `b` is a data block or an index block of the allocated inode `id`. -/
def Geometry.Owns (G : Geometry) (d : Disk) (id b : ℕ) : Prop :=
  id < G.slots ∧ G.live d id = true ∧ b ∈ (G.slot d id).owned d

theorem Core.owner_unique (h : Core G (G.slot d) d) {i j : ℕ} (hi : G.Owns d i b)
    (hj : G.Owns d j b) : i = j := by
  by_contra hne
  exact h.apart i j hi.1 hj.1 hne b hi.2.2 hj.2.2

/-- **Exact marks.**  In every state of a run without `delete` that exhausts nothing, a bit of the data
bitmap is set iff its block belongs to exactly one allocated inode; a block occurs at most once in the
tree of an inode, and a block of an inode has a bit. -/
theorem bitmap_marks_owned_blocks {d₀ : Disk} {hist : History} {s : System}
    (h : Run G (Call.Roomed G) d₀ hist s) :
    (∀ bit, bit < G.fs.dataBitmap.maximum →
      (G.fs.dataBitmap.bit s.cache.content bit = true ↔
        ∃! id, G.Owns s.cache.content id (G.dataStart + bit)) ∧
      (G.fs.dataBitmap.bit s.cache.content bit = false ↔
        ∀ id, ¬ G.Owns s.cache.content id (G.dataStart + bit))) ∧
    ∀ id b, G.Owns s.cache.content id b →
      G.InPool b ∧ ((G.slot s.cache.content id).owned s.cache.content).count b = 1 := by
  obtain ⟨hsound, _, htight, _⟩ := h.served
  have hcore := hsound.core
  refine ⟨fun bit hbit => ?_, fun id b hown => ?_⟩
  · have hb : G.InPool (G.dataStart + bit) := ⟨Nat.le_add_right _ _, by omega⟩
    have hbitEq : G.used s.cache.content (G.dataStart + bit) =
        G.fs.dataBitmap.bit s.cache.content bit := by
      rw [Geometry.used, Nat.add_sub_cancel_left]
    have hused : G.fs.dataBitmap.bit s.cache.content bit = true ↔
        ∃ id, G.Owns s.cache.content id (G.dataStart + bit) := by
      rw [← hbitEq]
      constructor
      · intro hu
        obtain ⟨j, hj, hlive, hown⟩ := htight.owner _ hb hu
        exact ⟨j, hj, hlive, hown⟩
      · rintro ⟨j, hj, _, hown⟩
        exact (hcore.used j hj _ hown).2
    refine ⟨hused.trans ⟨?_, fun hex => hex.exists⟩, ?_⟩
    · rintro ⟨j, hj⟩
      exact ⟨j, hj, fun i hi => hcore.owner_unique hi hj⟩
    · rw [← not_iff_not, Bool.not_eq_false, hused]
      simp
  · obtain ⟨hid, _, hmem⟩ := hown
    exact ⟨(hcore.used id hid b hmem).1, List.count_eq_one_of_mem (hcore.nodup id hid) hmem⟩

theorem bitmap_marks_owned_blocks_one_byte : ∃ hist s,
    Run .efsTest (Call.Roomed .efsTest) (fun _ => Block.zero) hist s ∧ hist.length = 2 ∧
    ∀ bit, bit < Geometry.efsTest.fs.dataBitmap.maximum →
      (Geometry.efsTest.fs.dataBitmap.bit s.cache.content bit = true ↔
        ∃! id, Geometry.efsTest.Owns s.cache.content id (Geometry.efsTest.dataStart + bit)) := by
  obtain ⟨s, hrun, _⟩ := exists_one_byte_run
  exact ⟨_, s, hrun, rfl, fun bit hbit => ((bitmap_marks_owned_blocks hrun).1 bit hbit).1⟩

/-- With these sizes the sums of `create` wrap and the last block of the data bitmap holds the root's
inode: its kind is a set bit, and no inode owns a block. -/
theorem bit_set_overlapping_areas : ∃ fs c,
    exec cacheMachine (EasyFileSystem.create 8392705 4194303) (.init fun _ => .zero) = .ok (fs, c) ∧
    4194304 < fs.dataBitmap.maximum ∧ fs.dataAreaStartBlock + 4194304 < 8392705 ∧
    fs.dataBitmap.bit c.content 4194304 = true ∧
    ∀ id, (DiskInode.ofBlock (c.content (fs.diskInodePosition id).1) (fs.diskInodePosition id).2).owned
      c.content = [] := by
  obtain ⟨c, hexec, hc⟩ := exec_of_run cache_simulates (presents_init _)
    (create_blank 8392705 (show 0 < 4194303 by decide))
  refine ⟨_, c, hexec, by decide, by decide, ?_, fun id => owned_of_size_zero ?_ _⟩
  · rw [hc.content_eq]
    decide +kernel
  · have hroot : ∀ k < 4,
        (DiskInode.ofBlock (newDisk 8392705 4194303 4194304) (k * inodeSize)).size = 0 := by decide +kernel
    have hzero : ∀ k < 4, (DiskInode.ofBlock .zero (k * inodeSize)).size = 0 := by decide +kernel
    have hk := Nat.mod_lt id (show 0 < 4 by decide)
    rw [hc.content_eq]
    show (DiskInode.ofBlock (newDisk 8392705 4194303 (4194304 + id / 4)) (id % 4 * inodeSize)).size = 0
    by_cases h0 : id / 4 = 0
    · rw [h0]
      exact hroot _ hk
    · rw [newDisk_of_ne (by omega) (by omega) (show 4194304 + id / 4 ≠ 4194304 by omega)]
      exact hzero _ hk

/-! ### Deleting -/

/-- Every marked block has an owner. -/
def Geometry.AllOwned (G : Geometry) (d : Disk) : Prop :=
  ∀ b, G.InPool b → G.used d b = true → ∃ id, G.Owns d id b

/-- What `delete` has to find for no block to be lost: the directory stays within its direct blocks
and the inode that is freed owns no block, or is the directory itself with its last entry. -/
def Geometry.Releases (G : Geometry) (d : Disk) (dir k : ℕ) : Prop :=
  (entries (G.node d dir).data).length ≤ 432 ∧
    ((G.slot d k).owned d = [] ∨ k = dir ∧ (entries (G.node d dir).data).length = 1)

variable {dir i k : ℕ} {name : String}

theorem size_of_owned_nil {ino : DiskInode} (htop : ino.leafCount ≤ indirect3Bound)
    (h : ino.owned d = []) : ino.size = 0 := by
  have hle := size_le_leaves ino
  rcases Nat.eq_zero_or_pos ino.leafCount with h0 | hpos
  · omega
  · have hmem := leaf_mem_owned (d := d) htop hpos
    rw [h] at hmem
    exact absurd hmem List.not_mem_nil

theorem Deleted.owns_other (h : Deleted G d d' dir i k) {j : ℕ} (hjk : j ≠ k) (hjd : j ≠ dir) :
    G.Owns d' j b ↔ G.Owns d j b := by
  constructor
  · rintro ⟨hj, hlive, hmem⟩
    rw [h.live_eq hj, if_neg hjk] at hlive
    rw [(h.same j hj hjd).2] at hmem
    exact ⟨hj, hlive, hmem⟩
  · rintro ⟨hj, hlive, hmem⟩
    refine ⟨hj, ?_, ?_⟩
    · rw [h.live_eq hj, if_neg hjk]
      exact hlive
    · rw [(h.same j hj hjd).2]
      exact hmem

/-- What becomes of the blocks of the directory: it keeps some, gives some back and loses the rest. -/
structure Parts (G : Geometry) (d : Disk) (dir : ℕ) (kept dropped rest : List ℕ) : Prop where
  owned : (G.slot d dir).owned d = kept ++ (dropped ++ rest)
  kept_eq : (G.slot d dir).directs
    (DiskInode.countDataBlock (32 * ((G.node d dir).data.length / 32 - 1))) = kept
  dropped_eq : (G.slot d dir).droppedBlocks (32 * ((G.node d dir).data.length / 32 - 1)) = dropped
  rest_nil : rest = [] ↔ (G.node d dir).data.length / 32 ≤ 432
  kept_nil : kept = [] ↔ (G.node d dir).data.length / 32 = 1

theorem Names.parts (hn : Names G d dir i k name)
    (hsmall : (G.node d dir).data.length / 32 ≤ 433) :
    ∃ kept dropped rest, Parts G d dir kept dropped rest := by
  have hsize := hn.listed.size_eq
  have hlt := hn.lt
  have hcount : (G.slot d dir).leafCount = ((G.node d dir).data.length / 32 + 15) / 16 := by
    rw [DiskInode.leafCount, DiskInode.countDataBlock, hsize, blockSize]
    omega
  have hnew : DiskInode.countDataBlock (32 * ((G.node d dir).data.length / 32 - 1)) =
      ((G.node d dir).data.length / 32 - 1 + 15) / 16 := by
    rw [DiskInode.countDataBlock, blockSize]
    omega
  have hdirect : directCount = 27 := rfl
  have happend : (G.slot d dir).directs (G.slot d dir).leafCount =
      (G.slot d dir).directs
        (DiskInode.countDataBlock (32 * ((G.node d dir).data.length / 32 - 1))) ++
      (G.slot d dir).droppedBlocks (32 * ((G.node d dir).data.length / 32 - 1)) :=
    DiskInode.directs_eq_append (by omega) (by omega)
  refine ⟨_, _, indexing.forest d ((G.slot d dir).trees (G.slot d dir).leafCount), ?_, rfl, rfl,
    ?_, ?_⟩
  · rw [DiskInode.owned, happend, List.append_assoc]
  · rw [← List.length_eq_zero_iff, length_forest_trees]
    constructor
    · intro hzero
      by_contra hgt
      have hpos : 0 < (G.slot d dir).leafCount - directCount := by omega
      have := indexing.count_pos (k := 1) (lt_min hpos (show 0 < indirect1Count by decide))
      rw [blocksBehind1] at hzero
      omega
    · intro hle
      rw [show (G.slot d dir).leafCount - directCount = 0 by omega]
      simp [blocksBehind1, blocksBehind2, Indexing.count_zero]
  · rw [← List.length_eq_zero_iff, length_directs, hnew]
    omega

theorem Deleted.owns_dir {kept dropped rest : List ℕ} (h : Deleted G d d' dir i k)
    (hparts : Parts G d dir kept dropped rest) (hdir : dir < G.slots) :
    G.Owns d' dir b ↔ dir ≠ k ∧ G.live d dir = true ∧ b ∈ kept := by
  rw [Geometry.Owns, h.live_eq hdir, h.owned, hparts.kept_eq]
  by_cases hk : dir = k
  · simp [hk]
  · simp [hk, hdir]

/-- **When every marked block still has an owner.** -/
theorem Deleted.allOwned_iff (h : Deleted G d d' dir i k) (hn : Names G d dir i k name)
    (hcore : Core G (G.slot d) d) (hdir : dir < G.slots) (hlive : G.live d dir = true)
    (hsmall : (G.node d dir).data.length / 32 ≤ 433) (hall : G.AllOwned d) :
    G.AllOwned d' ↔ G.Releases d dir k := by
  obtain ⟨kept, dropped, rest, hparts⟩ := hn.parts hsmall
  have hk : k < G.slots := lt_slots_of_live hn.live
  have hklive : G.live d k = true := (image_live hk).symm.trans hn.live
  have hnd := hcore.nodup dir hdir
  have hsub : ∀ b ∈ kept ++ (dropped ++ rest), b ∈ (G.slot d dir).owned d := by
    rw [hparts.owned]
    exact fun b hb => hb
  rw [hparts.owned] at hnd
  obtain ⟨_, hnd₂, hdisj⟩ := List.nodup_append.mp hnd
  have hdisj₂ := (List.nodup_append.mp hnd₂).2.2
  have hused : ∀ b, G.InPool b → (G.used d' b = true ↔ b ∉ dropped ∧ G.used d b = true) := by
    intro b hb
    rw [h.used b hb, hparts.dropped_eq, Bool.and_eq_true, Bool.not_eq_true', decide_eq_false_iff_not]
  -- a block that was owned by one inode can only be owned by that inode or not at all
  have howner : ∀ {b j l}, j < G.slots → b ∈ (G.slot d j).owned d → G.Owns d' l b → l = j := by
    intro b j l hj hb hl
    by_contra hne
    by_cases hld : l = dir
    · subst hld
      have hkept := ((h.owns_dir hparts hdir).mp hl).2.2
      exact hcore.apart l j hdir hj hne b (hsub b (List.mem_append_left _ hkept)) hb
    · have hlk : l ≠ k := by
        intro heq
        have hl' := hl.2.1
        rw [h.live_eq hl.1, if_pos heq] at hl'
        exact absurd hl' (by simp)
      have hold := (h.owns_other hlk hld).mp hl
      exact hcore.apart l j hl.1 hj hne b hold.2.2 hb
  rw [Geometry.Releases, length_entries]
  constructor
  · intro hall'
    refine ⟨?_, ?_⟩
    · rw [← hparts.rest_nil]
      by_contra hne
      obtain ⟨b, hb⟩ := List.exists_mem_of_ne_nil _ hne
      have hb' := List.mem_append_right dropped hb
      have hown := hsub b (List.mem_append_right _ hb')
      obtain ⟨hpool, hu⟩ := hcore.used dir hdir b hown
      obtain ⟨l, hl⟩ := hall' b hpool ((hused b hpool).mpr
        ⟨fun hd => hdisj₂ b hd b hb rfl, hu⟩)
      have hld := howner hdir hown hl
      subst hld
      exact hdisj b ((h.owns_dir hparts hdir).mp hl).2.2 b hb' rfl
    · by_contra hno
      rw [not_or, not_and] at hno
      by_cases hkd : k = dir
      · -- the directory itself is freed, with blocks it still has
        have hkept : kept ≠ [] := fun hnil => hno.2 hkd (hparts.kept_nil.mp hnil)
        obtain ⟨b, hb⟩ := List.exists_mem_of_ne_nil _ hkept
        have hown := hsub b (List.mem_append_left _ hb)
        obtain ⟨hpool, hu⟩ := hcore.used dir hdir b hown
        obtain ⟨l, hl⟩ := hall' b hpool ((hused b hpool).mpr
          ⟨fun hd => hdisj b hb b (List.mem_append_left _ hd) rfl, hu⟩)
        have hld := howner hdir hown hl
        subst hld
        exact ((h.owns_dir hparts hdir).mp hl).1 hkd.symm
      · obtain ⟨b, hb⟩ := List.exists_mem_of_ne_nil _ hno.1
        obtain ⟨hpool, hu⟩ := hcore.used k hk b hb
        have hkeep : b ∉ dropped := fun hd => hcore.apart k dir hk hdir hkd b hb
          (hsub b (List.mem_append_right _ (List.mem_append_left _ hd)))
        obtain ⟨l, hl⟩ := hall' b hpool ((hused b hpool).mpr ⟨hkeep, hu⟩)
        have hlk := howner hk hb hl
        have hl' := hl.2.1
        rw [h.live_eq hl.1, if_pos hlk] at hl'
        exact absurd hl' (by simp)
  · rintro ⟨hle, hfree⟩ b hpool hu
    obtain ⟨hnd', hu'⟩ := (hused b hpool).mp hu
    obtain ⟨j, hj⟩ := hall b hpool hu'
    have hrest := hparts.rest_nil.mpr hle
    by_cases hjd : j = dir
    · subst hjd
      have hmem := hj.2.2
      rw [hparts.owned, hrest, List.append_nil] at hmem
      have hkept := (List.mem_append.mp hmem).resolve_right hnd'
      refine ⟨j, (h.owns_dir hparts hdir).mpr ⟨fun heq => ?_, hlive, hkept⟩⟩
      rcases hfree with hnil | ⟨_, hone⟩
      · rw [← heq] at hnil
        rw [hnil] at hsub
        exact absurd (hsub b (List.mem_append_left _ hkept)) List.not_mem_nil
      · rw [hparts.kept_nil.mpr hone] at hkept
        exact absurd hkept List.not_mem_nil
    · refine ⟨j, (h.owns_other ?_ hjd).mpr hj⟩
      intro heq
      subst heq
      rcases hfree with hnil | ⟨heq, _⟩
      · have hmem := hj.2.2
        rw [hnil] at hmem
        exact absurd hmem List.not_mem_nil
      · exact hjd heq

/-! ### Runs with `delete` -/

/-- The calls of runs that lose no block. -/
def Call.Leakless (G : Geometry) (hist : History) (d : Disk) (call : Call) : Prop :=
  call.Linked G hist d ∧
  match call with
  | .delete self name => ∀ k, lookup name (entries (G.node d (self.inodeId G.fs)).data) = some k →
      G.Releases d (self.inodeId G.fs) k
  | _ => True

theorem Names.lookup_eq (hn : Names G d dir i k name) :
    lookup name (entries (G.node d dir).data) = some k := by
  rw [← hn.number]
  refine lookup_of_mem hn.distinct ?_ hn.name_eq
  have hi : i < (entries (G.node d dir).data).length := by
    rw [length_entries]
    exact hn.lt
  rw [← getElem_entries hi]
  exact List.getElem_mem hi

theorem Deleted.tight (h : Deleted G d d' dir i k) (hn : Names G d dir i k name)
    (hcore : Core G (G.slot d) d) (hdir : dir < G.slots) (hlive : G.live d dir = true)
    (hsmall : (G.node d dir).data.length / 32 ≤ 433) (hrel : G.Releases d dir k)
    (ht : Tight G d) : Tight G d' := by
  refine ⟨(h.allOwned_iff hn hcore hdir hlive hsmall ht.owner).mpr hrel, ?_⟩
  intro j hj hjl
  rw [h.live_eq hj] at hjl
  by_cases hjk : j = k
  · subst hjk
    apply size_of_owned_nil (d := d') (h.core.top j hj)
    obtain ⟨kept, dropped, rest, hparts⟩ := hn.parts hsmall
    by_cases hjd : j = dir
    · subst hjd
      have hone : (G.node d j).data.length / 32 = 1 := by
        rcases hrel.2 with hnil | ⟨_, hone⟩
        · have hzero := size_of_owned_nil (hcore.top j hj) hnil
          have hsize := hn.listed.size_eq
          have hlt := hn.lt
          omega
        · rwa [length_entries] at hone
      rw [h.owned, hparts.kept_eq, hparts.kept_nil.mpr hone]
    · rw [(h.same j hj hjd).2]
      exact hrel.2.resolve_right fun hno => hjd hno.1
  · rw [if_neg hjk] at hjl
    have hjd : j ≠ dir := by
      intro heq
      rw [heq, hlive] at hjl
      exact absurd hjl (by simp)
    rw [(h.same j hj hjd).1]
    exact ht.spare j hj hjl

theorem Run.leakless {d₀ : Disk} {hist : History} {s : System}
    (h : Run G (Call.Leakless G) d₀ hist s) :
    Kempt G s.cache.content s.inodes ∧ Tight G s.cache.content := by
  refine (h.induct (P := fun _ d inodes => Kempt G d inodes ∧ Tight G d)
    (fun _ hf => ⟨hf.kempt, hf.tight⟩) ?_).2.2
  rintro hist d inodes call reply d' ⟨hk, ht⟩ hmem ⟨hok, hrel⟩ hrun
  refine ⟨hk.step hmem hok hrun, ?_⟩
  obtain ⟨hlive, hproper, hcall⟩ := hok
  have hplain : call.Plain → Tight G d' := by
    intro hp
    have hspec := call_spec (hk.known hmem hlive) (List.mem_singleton_self _) hp
    exact (wp_result hspec hrun).tight ht
  cases call with
  | delete self name =>
    obtain ⟨dir, hdir, hself⟩ := hk.handles self hmem
    subst hself
    have hdel : DeleteOk G d ((G.handle dir).inodeId G.fs) name := hcall
    have hrel' : ∀ k, lookup name (entries (G.node d ((G.handle dir).inodeId G.fs)).data) = some k →
      G.Releases d ((G.handle dir).inodeId G.fs) k := hrel
    rw [Geometry.inodeId_handle] at hdel hrel'
    obtain ⟨_, i, k, hn, hd⟩ := wp_result (serve_delete hk hdir hdel) hrun
    have hsmall := hdel.small
    rw [length_entries] at hsmall
    rw [Call.self, Geometry.inodeId_handle, image_live hdir] at hlive
    exact hd.tight hn hk.sound.core hdir hlive hsmall (hrel' k hn.lookup_eq) ht
  | create self name => exact hplain hcall
  | createDir self name => exact hplain hcall
  | setDefaultDirent self parent => exact hplain hcall
  | writeAt self off buf => exact hplain hcall
  | readAt self off buf => exact hplain hcall
  | clear self => exact hplain hcall
  | find self name => exact hplain hcall

/-- **Deleting and ownership.**  In a run whose deletions all free an inode without blocks, in a
directory of at most 432 entries, every marked block has an owner.  In every state of such a run, after
a deletion from a directory of at most 433 entries every marked block has an owner iff the deletion is
of this kind. -/
theorem delete_keeps_blocks_owned {d₀ : Disk} {hist : History} {s : System}
    (h : Run G (Call.Leakless G) d₀ hist s) :
    G.AllOwned s.cache.content ∧
    ∀ dir name k, G.handle dir ∈ s.inodes →
      (Call.delete (G.handle dir) name).Linked G hist s.cache.content →
      lookup name (entries (G.node s.cache.content dir).data) = some k →
      ∃ c, exec cacheMachine ((Call.delete (G.handle dir) name).prog s.fs) s.cache = .ok (.unit, c) ∧
        (G.AllOwned c.content ↔ G.Releases s.cache.content dir k) := by
  obtain ⟨hk, ht⟩ := h.leakless
  obtain ⟨hfs, hp⟩ := h.presents
  refine ⟨ht.owner, ?_⟩
  intro dir name k hmem hok hlookup
  obtain ⟨id, hid, heq⟩ := hk.handles _ hmem
  have hdir : dir < G.slots := by rwa [Geometry.handle_inj heq]
  obtain ⟨hlive, _, hcall⟩ := hok
  have hdel : DeleteOk G s.cache.content ((G.handle dir).inodeId G.fs) name := hcall
  rw [Geometry.inodeId_handle] at hdel
  rw [Call.self, Geometry.inodeId_handle, image_live hdir] at hlive
  obtain ⟨reply, d', hrun, hreply, i, k', hn, hd⟩ := wp_returns (serve_delete hk hdir hdel)
  obtain ⟨c, hexec, hc⟩ := exec_returns hp hrun
  have hkk : k' = k := Option.some.inj (hn.lookup_eq.symm.trans hlookup)
  have hsmall := hdel.small
  rw [length_entries] at hsmall
  subst hreply hkk
  refine ⟨c, by rw [hfs]; exact hexec, ?_⟩
  rw [hc.content_eq]
  exact hd.allOwned_iff hn hk.sound.core hdir hlive hsmall ht.owner

/-- A run that creates an empty file and deletes it. -/
theorem delete_keeps_blocks_owned_empty_file : ∃ hist s,
    Run .efsTest (Call.Leakless .efsTest) (fun _ => Block.zero) hist s ∧ hist.length = 2 ∧
    Geometry.efsTest.AllOwned s.cache.content := by
  have hrel : ∀ k,
      lookup "a" (entries (Geometry.efsTest.node (diskAfter .efsTest fileHist) 0).data) = some k →
      Geometry.efsTest.Releases (diskAfter .efsTest fileHist) 0 k := by
    obtain ⟨hnode, _, hnil⟩ := file_nodes
    have hone : lookup "a" (entries (DirEntry.make "a" 1).asBytes) = some 1 := by decide +kernel
    intro k hk
    rw [hnode] at hk
    cases hone.symm.trans hk
    exact ⟨by rw [hnode]; decide +kernel, Or.inl hnil⟩
  obtain ⟨hstart, hmem, hlinked, hout⟩ := linked_file
  obtain ⟨s, hrun, _⟩ := exists_play _ (Call.Leakless .efsTest)
    ((.delete (Geometry.efsTest.handle 0) "a", .unit) :: fileHist)
    ⟨⟨trivial, hmem, ⟨hlinked, trivial⟩, hout⟩, by decide, ⟨linked_delete_file, hrel⟩, by decide +kernel⟩
  exact ⟨_, s, hrun, rfl, (delete_keeps_blocks_owned hrun).1⟩

/-- **A block is lost.**  A file with one byte is deleted; its block stays marked and nobody owns it. -/
theorem delete_leaks_block : ∃ hist s c,
    Run .efsTest (Call.Roomed .efsTest) (fun _ => Block.zero) hist s ∧
    Geometry.efsTest.AllOwned s.cache.content ∧
    exec cacheMachine ((Call.delete (Geometry.efsTest.handle 0) "a").prog s.fs) s.cache =
      .ok (.unit, c) ∧
    ¬ Geometry.efsTest.AllOwned c.content := by
  obtain ⟨s, hrun, hfs, hp⟩ := exists_one_byte_run
  obtain ⟨hsound, _, htight, _⟩ := hrun.served
  rw [hp.content_eq] at hsound htight
  obtain ⟨hnode, hlive, hlive₁, howned⟩ : Geometry.efsTest.node (diskAfter .efsTest byteHist) 0 =
        ⟨.directory, (DirEntry.make "a" 1).asBytes⟩ ∧
      Geometry.efsTest.live (diskAfter .efsTest byteHist) 0 = true ∧
      (Geometry.efsTest.image (diskAfter .efsTest byteHist)).live 1 = true ∧
      (Geometry.efsTest.slot (diskAfter .efsTest byteHist) 1).owned (diskAfter .efsTest byteHist) ≠ [] := by
    decide +kernel
  have hn : Names .efsTest (diskAfter .efsTest byteHist) 0 0 1 "a" := by
    refine ⟨?_, ?_, ?_, ?_, ?_, ?_, ?_, by decide, hlive₁⟩ <;> rw [hnode] <;> decide +kernel
  have hsmall : (Geometry.efsTest.node (diskAfter .efsTest byteHist) 0).data.length / 32 ≤ 433 := by
    rw [hnode]
    decide +kernel
  have hrel : ¬ Geometry.efsTest.Releases (diskAfter .efsTest byteHist) 0 1 := by
    rintro ⟨_, hnil | ⟨hno, _⟩⟩
    · exact howned hnil
    · exact absurd hno (by decide)
  have hdelete : dwp ((Call.delete (Geometry.efsTest.handle 0) "a").prog Geometry.efsTest.fs) []
      (diskAfter .efsTest byteHist) (fun reply d' => reply = .unit ∧
        Deleted .efsTest (diskAfter .efsTest byteHist) d' 0 0 1) fun _ => False :=
    wp_bind'.mpr (wp_mono (delete_op hsound.core (by decide) hn hsmall)
      (fun _ d' hd => wp_pure'.mpr ⟨rfl, hd⟩) fun _ hno => hno)
  obtain ⟨reply, d', hdrun, hreply, hd⟩ := wp_returns hdelete
  obtain ⟨c, hexec, hc⟩ := exec_returns hp hdrun
  subst hreply
  refine ⟨_, s, c, hrun, by rw [hp.content_eq]; exact htight.owner, by rw [hfs]; exact hexec, ?_⟩
  rw [hc.content_eq, hd.allOwned_iff hn hsound.core (by decide) hlive hsmall htight.owner]
  exact hrel

end LemonCore.EasyFs
