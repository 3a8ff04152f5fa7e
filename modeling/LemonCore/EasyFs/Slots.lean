import LemonCore.EasyFs.Allocation
import LemonCore.EasyFs.FileData

/-!
# The table of disk inodes

The inode area holds `G.slots` disk inodes.  `Core` is what ties them to the data bitmap and the data
area: no block belongs to two inodes or twice to one, blocks that belong to an inode are marked, and
free blocks of the data area are zero.

An operation works on one inode while the others stay where they are.  `Changes` says what it may
have done, and `Changes.of_slot` when one inode may take the place of another; `grow_spec`,
`write_spec` and `clear_spec` are the three ways an inode changes, with the bytes it has afterwards.
-/

namespace LemonCore.EasyFs

open Foundation.BorrowProgram

variable {newSize : ℕ} {ino : DiskInode}

/-! ### Slots -/

namespace Geometry

variable (G : Geometry)

/-- A block of the inode area. -/
def InArea (b : ℕ) : Prop := 1 + G.inodeBlocks ≤ b ∧ b < 1 + 1025 * G.inodeBlocks

/-- Where disk inode `id` is. -/
def pos (id : ℕ) : ℕ × ℕ := G.fs.diskInodePosition id

/-- The handle of disk inode `id`. -/
def handle (id : ℕ) : Inode := .ofPosition (G.pos id)

/-- The disk inodes on a disk. -/
def slot (d : Disk) (id : ℕ) : DiskInode := .ofBlock (d (G.pos id).1) (G.pos id).2

/-- The disk with disk inode `id` replaced. -/
def put (d : Disk) (id : ℕ) (ino : DiskInode) : Disk :=
  Function.update d (G.pos id).1 (DiskInode.store (d (G.pos id).1) (G.pos id).2 ino)

theorem pos_eq (id : ℕ) : G.pos id = (1 + G.inodeBlocks + id / 4, id % 4 * 128) := by
  show (G.fs.inodeAreaStartBlock + id / 4, id % 4 * 128) = _
  rw [G.inodeAreaStart_eq]

variable {G} {d d' : Disk} {id j b : ℕ}

theorem pos_inArea (h : id < G.slots) : G.InArea (G.pos id).1 := by
  rw [slots] at h
  rw [pos_eq]
  exact ⟨by omega, by omega⟩

theorem inodeId_handle (id : ℕ) : (G.handle id).inodeId G.fs = id := by
  show (G.fs.inodeAreaStartBlock + id / 4 - G.fs.inodeAreaStartBlock) * 4 + id % 4 * 128 / 128 = id
  omega

theorem handle_inj (h : G.handle id = G.handle j) : id = j := by
  rw [← inodeId_handle id, h, inodeId_handle]

theorem slot_congr (h : ∀ b, G.InArea b → d' b = d b) (hid : id < G.slots) :
    G.slot d' id = G.slot d id := by
  rw [slot, slot, h _ (pos_inArea hid)]

theorem slot_fits (d : Disk) (id : ℕ) : (G.slot d id).Fits := DiskInode.ofBlock_fits _ _

theorem slot_put_same {ino : DiskInode} (h : ino.Fits) : G.slot (G.put d id ino) id = ino := by
  rw [slot, put, Function.update_self]
  exact DiskInode.ofBlock_store_same (by rw [pos_eq]; omega) h

theorem slot_put_other {ino : DiskInode} (h : j ≠ id) : G.slot (G.put d id ino) j = G.slot d j := by
  rw [slot, put, slot]
  by_cases hb : (G.pos j).1 = (G.pos id).1
  · rw [hb, Function.update_self]
    rw [pos_eq, pos_eq] at hb
    apply DiskInode.ofBlock_store_other
    · rw [pos_eq]; omega
    · rw [pos_eq, pos_eq]
      simp only at hb ⊢
      omega
  · rw [Function.update_of_ne hb]

theorem put_outside {ino : DiskInode} (hid : id < G.slots) (hb : ¬ G.InArea b) :
    G.put d id ino b = d b := by
  apply Function.update_of_ne
  intro heq
  exact hb (heq ▸ pos_inArea hid)

theorem InPool.not_inArea (h : G.InPool b) : ¬ G.InArea b := by
  have h1 := G.dataStart_eq
  have h2 := h.1
  rw [InArea]
  omega

theorem InBitmap.not_inArea (h : G.InBitmap b) : ¬ G.InArea b := by
  have h1 := G.dataBitmap_start
  have h2 := h.1
  rw [InArea]
  omega

theorem InInodeBitmap.outside (h : G.InInodeBitmap b) :
    ¬ G.InArea b ∧ ¬ G.InBitmap b ∧ ¬ G.InPool b := by
  have h1 := G.dataBitmap_start
  have h2 := G.dataStart_eq
  have h3 := h.2
  rw [InArea, InBitmap, InPool]
  omega

theorem InArea.outside (h : G.InArea b) : ¬ G.InInodeBitmap b ∧ ¬ G.InBitmap b ∧ ¬ G.InPool b := by
  have h1 := G.dataBitmap_start
  have h2 := G.dataStart_eq
  have h3 := h.1
  have h4 := h.2
  rw [InInodeBitmap, InBitmap, InPool]
  omega

end Geometry

/-! ### The invariant -/

/-- A table of disk inodes. -/
abbrev Table : Type := ℕ → DiskInode

/-- The disk inodes, the data bitmap and the data area fit together. -/
structure Core (G : Geometry) (tab : Table) (d : Disk) : Prop where
  fits : ∀ j, j < G.slots → (tab j).Fits
  top : ∀ j, j < G.slots → (tab j).leafCount ≤ indirect3Bound
  nodup : ∀ j, j < G.slots → ((tab j).owned d).Nodup
  apart : ∀ i j, i < G.slots → j < G.slots → i ≠ j →
    ∀ b ∈ (tab i).owned d, b ∉ (tab j).owned d
  used : ∀ j, j < G.slots → ∀ b ∈ (tab j).owned d, G.InPool b ∧ G.used d b = true
  zero : ∀ b, G.dataStart ≤ b → b < G.total → G.used d b = false → d b = Block.zero

variable {G : Geometry} {tab tab' tab'' : Table} {d d' d'' : Disk} {id : ℕ} {held : List ℕ}

theorem Core.owned_congr (h : Core G tab d) {j : ℕ} (hj : j < G.slots)
    (hd : ∀ b ∈ (tab j).owned d, d' b = d b) :
    (tab j).owned d' = (tab j).owned d ∧ ∀ p, p < 512 * (tab j).leafCount →
      (tab j).byteAt d' p = (tab j).byteAt d p :=
  EasyFs.owned_congr (h.top j hj) hd

theorem Core.congr (h : Core G tab d) (htab : ∀ j, j < G.slots → tab' j = tab j)
    (hd : ∀ b, ¬ G.InArea b → ¬ G.InInodeBitmap b → d' b = d b) : Core G tab' d' := by
  have hpool : ∀ b, G.InPool b → d' b = d b := fun b hb =>
    hd b hb.not_inArea fun hi => hi.outside.2.2 hb
  have hused : ∀ b, G.InPool b → G.used d' b = G.used d b := fun b hb =>
    Geometry.used_congr (fun c hc => hd c hc.not_inArea fun hi => hi.outside.2.1 hc) hb
  have howned : ∀ j, j < G.slots → (tab' j).owned d' = (tab j).owned d := by
    intro j hj
    rw [htab j hj]
    exact (h.owned_congr hj fun b hb => hpool b (h.used j hj b hb).1).1
  refine ⟨?_, ?_, ?_, ?_, ?_, ?_⟩
  · intro j hj
    rw [htab j hj]
    exact h.fits j hj
  · intro j hj
    rw [htab j hj]
    exact h.top j hj
  · intro j hj
    rw [howned j hj]
    exact h.nodup j hj
  · intro i j hi hj hne b hb
    rw [howned i hi] at hb
    rw [howned j hj]
    exact h.apart i j hi hj hne b hb
  · intro j hj b hb
    rw [howned j hj] at hb
    obtain ⟨h1, h2⟩ := h.used j hj b hb
    exact ⟨h1, (hused b h1).trans h2⟩
  · intro b h1 h2 h3
    have hb := Geometry.inPool_of_lt h1 h2
    rw [hused b hb] at h3
    rw [hpool b hb]
    exact h.zero b h1 h2 h3

/-! ### What an operation on one inode may do -/

/-- Inode `id` has changed; the other inodes, their blocks and everything outside the data areas are
as before. -/
structure Changes (G : Geometry) (id : ℕ) (tab : Table) (d : Disk) (tab' : Table) (d' : Disk) :
    Prop where
  core : Core G tab' d'
  same : ∀ j, j ≠ id → tab' j = tab j
  keep : ∀ j, j < G.slots → j ≠ id → ∀ b ∈ (tab j).owned d, d' b = d b
  outside : ∀ b, ¬ G.InBitmap b → ¬ G.InPool b → d' b = d b

/-- No block was lost: one that is marked now belongs to `id`, or it was marked and did not belong
to `id`. -/
def Tidy (G : Geometry) (id : ℕ) (tab : Table) (d : Disk) (tab' : Table) (d' : Disk) : Prop :=
  ∀ b, G.InPool b → G.used d' b = true →
    b ∈ (tab' id).owned d' ∨ G.used d b = true ∧ b ∉ (tab id).owned d

theorem Changes.refl (h : Core G tab d) : Changes G id tab d tab d :=
  ⟨h, fun _ _ => rfl, fun _ _ _ _ _ => rfl, fun _ _ _ => rfl⟩

theorem Tidy.refl : Tidy G id tab d tab d := by
  intro b _ hu
  by_cases hb : b ∈ (tab id).owned d
  · exact Or.inl hb
  · exact Or.inr ⟨hu, hb⟩

theorem Changes.owned_eq (h : Changes G id tab d tab' d') (hcore : Core G tab d) {j : ℕ}
    (hj : j < G.slots) (hne : j ≠ id) : (tab' j).owned d' = (tab j).owned d := by
  rw [h.same j hne]
  exact (hcore.owned_congr hj (h.keep j hj hne)).1

theorem Changes.trans (hcore : Core G tab d) (h₁ : Changes G id tab d tab' d')
    (h₂ : Changes G id tab' d' tab'' d'') : Changes G id tab d tab'' d'' := by
  refine ⟨h₂.core, ?_, ?_, ?_⟩
  · intro j hj
    rw [h₂.same j hj, h₁.same j hj]
  · intro j hj hne b hb
    rw [h₂.keep j hj hne b (by rw [h₁.owned_eq hcore hj hne]; exact hb), h₁.keep j hj hne b hb]
  · intro b h1 h2
    rw [h₂.outside b h1 h2, h₁.outside b h1 h2]

theorem Tidy.trans (h₁ : Tidy G id tab d tab' d') (h₂ : Tidy G id tab' d' tab'' d'') :
    Tidy G id tab d tab'' d'' := by
  intro b hb hu
  rcases h₂ b hb hu with h | ⟨hu, hn⟩
  · exact Or.inl h
  · rcases h₁ b hb hu with h | h
    · exact absurd h hn
    · exact Or.inr h

/-- **One inode for another.**  The new inode takes over blocks of the old one and blocks that were
free; the rest of the pool stays as it is. -/
theorem Changes.of_slot (hcore : Core G tab d) (hid : id < G.slots) {ino' : DiskInode}
    (hfits : ino'.Fits) (htop : ino'.leafCount ≤ indirect3Bound) (hnd : (ino'.owned d').Nodup)
    (hnew : ∀ b ∈ ino'.owned d', G.InPool b ∧ G.used d' b = true ∧
      (b ∈ (tab id).owned d ∨ G.used d b = false))
    (hgone : ∀ b ∈ (tab id).owned d, b ∉ ino'.owned d' → b < G.total → G.used d' b = false →
      d' b = Block.zero)
    (hrest : ∀ b, G.InPool b → b ∉ ino'.owned d' → b ∉ (tab id).owned d →
      d' b = d b ∧ G.used d' b = G.used d b)
    (hout : ∀ b, ¬ G.InBitmap b → ¬ G.InPool b → d' b = d b) :
    Changes G id tab d (Function.update tab id ino') d' := by
  -- a block of another inode is neither new nor old here
  have hother : ∀ j, j < G.slots → j ≠ id → ∀ b ∈ (tab j).owned d,
      b ∉ ino'.owned d' ∧ b ∉ (tab id).owned d := by
    intro j hj hne b hb
    have hapart := hcore.apart j id hj hid hne b hb
    refine ⟨fun hn => ?_, hapart⟩
    rcases (hnew b hn).2.2 with h | h
    · exact hapart h
    · rw [(hcore.used j hj b hb).2] at h
      exact absurd h (by simp)
  have hkeep : ∀ j, j < G.slots → j ≠ id → ∀ b ∈ (tab j).owned d,
      d' b = d b ∧ G.used d' b = G.used d b := fun j hj hne b hb =>
    hrest b (hcore.used j hj b hb).1 (hother j hj hne b hb).1 (hother j hj hne b hb).2
  have howned : ∀ j, j < G.slots → j ≠ id → (tab j).owned d' = (tab j).owned d :=
    fun j hj hne => (hcore.owned_congr hj fun b hb => (hkeep j hj hne b hb).1).1
  refine ⟨⟨?_, ?_, ?_, ?_, ?_, ?_⟩, fun j hj => Function.update_of_ne hj _ _,
    fun j hj hne b hb => (hkeep j hj hne b hb).1, hout⟩
  · intro j hj
    by_cases hji : j = id
    · rw [hji, Function.update_self]
      exact hfits
    · rw [Function.update_of_ne hji]
      exact hcore.fits j hj
  · intro j hj
    by_cases hji : j = id
    · rw [hji, Function.update_self]
      exact htop
    · rw [Function.update_of_ne hji]
      exact hcore.top j hj
  · intro j hj
    by_cases hji : j = id
    · rw [hji, Function.update_self]
      exact hnd
    · rw [Function.update_of_ne hji, howned j hj hji]
      exact hcore.nodup j hj
  · intro i j hi hj hij b hb
    by_cases hii : i = id
    · have hji : j ≠ id := fun h => hij (hii.trans h.symm)
      rw [hii, Function.update_self] at hb
      rw [Function.update_of_ne hji, howned j hj hji]
      exact fun hbj => (hother j hj hji b hbj).1 hb
    · rw [Function.update_of_ne hii, howned i hi hii] at hb
      by_cases hji : j = id
      · rw [hji, Function.update_self]
        exact (hother i hi hii b hb).1
      · rw [Function.update_of_ne hji, howned j hj hji]
        exact hcore.apart i j hi hj hij b hb
  · intro j hj b hb
    by_cases hji : j = id
    · rw [hji, Function.update_self] at hb
      exact ⟨(hnew b hb).1, (hnew b hb).2.1⟩
    · rw [Function.update_of_ne hji, howned j hj hji] at hb
      obtain ⟨h1, h2⟩ := hcore.used j hj b hb
      exact ⟨h1, (hkeep j hj hji b hb).2.trans h2⟩
  · intro b h1 h2 h3
    by_cases hbn : b ∈ ino'.owned d'
    · rw [(hnew b hbn).2.1] at h3
      exact absurd h3 (by simp)
    by_cases hbo : b ∈ (tab id).owned d
    · exact hgone b hbo hbn h2 h3
    · obtain ⟨h4, h5⟩ := hrest b (Geometry.inPool_of_lt h1 h2) hbn hbo
      rw [h4]
      exact hcore.zero b h1 h2 (h5 ▸ h3)

/-- The blocks held during an operation are aside from the data areas. -/
structure Aside (G : Geometry) (held : List ℕ) : Prop where
  notMem : ∀ b, G.InBitmap b ∨ G.InPool b → b ∉ held
  room : held.length + 3 ≤ blockCacheSize

theorem Aside.bitmapFree (h : Aside G held) : BitmapFree G held :=
  ⟨fun b hb => h.notMem b (Or.inl hb), by have := h.room; omega⟩

theorem Core.inodeOk (hcore : Core G tab d) (hid : id < G.slots) (hheld : Aside G held) :
    InodeOk d held (tab id) :=
  ⟨hcore.top id hid, hcore.nodup id hid,
    fun b hb => hheld.notMem b (Or.inr (hcore.used id hid b hb).1)⟩

/-! ### Growing -/

theorem Changes.grown {d₁ : Disk} {ino' : DiskInode} {v : List ℕ}
    (hcore : Core G tab d) (hid : id < G.slots) (hal : Allocated G d d₁ v)
    (hgrown : Grown d₁ d' (tab id) ino' newSize v) (htop : ino'.leafCount ≤ indirect3Bound) :
    Changes G id tab d (Function.update tab id ino') d' ∧
      Tidy G id tab d (Function.update tab id ino') d' := by
  have howned : (tab id).owned d₁ = (tab id).owned d :=
    (hcore.owned_congr hid fun b hb =>
      hal.frame b (Geometry.not_inBitmap_of_inPool (hcore.used id hid b hb).1)).1
  have hperm := hgrown.perm
  rw [howned] at hperm
  have hmem : ∀ b, b ∈ ino'.owned d' ↔ b ∈ (tab id).owned d ∨ b ∈ v := by
    intro b
    rw [hperm.mem_iff, List.mem_append]
  have hpool : ∀ b ∈ ino'.owned d', G.InPool b := fun b hb =>
    ((hmem b).mp hb).elim (fun h => (hcore.used id hid b h).1) fun h => (hal.pool b h).1
  have hframe : ∀ b, ¬ G.InBitmap b → b ∉ ino'.owned d' → d' b = d b := by
    intro b h1 h2
    rw [hgrown.frame b fun hi => h2 (index_subset htop hi), hal.frame b h1]
  have hused : ∀ b, G.InPool b → G.used d' b = (decide (b ∈ v) || G.used d b) := by
    intro b hb
    rw [← hal.used b hb]
    refine Geometry.used_congr (fun c hc => hgrown.frame c fun hi => ?_) hb
    exact Geometry.not_inBitmap_of_inPool (hpool c (index_subset htop hi)) hc
  refine ⟨Changes.of_slot hcore hid hgrown.fits htop ?_ ?_ ?_ ?_ ?_, ?_⟩
  · refine hperm.nodup_iff.mpr (List.nodup_append.mpr ⟨hcore.nodup id hid, hal.nodup, ?_⟩)
    intro a ha b hb heq
    have hu := (hcore.used id hid a ha).2
    rw [heq, hal.fresh b hb] at hu
    exact absurd hu (by simp)
  · intro b hb
    refine ⟨hpool b hb, ?_, ?_⟩
    · rw [hused b (hpool b hb)]
      rcases (hmem b).mp hb with h | h
      · rw [(hcore.used id hid b h).2, Bool.or_true]
      · rw [decide_eq_true h, Bool.true_or]
    · exact ((hmem b).mp hb).imp_right (hal.fresh b)
  · intro b hb hn
    exact absurd ((hmem b).mpr (Or.inl hb)) hn
  · intro b hb hn _
    refine ⟨hframe b (Geometry.not_inBitmap_of_inPool hb) hn, ?_⟩
    rw [hused b hb, decide_eq_false fun h => hn ((hmem b).mpr (Or.inr h)), Bool.false_or]
  · intro b h1 h2
    exact hframe b h1 fun hb => h2 (hpool b hb)
  · intro b hb hu
    rw [Function.update_self]
    rw [hused b hb, Bool.or_eq_true, decide_eq_true_eq] at hu
    by_cases hbo : b ∈ ino'.owned d'
    · exact Or.inl hbo
    · refine Or.inr ⟨hu.resolve_left fun h => hbo ((hmem b).mpr (Or.inr h)), ?_⟩
      exact fun h => hbo ((hmem b).mpr (Or.inl h))

/-- `INDIRECT3_BOUND * BLOCK_SIZE`: the size that no file exceeds. -/
def maxFileSize : ℕ := indirect3Bound * blockSize

theorem countDataBlock_le {size : ℕ} (h : size ≤ maxFileSize) :
    DiskInode.countDataBlock size ≤ indirect3Bound := by
  rw [maxFileSize, blockSize] at h
  rw [DiskInode.countDataBlock, blockSize]
  omega

theorem maxFileSize_lt : maxFileSize < 2 ^ 32 := by
  rw [maxFileSize, indirect3Bound, blockSize]
  norm_num

theorem size_le_of_leafCount (h : ino.leafCount ≤ indirect3Bound) :
    ino.size ≤ maxFileSize := by
  rw [DiskInode.leafCount, DiskInode.countDataBlock, blockSize] at h
  rw [maxFileSize, blockSize]
  omega

/-- The blocks that growing to `newSize` takes. -/
def DiskInode.growth (ino : DiskInode) (newSize : ℕ) : ℕ :=
  DiskInode.countTotalBlock newSize - DiskInode.countTotalBlock ino.size

theorem length_of_growth (hle : ino.size ≤ newSize)
    (htop : newSize ≤ maxFileSize) {v : List ℕ} (hv : v.length = ino.growth newSize) :
    v.length + blocksOf ino.leafCount = blocksOf (DiskInode.countDataBlock newSize) := by
  have hb : indirect3Bound = 2113691 := by rw [indirect3Bound]
  have hmono : DiskInode.countDataBlock ino.size ≤ DiskInode.countDataBlock newSize :=
    Nat.div_le_div_right (by omega)
  have h1 := countDataBlock_le htop
  rw [hv, DiskInode.growth, countTotalBlock_eq (by omega), countTotalBlock_eq (by omega)]
  exact Nat.sub_add_cancel (blocksOf_mono hmono)

theorem countTotalBlock_mono {a b : ℕ} (h : a ≤ b) (hb : b ≤ maxFileSize) :
    DiskInode.countTotalBlock a ≤ DiskInode.countTotalBlock b := by
  have hbound : indirect3Bound = 2113691 := by rw [indirect3Bound]
  have hmono : DiskInode.countDataBlock a ≤ DiskInode.countDataBlock b :=
    Nat.div_le_div_right (Nat.add_le_add_right h _)
  have htop := countDataBlock_le hb
  rw [countTotalBlock_eq (by omega), countTotalBlock_eq (by omega)]
  exact blocksOf_mono hmono

theorem growth_one_block {n : ℕ} (h : ino.size = 0) (hn : DiskInode.countDataBlock n = 1) :
    ino.growth n = 1 := by
  rw [DiskInode.growth, h, countTotalBlock_def n 1 hn, countTotalBlock_def 0 0 rfl]
  rfl

/-- The bytes of a grown inode: the old ones stay, and the new blocks are zero if they are from the
data area. -/
structure GrownBytes (d : Disk) (ino : DiskInode) (d' : Disk) (ino' : DiskInode) (room : Prop) :
    Prop where
  old : ∀ p, p < 512 * ino.leafCount → ino'.byteAt d' p = ino.byteAt d p
  new : room → ∀ p, 512 * ino.leafCount ≤ p → p < 512 * ino'.leafCount → ino'.byteAt d' p = 0

theorem GrownBytes.of_grown {d₁ : Disk} {ino' : DiskInode} {v : List ℕ} {room : Prop}
    (hcore : Core G tab d) (hid : id < G.slots) (hal : Allocated G d d₁ v)
    (hgrown : Grown d₁ d' (tab id) ino' newSize v) (htop : ino'.leafCount ≤ indirect3Bound)
    (hnd : (ino'.owned d').Nodup) (hle : (tab id).leafCount ≤ ino'.leafCount)
    (harea : room → ∀ b ∈ v, b < G.total) : GrownBytes d (tab id) d' ino' room := by
  have hframe : ∀ b ∈ (tab id).owned d, d₁ b = d b := fun b hb =>
    hal.frame b (Geometry.not_inBitmap_of_inPool (hcore.used id hid b hb).1)
  obtain ⟨howned, hbytes⟩ := hcore.owned_congr hid hframe
  have hold := hcore.top id hid
  -- a leaf is never an index block, so its content is the one from before the growth
  have hleaf : ∀ i, i < ino'.leafCount → d' (ino'.leaf d' i) = d₁ (ino'.leaf d' i) := fun i hi =>
    hgrown.frame _ (leaf_notMem_index htop hnd hi)
  refine ⟨?_, ?_⟩
  · intro p hp
    have hi : p / 512 < (tab id).leafCount := by omega
    rw [← hbytes p hp, DiskInode.byteAt, hleaf _ (by omega),
      hgrown.leaf _ hi (lt_of_lt_of_le hi hold), DiskInode.byteAt]
  · intro hroom p hp hp'
    have hi : p / 512 < ino'.leafCount := by omega
    -- a new leaf is no old leaf and no old index block
    have hv : ino'.leaf d' (p / 512) ∈ v := by
      have hmem := hgrown.perm.mem_iff.mp (leaf_mem_owned htop hi)
      refine (List.mem_append.mp hmem).resolve_left fun hmem => ?_
      rcases List.mem_append.mp ((owned_perm hold).mem_iff.mp hmem) with h | h
      · exact leaf_notMem_index htop hnd hi (hgrown.index _ h)
      · obtain ⟨i, hir, heq⟩ := List.mem_map.mp h
        have hlt := List.mem_range.mp hir
        rw [← hgrown.leaf i hlt (lt_of_lt_of_le hlt hold)] at heq
        have := leaf_inj htop hnd (lt_of_lt_of_le hlt hle) hi heq
        omega
    have hpool := (hal.pool _ hv).1
    rw [DiskInode.byteAt, hleaf _ hi, hal.frame _ (Geometry.not_inBitmap_of_inPool hpool),
      hcore.zero _ hpool.1 (harea hroom _ hv) (hal.fresh _ hv), Block.byte_zero]

/-- Inode `id` has grown to `newSize`, or was larger before. -/
structure Grew (G : Geometry) (id : ℕ) (tab : Table) (d : Disk) (newSize : ℕ) (ino' : DiskInode)
    (d' : Disk) : Prop where
  kind : ino'.kind = (tab id).kind
  size : ino'.size = max (tab id).size newSize
  changes : Changes G id tab d (Function.update tab id ino') d'
  tidy : Tidy G id tab d (Function.update tab id ino') d'
  bytes : GrownBytes d (tab id) d' ino' ((tab id).growth newSize ≤ (G.free d).card)
  card : (tab id).growth newSize ≤ (G.free d).card →
    (G.free d).card ≤ (G.free d').card + (tab id).growth newSize

theorem Grew.refl (hcore : Core G tab d) {newSize : ℕ} (h : newSize < (tab id).size) :
    Grew G id tab d newSize (tab id) d := by
  refine ⟨rfl, by omega, ?_, ?_, ⟨fun _ _ => rfl, fun _ p h1 h2 => absurd h1 (by omega)⟩,
    fun _ => Nat.le_add_right _ _⟩
  · rw [Function.update_eq_self]
    exact Changes.refl hcore
  · rw [Function.update_eq_self]
    exact Tidy.refl

/-- **Growing** an inode to `newSize`. -/
theorem grow_spec (hcore : Core G tab d) (hid : id < G.slots) (hheld : Aside G held) {newSize : ℕ}
    (hsize : newSize ≤ maxFileSize) :
    dwp (G.fs.increaseSize newSize (tab id)) held d
      (fun ino' d' => Grew G id tab d newSize ino' d')
      fun _ => ¬ (tab id).growth newSize ≤ (G.free d).card := by
  rw [EasyFileSystem.increaseSize]
  by_cases hlt : newSize < (tab id).size
  · rw [if_pos hlt]
    exact wp_pure'.mpr (Grew.refl hcore hlt)
  rw [if_neg hlt]
  have hle : (tab id).size ≤ newSize := Nat.not_lt.mp hlt
  refine wp_bind'.mpr (wp_bind'.mpr (wp_assert hle (wp_pure'.mpr ?_)))
  refine wp_bind'.mpr (wp_mono (allocBlocks_spec hheld.bitmapFree _) ?_ fun _ h => h)
  rintro v d₁ ⟨hlen, hal, harea⟩
  have hframe : ∀ b ∈ (tab id).owned d, d₁ b = d b := fun b hb =>
    hal.frame b (Geometry.not_inBitmap_of_inPool (hcore.used id hid b hb).1)
  have howned := (hcore.owned_congr hid hframe).1
  have hpre : IncreasePre d₁ held (tab id) newSize v := by
    refine ⟨?_, ?_, fun b hb => (hal.pool b hb).2, length_of_growth hle hsize hlen⟩
    · rw [howned]
      refine List.nodup_append.mpr ⟨hcore.nodup id hid, hal.nodup, ?_⟩
      intro a ha b hb heq
      have hu := (hcore.used id hid a ha).2
      rw [heq, hal.fresh b hb] at hu
      exact absurd hu (by simp)
    · rw [howned]
      intro b hb
      rcases List.mem_append.mp hb with h | h
      · exact hheld.notMem b (Or.inr (hcore.used id hid b h).1)
      · exact hheld.notMem b (Or.inr (hal.pool b h).1)
  refine wp_mono (increaseSize_spec hle (hcore.fits id hid) (lt_of_le_of_lt hsize maxFileSize_lt)
    hheld.room hpre) ?_ fun _ h => h.elim
  intro ino' d₂ hgrown
  have htop : ino'.leafCount ≤ indirect3Bound := by
    rw [DiskInode.leafCount, hgrown.size]
    exact countDataBlock_le hsize
  have hcount : (tab id).leafCount ≤ ino'.leafCount := by
    rw [DiskInode.leafCount, DiskInode.leafCount, hgrown.size]
    exact Nat.div_le_div_right (by omega)
  obtain ⟨hchanges, htidy⟩ := Changes.grown hcore hid hal hgrown htop
  have hnd := hchanges.core.nodup id hid
  rw [Function.update_self] at hnd
  refine ⟨hgrown.kind, by rw [hgrown.size]; omega, hchanges, htidy,
    GrownBytes.of_grown hcore hid hal hgrown htop hnd hcount harea, ?_⟩
  intro hroom
  have hcard := hal.card_free (harea hroom)
  have hfree : G.free d₁ = G.free d₂ := by
    refine Geometry.free_congr fun c hc => (hgrown.frame c fun hi => ?_).symm
    have hpool := (hchanges.core.used id hid c (by
      rw [Function.update_self]
      exact index_subset htop hi)).1
    exact Geometry.not_inBitmap_of_inPool hpool hc
  rw [hfree, hlen] at hcard
  exact hcard.ge

/-! ### Writing and clearing -/

/-- **Writing** inside an inode. -/
theorem write_spec (hcore : Core G tab d) (hid : id < G.slots) (hheld : Aside G held) (off : ℕ)
    {buf : List UInt8} (hne : buf ≠ []) (hfit : off + buf.length ≤ (tab id).size) :
    dwp ((tab id).writeAt off buf) held d
      (fun n d' => n = buf.length ∧ Changes G id tab d tab d' ∧ Tidy G id tab d tab d' ∧
        Written d d' (tab id) off buf ∧ G.free d' = G.free d) fun _ => False := by
  have hok := hcore.inodeOk hid hheld
  have hlen : held.length < blockCacheSize := hheld.bitmapFree.room
  refine wp_mono (writeAt_spec hok hlen hne hfit) ?_ fun _ h => h
  rintro n d' ⟨hn, hw⟩
  have howned := (hw.tree hok).1
  have hframe : ∀ b, b ∉ (tab id).owned d → d' b = d b := fun b hb =>
    hw.frame b fun i hi heq => hb (heq ▸ leaf_mem_owned hok.top hi)
  have hused : ∀ b, G.InPool b → G.used d' b = G.used d b := fun b hb =>
    Geometry.used_congr (fun c hc => hframe c fun ho =>
      Geometry.not_inBitmap_of_inPool (hcore.used id hid c ho).1 hc) hb
  have hchanges : Changes G id tab d (Function.update tab id (tab id)) d' :=
    Changes.of_slot hcore hid (hcore.fits id hid) hok.top
    (by rw [howned]; exact hok.nodup)
    (by
      intro b hb
      rw [howned] at hb
      obtain ⟨h1, h2⟩ := hcore.used id hid b hb
      exact ⟨h1, (hused b h1).trans h2, Or.inl hb⟩)
    (fun b hb hn => absurd (howned ▸ hb) hn)
    (fun b hb _ ho => ⟨hframe b ho, hused b hb⟩)
    (fun b _ hp => hframe b fun ho => hp (hcore.used id hid b ho).1)
  rw [Function.update_eq_self] at hchanges
  refine ⟨hn, hchanges, ?_, hw, Geometry.free_congr fun c hc => hframe c fun ho =>
    Geometry.not_inBitmap_of_inPool (hcore.used id hid c ho).1 hc⟩
  intro b hb hu
  rw [howned]
  rw [hused b hb] at hu
  by_cases ho : b ∈ (tab id).owned d
  · exact Or.inl ho
  · exact Or.inr ⟨hu, ho⟩

theorem owned_of_size_zero (h : ino.size = 0) (d : Disk) : ino.owned d = [] := by
  apply List.length_eq_zero_iff.mp
  rw [length_owned, DiskInode.leafCount, h, show DiskInode.countDataBlock 0 = 0 from rfl,
    blocksOf_eq (Nat.zero_le _)]
  rfl

/-- **Clearing**: `clear_size` with its assertion, and the blocks handed back. -/
theorem clear_spec (hcore : Core G tab d) (hid : id < G.slots) (hheld : Aside G held) :
    dwp (do
      let (ino, dropped) ← (tab id).clearSize
      Prog.assert (dropped.length = DiskInode.countTotalBlock (tab id).size) Panic.assertion
      G.fs.deallocBlocks dropped
      pure (ino, ()) : DiskProg (DiskInode × Unit)) held d
      (fun r d' => r.1.kind = (tab id).kind ∧ r.1.size = 0 ∧
        Changes G id tab d (Function.update tab id r.1) d' ∧
        Tidy G id tab d (Function.update tab id r.1) d') fun _ => False := by
  have hok := hcore.inodeOk hid hheld
  refine wp_bind'.mpr (wp_mono (clearSize_spec (hcore.fits id hid) hheld.room hok.nodup hok.free) ?_
    fun _ h => h)
  rintro o d₁ ⟨hd, hkind, hsize, hfits, hperm⟩
  subst hd
  have hb : indirect3Bound = 2113691 := by rw [indirect3Bound]
  have htop := hok.top
  refine wp_bind'.mpr (wp_assert ?_ ?_)
  · rw [hperm.length_eq, length_owned, countTotalBlock_eq (hb ▸ htop)]
    rfl
  have hdrop : ∀ b ∈ o.2, G.InPool b ∧ b ∉ held ∧ G.used d₁ b = true := by
    intro b hb
    have ho := hperm.mem_iff.mp hb
    obtain ⟨h1, h2⟩ := hcore.used id hid b ho
    exact ⟨h1, hok.free b ho, h2⟩
  refine wp_bind'.mpr (wp_mono (deallocBlocks_spec hheld.bitmapFree _ _
    (hperm.nodup_iff.mpr hok.nodup) hdrop) ?_ fun _ h => h)
  intro _ d₂ hfreed
  have hnil := owned_of_size_zero hsize
  have hchanges : Changes G id tab d₁ (Function.update tab id o.1) d₂ := Changes.of_slot hcore hid hfits
    (by rw [DiskInode.leafCount, hsize]; exact Nat.zero_le _)
    (by rw [hnil]; exact List.nodup_nil)
    (by rw [hnil]; exact fun b hb => absurd hb List.not_mem_nil)
    (fun b hb _ _ _ => hfreed.zero b (hperm.mem_iff.mpr hb))
    (by
      intro b hb _ ho
      have hn : b ∉ o.2 := fun h => ho (hperm.mem_iff.mp h)
      refine ⟨hfreed.frame b (Geometry.not_inBitmap_of_inPool hb) hn, ?_⟩
      rw [hfreed.used b hb, decide_eq_false hn, Bool.not_false, Bool.true_and])
    (fun b h1 h2 => hfreed.frame b h1 fun h => h2 (hdrop b h).1)
  refine wp_pure'.mpr ⟨hkind, hsize, hchanges, ?_⟩
  intro b hb hu
  rw [hfreed.used b hb, Bool.and_eq_true, Bool.not_eq_true', decide_eq_false_iff_not] at hu
  exact Or.inr ⟨hu.2, fun h => hu.1 (hperm.mem_iff.mpr h)⟩

end LemonCore.EasyFs
