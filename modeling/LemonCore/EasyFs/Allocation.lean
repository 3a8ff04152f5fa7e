import Mathlib
import LemonCore.EasyFs.Vfs

/-!
# Allocating and freeing blocks and inodes

`Geometry` holds the sizes of a file system whose areas do not overlap.  On such a file system:

* `allocBlocks_spec`: allocation returns blocks whose bits were clear, each once, and marks exactly
  them; while the data area has as many free blocks, it returns and stays inside the data area;
* `deallocBlocks_spec`: freed blocks are cleared to zero and their bits reset, and nothing else
  changes;
* `allocInode_spec`: the first free inode number is taken.

The data bitmap has whole blocks of bits, so it may have more bits than the data area has blocks.  The
blocks behind all its bits are the *pool*; a block of the pool past the data area is one the device
does not have.
-/

namespace LemonCore.EasyFs

open Foundation.BorrowProgram

/-- Sizes for which the arithmetic of `create` does not wrap: inode numbers and the numbers of all blocks
behind the data bitmap fit in a `u32`, and the inode area fits on the device.  The callers of `create`
pass one block of inode bitmap, which has room for 4096 inodes. -/
structure Geometry where
  total : ℕ
  inodeBlocks : ℕ
  total_le : total + 4096 ≤ 2 ^ 32
  inodeBlocks_pos : 1 ≤ inodeBlocks
  inodeBlocks_le : inodeBlocks ≤ 2 ^ 20
  room : 1 + 1025 * inodeBlocks ≤ total

/-- The sizes of the file system in `efs_test`. -/
def Geometry.efsTest : Geometry where
  total := 4096
  inodeBlocks := 1
  total_le := by norm_num
  inodeBlocks_pos := le_refl 1
  inodeBlocks_le := by norm_num
  room := by norm_num

namespace Geometry

variable (G : Geometry)

/-- The file system with these sizes. -/
def fs : EasyFileSystem := EasyFileSystem.layout G.total G.inodeBlocks

/-- The number of disk inodes. -/
def slots : ℕ := 4096 * G.inodeBlocks

/-- The first block of the data area. -/
abbrev dataStart : ℕ := G.fs.dataAreaStartBlock

theorem slots_pos : 0 < G.slots := by
  have := G.inodeBlocks_pos
  rw [slots]
  omega

theorem slots_le : G.slots ≤ 2 ^ 32 := by
  have := G.inodeBlocks_le
  rw [slots]
  omega

theorem inodeAreaBlocks_eq : EasyFileSystem.inodeAreaBlocks G.inodeBlocks = 1024 * G.inodeBlocks := by
  have := G.inodeBlocks_le
  simp only [EasyFileSystem.inodeAreaBlocks, Bitmap.maximum, blockBits, inodeSize, blockSize]
  omega

theorem inodeTotalBlocks_eq :
    EasyFileSystem.inodeTotalBlocks G.inodeBlocks = 1025 * G.inodeBlocks := by
  have := G.inodeBlocks_le
  rw [EasyFileSystem.inodeTotalBlocks, G.inodeAreaBlocks_eq]
  omega

theorem dataTotalBlocks_eq : EasyFileSystem.dataTotalBlocks G.total G.inodeBlocks =
    G.total - 1 - 1025 * G.inodeBlocks := by
  have := G.total_le
  have := G.room
  rw [EasyFileSystem.dataTotalBlocks, G.inodeTotalBlocks_eq]
  omega

theorem inodeAreaStart_eq : G.fs.inodeAreaStartBlock = 1 + G.inodeBlocks := by
  have := G.inodeBlocks_le
  show (1 + G.inodeBlocks) % 2 ^ 32 = _
  omega

theorem dataBitmap_start : G.fs.dataBitmap.startBlockId = 1 + 1025 * G.inodeBlocks := by
  have := G.inodeBlocks_le
  show (1 + G.inodeBlocks + EasyFileSystem.inodeAreaBlocks G.inodeBlocks) % 2 ^ 32 = _
  rw [G.inodeAreaBlocks_eq]
  omega

theorem dataBitmap_blocks :
    G.fs.dataBitmap.blocks = (G.total - 1 - 1025 * G.inodeBlocks + 4096) / 4097 := by
  have := G.total_le
  show EasyFileSystem.dataBitmapBlocks G.total G.inodeBlocks = _
  rw [EasyFileSystem.dataBitmapBlocks, G.dataTotalBlocks_eq]
  omega

theorem dataStart_eq : G.dataStart = 1 + 1025 * G.inodeBlocks + G.fs.dataBitmap.blocks := by
  have := G.total_le
  have := G.room
  have hblocks := G.dataBitmap_blocks
  show (1 + EasyFileSystem.inodeTotalBlocks G.inodeBlocks + G.fs.dataBitmap.blocks) % 2 ^ 32 = _
  rw [G.inodeTotalBlocks_eq]
  omega

theorem pool_fits : G.dataStart + G.fs.dataBitmap.maximum ≤ 2 ^ 32 := by
  have := G.total_le
  have := G.room
  rw [G.dataStart_eq, Bitmap.maximum, G.dataBitmap_blocks, blockBits]
  omega

theorem total_le_pool : G.dataStart ≤ G.total ∧ G.total ≤ G.dataStart + G.fs.dataBitmap.maximum := by
  have hroom := G.room
  rw [G.dataStart_eq, Bitmap.maximum, G.dataBitmap_blocks, blockBits]
  omega

/-- A block behind a bit of the data bitmap. -/
def InPool (b : ℕ) : Prop := G.dataStart ≤ b ∧ b < G.dataStart + G.fs.dataBitmap.maximum

/-- A block of the data bitmap. -/
def InBitmap (b : ℕ) : Prop :=
  G.fs.dataBitmap.startBlockId ≤ b ∧ b < G.fs.dataBitmap.startBlockId + G.fs.dataBitmap.blocks

/-- Whether block `b` of the pool is marked as used. -/
def used (d : Disk) (b : ℕ) : Bool := G.fs.dataBitmap.bit d (b - G.dataStart)

/-- The free blocks of the data area. -/
def free (d : Disk) : Finset ℕ := {b ∈ Finset.Ico G.dataStart G.total | G.used d b = false}

/-- Whether inode number `id` is marked as allocated. -/
def live (d : Disk) (id : ℕ) : Bool := G.fs.inodeBitmap.bit d id

variable {G} {d d' : Disk} {b : ℕ}

theorem mem_free : b ∈ G.free d ↔ (G.dataStart ≤ b ∧ b < G.total) ∧ G.used d b = false := by
  rw [free, Finset.mem_filter, Finset.mem_Ico]

theorem inPool_of_lt (h : G.dataStart ≤ b) (h' : b < G.total) : G.InPool b :=
  ⟨h, lt_of_lt_of_le h' G.total_le_pool.2⟩

theorem bit_lt_maximum (h : G.InPool b) : b - G.dataStart < G.fs.dataBitmap.maximum := by
  obtain ⟨h1, h2⟩ := h
  omega

theorem not_inBitmap_of_inPool (h : G.InPool b) : ¬ G.InBitmap b := by
  have h1 := G.dataBitmap_start
  have h2 := G.dataStart_eq
  intro hb
  have := h.1
  have := hb.2
  omega

theorem used_congr (h : ∀ c, G.InBitmap c → d' c = d c) (hb : G.InPool b) :
    G.used d' b = G.used d b :=
  Bitmap.bit_congr (fun c h1 h2 => h c ⟨h1, h2⟩) (bit_lt_maximum hb)

theorem free_congr (h : ∀ c, G.InBitmap c → d' c = d c) : G.free d' = G.free d := by
  ext b
  rw [mem_free, mem_free]
  refine and_congr_right fun hb => ?_
  rw [used_congr h (inPool_of_lt hb.1 hb.2)]

end Geometry

/-! ### Allocating -/

variable {G : Geometry} {d d' : Disk} {held : List ℕ}

/-- What the operations on the data bitmap need of the blocks already held. -/
structure BitmapFree (G : Geometry) (held : List ℕ) : Prop where
  bitmap : ∀ b, G.InBitmap b → b ∉ held
  room : held.length < blockCacheSize

theorem BitmapFree.notMem (h : BitmapFree G held) {i : ℕ} (hi : i < G.fs.dataBitmap.maximum) :
    G.fs.dataBitmap.startBlockId + i / blockBits ∉ held := by
  apply h.bitmap
  rw [Bitmap.maximum, blockBits] at hi
  rw [blockBits]
  exact ⟨by omega, by omega⟩

/-- The blocks `v` were free in `d` and are marked as used in `d'`, where nothing else differs. -/
structure Allocated (G : Geometry) (d d' : Disk) (v : List ℕ) : Prop where
  nodup : v.Nodup
  pool : ∀ b ∈ v, G.InPool b ∧ b < 2 ^ 32
  fresh : ∀ b ∈ v, G.used d b = false
  used : ∀ b, G.InPool b → G.used d' b = (decide (b ∈ v) || G.used d b)
  frame : ∀ b, ¬ G.InBitmap b → d' b = d b

theorem Allocated.nil : Allocated G d d [] :=
  ⟨List.nodup_nil, fun _ hb => absurd hb List.not_mem_nil, fun _ hb => absurd hb List.not_mem_nil,
    fun _ _ => by simp, fun _ _ => rfl⟩

theorem Allocated.append {d'' : Disk} {v w : List ℕ} (h₁ : Allocated G d d' v)
    (h₂ : Allocated G d' d'' w) : Allocated G d d'' (v ++ w) := by
  have hw : ∀ b ∈ w, b ∉ v ∧ G.used d b = false := by
    intro b hb
    have hfresh := h₂.fresh b hb
    rw [h₁.used b (h₂.pool b hb).1, Bool.or_eq_false_iff, decide_eq_false_iff_not] at hfresh
    exact hfresh
  refine ⟨?_, ?_, ?_, ?_, ?_⟩
  · refine List.nodup_append.mpr ⟨h₁.nodup, h₂.nodup, ?_⟩
    intro a ha b hb heq
    exact (hw b hb).1 (heq ▸ ha)
  · intro b hb
    exact (List.mem_append.mp hb).elim (h₁.pool b) (h₂.pool b)
  · intro b hb
    exact (List.mem_append.mp hb).elim (h₁.fresh b) fun hb => (hw b hb).2
  · intro b hb
    rw [h₂.used b hb, h₁.used b hb, ← Bool.or_assoc, Bool.or_comm (decide (b ∈ w))]
    simp only [List.mem_append, Bool.decide_or]
  · intro b hb
    rw [h₂.frame b hb, h₁.frame b hb]

theorem Allocated.card_free {v : List ℕ} (h : Allocated G d d' v) (hv : ∀ b ∈ v, b < G.total) :
    (G.free d').card + v.length = (G.free d).card := by
  have hsub : v.toFinset ⊆ G.free d := by
    intro b hb
    rw [List.mem_toFinset] at hb
    exact Geometry.mem_free.mpr ⟨⟨(h.pool b hb).1.1, hv b hb⟩, h.fresh b hb⟩
  have heq : G.free d' = G.free d \ v.toFinset := by
    ext b
    rw [Finset.mem_sdiff, Geometry.mem_free, Geometry.mem_free, List.mem_toFinset]
    constructor
    · rintro ⟨hin, hu⟩
      rw [h.used b (Geometry.inPool_of_lt hin.1 hin.2), Bool.or_eq_false_iff,
        decide_eq_false_iff_not] at hu
      exact ⟨⟨hin, hu.2⟩, hu.1⟩
    · rintro ⟨⟨hin, hu⟩, hb⟩
      rw [h.used b (Geometry.inPool_of_lt hin.1 hin.2), hu, decide_eq_false hb]
      exact ⟨hin, rfl⟩
  rw [heq, ← List.toFinset_card_of_nodup h.nodup]
  exact Finset.card_sdiff_add_card_eq_card hsub

/-- Setting a clear bit allocates its block. -/
theorem Allocated.one {i : ℕ} (hi : i < G.fs.dataBitmap.maximum)
    (hclear : G.fs.dataBitmap.bit d i = false) (hlt : i + G.dataStart < 2 ^ 32) :
    Allocated G d (G.fs.dataBitmap.set d i) [i + G.dataStart] := by
  have hsub : i + G.dataStart - G.dataStart = i := Nat.add_sub_cancel _ _
  refine ⟨List.nodup_singleton _, ?_, ?_, ?_, ?_⟩
  · intro b hb
    rw [List.mem_singleton.mp hb]
    exact ⟨⟨Nat.le_add_left _ _, by omega⟩, hlt⟩
  · intro b hb
    rw [List.mem_singleton.mp hb, Geometry.used, hsub]
    exact hclear
  · intro b hb
    have hb1 := hb.1
    have hiff : b - G.dataStart = i ↔ b ∈ [i + G.dataStart] := by
      rw [List.mem_singleton]
      omega
    rw [Geometry.used, Bitmap.bit_set, decide_eq_decide.mpr hiff]
    rfl
  · intro b hb
    apply Bitmap.set_outside hi
    rw [Geometry.InBitmap] at hb
    omega

/-- **Allocation of one block.**  It is inside the data area while that has a free block. -/
theorem allocData_spec (hheld : BitmapFree G held) :
    dwp G.fs.allocData held d
      (fun b d' => Allocated G d d' [b] ∧ ((G.free d).Nonempty → b < G.total))
      fun _ => ¬ (G.free d).Nonempty := by
  have hmax : ∀ c ∈ G.free d, c - G.dataStart < G.fs.dataBitmap.maximum ∧
      G.fs.dataBitmap.bit d (c - G.dataStart) = false ∧ G.dataStart ≤ c ∧ c < G.total := by
    intro c hc
    obtain ⟨⟨h1, h2⟩, h3⟩ := Geometry.mem_free.mp hc
    exact ⟨Geometry.bit_lt_maximum (Geometry.inPool_of_lt h1 h2), h3, h1, h2⟩
  rw [EasyFileSystem.allocData]
  refine wp_bind'.mpr (wp_mono (Bitmap.alloc_spec (E := fun _ => False) ?_ hheld.room) ?_
    fun _ h => h.elim)
  · intro i hi
    exact hheld.bitmap _ ⟨Nat.le_add_right _ _, by omega⟩
  intro r d' hr
  rcases hr with ⟨rfl, rfl, hfull⟩ | ⟨i, rfl, ⟨hi, hclear, hfirst⟩, rfl⟩
  · -- a full bitmap
    refine wp_panic.mpr ?_
    rintro ⟨c, hc⟩
    obtain ⟨h1, h2, -, -⟩ := hmax c hc
    rw [hfull _ h1] at h2
    exact absurd h2 (by simp)
  · have hlow : ∀ c ∈ G.free d, i + G.dataStart ≤ c := by
      intro c hc
      obtain ⟨-, h2, h3, -⟩ := hmax c hc
      rcases Nat.lt_or_ge (c - G.dataStart) i with h | h
      · rw [hfirst _ h] at h2
        exact absurd h2 (by simp)
      · omega
    have harea : (G.free d).Nonempty → i + G.dataStart < G.total := by
      rintro ⟨c, hc⟩
      exact lt_of_le_of_lt (hlow c hc) (hmax c hc).2.2.2
    have hfits := G.pool_fits
    show dwp (pure ((i % 2 ^ 32 + G.dataStart) % 2 ^ 32) : DiskProg ℕ) held _ _ _
    rw [show (i % 2 ^ 32 + G.dataStart) % 2 ^ 32 = i + G.dataStart by omega]
    exact wp_pure'.mpr ⟨Allocated.one hi hclear (by omega), harea⟩

/-- **Allocation of several blocks.**  While the data area has as many free blocks, allocation
returns and stays inside it. -/
theorem allocBlocks_spec (hheld : BitmapFree G held) (n : ℕ) :
    dwp (G.fs.allocBlocks n) held d
      (fun v d' => v.length = n ∧ Allocated G d d' v ∧
        (n ≤ (G.free d).card → ∀ b ∈ v, b < G.total))
      fun _ => ¬ n ≤ (G.free d).card := by
  rw [EasyFileSystem.allocBlocks]
  refine wp_mono (wp_forList (fun (l : List ℕ) v d' => v.length + l.length = n ∧
    Allocated G d d' v ∧ (n ≤ (G.free d).card → ∀ b ∈ v, b < G.total)) ?_
    (List.range n) [] d ⟨by simp, Allocated.nil, by simp⟩) ?_ fun _ h => h
  · rintro i is v d₁ ⟨hlen, hal, harea⟩
    rw [List.length_cons] at hlen
    have hne : n ≤ (G.free d).card → (G.free d₁).Nonempty := by
      intro hn
      have hcard := hal.card_free (harea hn)
      exact Finset.card_pos.mp (by omega)
    refine wp_bind'.mpr (wp_mono (allocData_spec hheld) ?_ fun _ h hn => h (hne hn))
    rintro b d₂ ⟨hb, hbarea⟩
    refine wp_pure'.mpr ⟨?_, hal.append hb, ?_⟩
    · rw [List.length_append, List.length_singleton]
      omega
    · intro hn c hc
      rcases List.mem_append.mp hc with hc | hc
      · exact harea hn c hc
      · rw [List.mem_singleton.mp hc]
        exact hbarea (hne hn)
  · rintro v d' ⟨hlen, hal, harea⟩
    exact ⟨by simpa using hlen, hal, harea⟩

/-! ### Freeing -/

/-- The blocks `l` were used in `d`; in `d'` they are free and zero, and nothing else differs. -/
structure Freed (G : Geometry) (d d' : Disk) (l : List ℕ) : Prop where
  used : ∀ b, G.InPool b → G.used d' b = (!decide (b ∈ l) && G.used d b)
  zero : ∀ b ∈ l, d' b = Block.zero
  frame : ∀ b, ¬ G.InBitmap b → b ∉ l → d' b = d b

theorem deallocData_spec (hheld : BitmapFree G held) {b : ℕ} (hb : G.InPool b) (hbh : b ∉ held)
    (hused : G.used d b = true) :
    dwp (G.fs.deallocData b) held d (fun _ d' => Freed G d d' [b]) fun _ => False := by
  have hbit := Geometry.bit_lt_maximum hb
  have hnot := Geometry.not_inBitmap_of_inPool hb
  have hsame : ∀ i, i < G.fs.dataBitmap.maximum →
      G.fs.dataBitmap.bit (Function.update d b Block.zero) i = G.fs.dataBitmap.bit d i := by
    intro i hi
    refine Bitmap.bit_congr (fun c h1 h2 => Function.update_of_ne ?_ _ _) hi
    intro heq
    exact hnot (heq ▸ ⟨h1, h2⟩)
  rw [EasyFileSystem.deallocData]
  refine wp_bind'.mpr (wp_update hbh hheld.room (wp_pure'.mpr ?_))
  have hindex : (b + 2 ^ 32 - G.dataStart) % 2 ^ 32 = b - G.dataStart := by
    have hfits := G.pool_fits
    have h1 := hb.1
    have h2 := hb.2
    omega
  rw [hindex]
  have hset := (hsame _ hbit).trans hused
  refine wp_mono (Bitmap.dealloc_spec (hheld.notMem hbit) hheld.room) ?_ ?_
  swap
  · intro _ he
    exact absurd (hset.symm.trans he.1) (by simp)
  intro _ d' hd'
  obtain ⟨-, rfl⟩ := hd'
  have hout : ∀ c, ¬ G.InBitmap c → G.fs.dataBitmap.clear (Function.update d b Block.zero)
      (b - G.fs.dataAreaStartBlock) c = Function.update d b Block.zero c := by
    intro c hc
    apply Bitmap.clear_outside hbit
    rw [Geometry.InBitmap] at hc
    omega
  refine ⟨?_, ?_, ?_⟩
  · intro c hc
    have hcb := Geometry.bit_lt_maximum hc
    have h1 := hb.1
    have h2 := hc.1
    have hiff : c - G.dataStart = b - G.dataStart ↔ c ∈ [b] := by
      rw [List.mem_singleton]
      omega
    rw [Geometry.used, Bitmap.bit_clear, hsame _ hcb, decide_eq_decide.mpr hiff]
    rfl
  · intro c hc
    rw [List.mem_singleton.mp hc, hout b hnot, Function.update_self]
  · intro c hc hcb
    rw [hout c hc, Function.update_of_ne (by simpa using hcb)]

theorem Freed.cons {d'' : Disk} {b : ℕ} {l : List ℕ} (hb : ¬ G.InBitmap b) (hbl : b ∉ l)
    (h₁ : Freed G d d' [b]) (h₂ : Freed G d' d'' l) : Freed G d d'' (b :: l) := by
  refine ⟨?_, ?_, ?_⟩
  · intro c hc
    rw [h₂.used c hc, h₁.used c hc, ← Bool.and_assoc, Bool.and_comm (!decide (c ∈ l))]
    simp only [List.mem_cons, List.not_mem_nil, or_false, Bool.decide_or, Bool.not_or]
  · intro c hc
    rcases List.mem_cons.mp hc with rfl | hc
    · rw [h₂.frame c hb hbl, h₁.zero c (List.mem_singleton.mpr rfl)]
    · exact h₂.zero c hc
  · intro c hc hcl
    rw [List.mem_cons, not_or] at hcl
    rw [h₂.frame c hc hcl.2, h₁.frame c hc (by simpa using hcl.1)]

/-- **Freeing** blocks that are in use. -/
theorem deallocBlocks_spec (hheld : BitmapFree G held) : ∀ (l : List ℕ) (d : Disk), l.Nodup →
    (∀ b ∈ l, G.InPool b ∧ b ∉ held ∧ G.used d b = true) →
    dwp (G.fs.deallocBlocks l) held d (fun _ d' => Freed G d d' l) fun _ => False := by
  intro l
  induction l with
  | nil =>
    intro d _ _
    exact wp_pure.mpr ⟨fun _ _ => by simp, fun _ hb => absurd hb List.not_mem_nil, fun _ _ _ => rfl⟩
  | cons b l ih =>
    intro d hnd hl
    obtain ⟨hbl, hnd⟩ := List.nodup_cons.mp hnd
    obtain ⟨hpool, hbh, hused⟩ := hl b List.mem_cons_self
    refine wp_bind.mpr (wp_mono (deallocData_spec hheld hpool hbh hused) ?_ fun _ h => h)
    intro _ d₁ h₁
    refine wp_mono (ih d₁ hnd ?_) ?_ fun _ h => h
    · intro c hc
      obtain ⟨h1, h2, h3⟩ := hl c (List.mem_cons_of_mem _ hc)
      refine ⟨h1, h2, ?_⟩
      have hne : c ≠ b := fun heq => hbl (heq ▸ hc)
      rw [h₁.used c h1, h3]
      simpa using hne
    · intro _ d₂ h₂
      exact Freed.cons (Geometry.not_inBitmap_of_inPool hpool) hbl h₁ h₂

/-! ### Inode numbers -/

/-- A block of the inode bitmap. -/
def Geometry.InInodeBitmap (G : Geometry) (b : ℕ) : Prop := 1 ≤ b ∧ b < 1 + G.inodeBlocks

theorem live_congr (h : ∀ b, G.InInodeBitmap b → d' b = d b) {id : ℕ} (hid : id < G.slots) :
    G.live d' id = G.live d id := by
  refine Bitmap.bit_congr (fun b h1 h2 => h b ⟨h1, h2⟩) ?_
  show id < G.inodeBlocks * 4096
  rw [Geometry.slots] at hid
  omega

/-- Only inode number `id` has changed its mark, to `v`. -/
structure Marked (G : Geometry) (d d' : Disk) (id : ℕ) (v : Bool) : Prop where
  live : ∀ j, G.live d' j = if j = id then v else G.live d j
  frame : ∀ b, ¬ G.InInodeBitmap b → d' b = d b

/-- **Allocation of an inode number**: the first free one. -/
theorem allocInode_spec (hheld : ∀ b, G.InInodeBitmap b → b ∉ held)
    (hlen : held.length < blockCacheSize) :
    dwp G.fs.allocInode held d
      (fun id d' => id < G.slots ∧ G.live d id = false ∧ (∀ j, j < id → G.live d j = true) ∧
        Marked G d d' id true)
      fun _ => ∀ id, id < G.slots → G.live d id = true := by
  rw [EasyFileSystem.allocInode]
  refine wp_bind'.mpr (wp_mono (Bitmap.alloc_spec (E := fun _ => False) ?_ hlen) ?_
    fun _ h => h.elim)
  · intro i hi
    exact hheld _ ⟨Nat.le_add_right _ _, Nat.add_lt_add_left hi 1⟩
  have hslots : G.fs.inodeBitmap.maximum = G.slots := Nat.mul_comm _ _
  intro r d' hr
  rcases hr with ⟨rfl, rfl, hfull⟩ | ⟨i, rfl, ⟨hi, hclear, hfirst⟩, rfl⟩
  · exact wp_panic.mpr fun id hid => hfull id (hslots ▸ hid)
  · have hi' : i < G.slots := hslots ▸ hi
    have hlt : i < 2 ^ 32 := by
      have := G.inodeBlocks_le
      rw [Geometry.slots] at hi'
      omega
    show dwp (pure (i % 2 ^ 32) : DiskProg ℕ) held _ _ _
    rw [Nat.mod_eq_of_lt hlt]
    refine wp_pure'.mpr ⟨hi', hclear, hfirst, ?_, ?_⟩
    · intro j
      rw [Geometry.live, Bitmap.bit_set]
      by_cases hj : j = i
      · rw [if_pos hj, decide_eq_true hj]
        rfl
      · rw [if_neg hj, decide_eq_false hj]
        rfl
    · intro b hb
      apply Bitmap.set_outside hi
      rw [Geometry.InInodeBitmap] at hb
      show b < 1 ∨ 1 + G.inodeBlocks ≤ b
      omega

/-- **Freeing an inode number** that is allocated. -/
theorem deallocInode_spec (hheld : ∀ b, G.InInodeBitmap b → b ∉ held)
    (hlen : held.length < blockCacheSize) {id : ℕ} (hid : id < G.slots) :
    dwp (G.fs.deallocInode id) held d
      (fun _ d' => G.live d id = true ∧ Marked G d d' id false) fun _ => G.live d id = false := by
  have hmax : id < G.fs.inodeBitmap.maximum := by
    show id < G.inodeBlocks * 4096
    rw [Geometry.slots] at hid
    omega
  have hblock : G.InInodeBitmap (G.fs.inodeBitmap.startBlockId + id / blockBits) := by
    rw [Geometry.slots] at hid
    show 1 ≤ 1 + id / 4096 ∧ 1 + id / 4096 < 1 + G.inodeBlocks
    omega
  refine wp_mono (Bitmap.dealloc_spec (hheld _ hblock) hlen) ?_ fun _ he => he.1
  intro _ d' hd'
  obtain ⟨hlive, rfl⟩ := hd'
  refine ⟨hlive, ?_, ?_⟩
  · intro j
    rw [Geometry.live, Bitmap.bit_clear]
    by_cases hj : j = id
    · rw [if_pos hj, decide_eq_true hj]
      rfl
    · rw [if_neg hj, decide_eq_false hj]
      rfl
  · intro b hb
    apply Bitmap.clear_outside hmax
    rw [Geometry.InInodeBitmap] at hb
    show b < 1 ∨ 1 + G.inodeBlocks ≤ b
    omega

end LemonCore.EasyFs
