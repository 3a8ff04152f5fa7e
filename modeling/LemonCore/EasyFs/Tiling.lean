import LemonCore.EasyFs.Durability

/-!
# The layout of the device

`create` derives five areas from the number of blocks and the number of inode bitmap blocks; `open`
reads the sizes back from the super block.  The areas tile the device for all sizes considered here.
Inode numbers are `u32`: with more than `2^20` bitmap blocks there are more bits than numbers, and
`alloc_inode` returns the same number for two bits.

* `Tiles`: areas that follow one another without a gap;
* `tiles_areas`: the five areas tile the device;
* `LayoutOk`, `layoutOk_iff`: all that is asked of a layout, and when it holds.
-/

namespace LemonCore.EasyFs

open Foundation.BorrowProgram
open EasyFileSystem (inodeAreaBlocks inodeTotalBlocks dataTotalBlocks dataBitmapBlocks dataAreaBlocks
  layout)

/-! ### Areas in a row -/

/-- The areas, each given by its first block and its length, follow one another from `lo` to `hi`. -/
def Tiles : ℕ → List (ℕ × ℕ) → ℕ → Prop
  | lo, [], hi => lo = hi
  | lo, a :: l, hi => a.1 = lo ∧ Tiles (lo + a.2) l hi

variable {lo hi : ℕ} {l : List (ℕ × ℕ)}

theorem Tiles.sum (h : Tiles lo l hi) : lo + (l.map Prod.snd).sum = hi := by
  induction l generalizing lo with
  | nil => exact h
  | cons a l ih =>
    have htail := ih h.2
    rw [List.map_cons, List.sum_cons]
    omega

theorem Tiles.le_start (h : Tiles lo l hi) : ∀ a ∈ l, lo ≤ a.1 := by
  induction l generalizing lo with
  | nil => exact fun a ha => absurd ha List.not_mem_nil
  | cons a l ih =>
    intro a' ha'
    rcases List.mem_cons.mp ha' with heq | hmem
    · rw [heq, h.1]
    · have htail := ih h.2 a' hmem
      omega

/-- Each area ends before the later ones begin. -/
theorem Tiles.disjoint (h : Tiles lo l hi) : l.Pairwise fun a a' => a.1 + a.2 ≤ a'.1 := by
  induction l generalizing lo with
  | nil => exact List.Pairwise.nil
  | cons a l ih =>
    obtain ⟨hstart, htail⟩ := h
    apply List.Pairwise.cons
    · intro a' ha'
      have hle := htail.le_start a' ha'
      omega
    · exact ih htail

/-! ### The areas of a file system -/

variable {total ib i j : ℕ}

/-- The super block, the inode bitmap, the inode area, the data bitmap and the data area. -/
def areas (total ib : ℕ) : List (ℕ × ℕ) :=
  [(0, 1),
    ((layout total ib).inodeBitmap.startBlockId, (layout total ib).inodeBitmap.blocks),
    ((layout total ib).inodeAreaStartBlock, inodeAreaBlocks ib),
    ((layout total ib).dataBitmap.startBlockId, (layout total ib).dataBitmap.blocks),
    ((layout total ib).dataAreaStartBlock, dataAreaBlocks total ib)]

/-- The position of the disk inode for bit `i` of the inode bitmap; `alloc_inode` turns the bit into a
`u32`. -/
def bitPosition (total ib i : ℕ) : ℕ × ℕ := (layout total ib).diskInodePosition (i % 2 ^ 32)

/-- Two disk inodes share no byte. -/
def Apart (p q : ℕ × ℕ) : Prop := p.1 ≠ q.1 ∨ p.2 + inodeSize ≤ q.2 ∨ q.2 + inodeSize ≤ p.2

/-- What is asked of the layout that `create` chooses. -/
structure LayoutOk (total ib : ℕ) : Prop where
  tiles : Tiles 0 (areas total ib) total
  disjoint : (areas total ib).Pairwise fun a a' => a.1 + a.2 ≤ a'.1
  sum : ((areas total ib).map Prod.snd).sum = total
  /-- Every block of the data area has a bit. -/
  dataBit : ∀ b, (layout total ib).dataAreaStartBlock ≤ b → b < total →
    b - (layout total ib).dataAreaStartBlock < (layout total ib).dataBitmap.maximum
  /-- Every disk inode lies in the inode area. -/
  inside : ∀ i, i < (layout total ib).inodeBitmap.maximum →
    (layout total ib).inodeAreaStartBlock ≤ (bitPosition total ib i).1 ∧
    (bitPosition total ib i).1 < (layout total ib).inodeAreaStartBlock + inodeAreaBlocks ib ∧
    (bitPosition total ib i).2 + inodeSize ≤ blockSize
  apart : ∀ i j, i < (layout total ib).inodeBitmap.maximum →
    j < (layout total ib).inodeBitmap.maximum → i ≠ j →
    Apart (bitPosition total ib i) (bitPosition total ib j)
  inverse : ∀ i, i < (layout total ib).inodeBitmap.maximum →
    (layout total ib).diskInodeId (bitPosition total ib i).1 (bitPosition total ib i).2 = i
  /-- `open` on a new cache recovers what `create` returned. -/
  reopens : ∀ d, ∃ c, exec cacheMachine (EasyFileSystem.create total ib) (.init d) =
      .ok (layout total ib, c) ∧
    ∃ c', exec cacheMachine EasyFileSystem.open (.init c.device) = .ok (layout total ib, c')

/-- The sizes considered. -/
structure Sizes (total ib : ℕ) : Prop where
  inodeBlocks_pos : 1 ≤ ib
  room : 1 + 1025 * ib < total
  total_le : total ≤ 2 ^ 32 - 4097

theorem Sizes.inodeAreaBlocks_eq (h : Sizes total ib) : inodeAreaBlocks ib = 1024 * ib := by
  have hroom := h.room
  have htotal := h.total_le
  simp only [inodeAreaBlocks, Bitmap.maximum, blockBits, inodeSize, blockSize]
  omega

theorem Sizes.inodeTotalBlocks_eq (h : Sizes total ib) : inodeTotalBlocks ib = 1025 * ib := by
  have hroom := h.room
  have htotal := h.total_le
  rw [inodeTotalBlocks, h.inodeAreaBlocks_eq]
  omega

theorem Sizes.dataTotalBlocks_eq (h : Sizes total ib) :
    dataTotalBlocks total ib = total - 1 - 1025 * ib := by
  have hroom := h.room
  have htotal := h.total_le
  rw [dataTotalBlocks, h.inodeTotalBlocks_eq]
  omega

theorem Sizes.dataBitmapBlocks_eq (h : Sizes total ib) :
    dataBitmapBlocks total ib = (total - 1 - 1025 * ib + 4096) / 4097 := by
  have htotal := h.total_le
  rw [dataBitmapBlocks, h.dataTotalBlocks_eq]
  omega

theorem Sizes.dataAreaStart_eq (h : Sizes total ib) :
    (layout total ib).dataAreaStartBlock = 1 + 1025 * ib + dataBitmapBlocks total ib := by
  have hroom := h.room
  have htotal := h.total_le
  have hblocks := h.dataBitmapBlocks_eq
  show (1 + inodeTotalBlocks ib + dataBitmapBlocks total ib) % 2 ^ 32 = _
  rw [h.inodeTotalBlocks_eq]
  omega

/-- **Tiling.** -/
theorem tiles_areas (h : Sizes total ib) : Tiles 0 (areas total ib) total := by
  have harea := h.inodeAreaBlocks_eq
  have hroom := h.room
  have htotal := h.total_le
  have hblocks := h.dataBitmapBlocks_eq
  refine ⟨rfl, rfl, ?_, ?_, ?_, ?_⟩
  · show (1 + ib) % 2 ^ 32 = 0 + 1 + ib
    omega
  · show (1 + ib + inodeAreaBlocks ib) % 2 ^ 32 = 0 + 1 + ib + inodeAreaBlocks ib
    omega
  · show (layout total ib).dataAreaStartBlock =
      0 + 1 + ib + inodeAreaBlocks ib + dataBitmapBlocks total ib
    rw [h.dataAreaStart_eq]
    omega
  · show 0 + 1 + ib + inodeAreaBlocks ib + dataBitmapBlocks total ib + dataAreaBlocks total ib = total
    rw [dataAreaBlocks, h.dataTotalBlocks_eq]
    omega

theorem dataBit_lt (h : Sizes total ib) (b : ℕ) (hb : b < total) :
    b - (layout total ib).dataAreaStartBlock < (layout total ib).dataBitmap.maximum ∨
      b < (layout total ib).dataAreaStartBlock := by
  have hroom := h.room
  have hmax : (layout total ib).dataBitmap.maximum = dataBitmapBlocks total ib * 4096 := rfl
  rw [h.dataAreaStart_eq, hmax, h.dataBitmapBlocks_eq]
  omega

/-! ### Inode numbers -/

theorem bitPosition_eq (total ib i : ℕ) :
    bitPosition total ib i =
      ((layout total ib).inodeAreaStartBlock + i % 2 ^ 32 / 4, i % 2 ^ 32 % 4 * 128) := rfl

theorem maximum_inodeBitmap (total ib : ℕ) :
    (layout total ib).inodeBitmap.maximum = ib * 4096 := rfl

theorem Sizes.inside (h : Sizes total ib) (hi : i < ib * 4096) :
    (layout total ib).inodeAreaStartBlock ≤ (bitPosition total ib i).1 ∧
    (bitPosition total ib i).1 < (layout total ib).inodeAreaStartBlock + inodeAreaBlocks ib ∧
    (bitPosition total ib i).2 + 128 ≤ 512 := by
  rw [h.inodeAreaBlocks_eq, bitPosition_eq]
  dsimp only
  omega

theorem apart_of_ne (hne : i % 2 ^ 32 ≠ j % 2 ^ 32) :
    Apart (bitPosition total ib i) (bitPosition total ib j) := by
  rw [Apart, bitPosition_eq, bitPosition_eq, inodeSize]
  dsimp only
  omega

theorem diskInodeId_bitPosition (total ib i : ℕ) :
    (layout total ib).diskInodeId (bitPosition total ib i).1 (bitPosition total ib i).2 = i % 2 ^ 32 := by
  show ((layout total ib).inodeAreaStartBlock + i % 2 ^ 32 / 4 - (layout total ib).inodeAreaStartBlock) * 4 +
    i % 2 ^ 32 % 4 * 128 / 128 = i % 2 ^ 32
  omega

/-! ### When the layout is right -/

def Sizes.geometry (h : Sizes total ib) (hle : ib ≤ 2 ^ 20) : Geometry where
  total := total
  inodeBlocks := ib
  total_le := by have := h.total_le; omega
  inodeBlocks_pos := h.inodeBlocks_pos
  inodeBlocks_le := hle
  room := by have := h.room; omega

theorem Geometry.reopens (G : Geometry) (d : Disk) :
    ∃ c, exec cacheMachine (EasyFileSystem.create G.total G.inodeBlocks) (.init d) = .ok (G.fs, c) ∧
      ∃ c', exec cacheMachine EasyFileSystem.open (.init c.device) = .ok (G.fs, c') := by
  obtain ⟨fs, d', hrun, hfs, hformat⟩ := wp_returns (create_spec G d)
  obtain ⟨c, hexec, hpres⟩ := exec_returns (presents_init d) hrun
  subst hfs
  have hdev : c.device = d' := hpres.device_eq (create_synced _ _ _ _ _ hexec)
  obtain ⟨fs', _, hrun', hfs', _⟩ := wp_returns (open_spec hformat.super)
  obtain ⟨c', hexec', _⟩ := exec_returns (presents_init c.device) (hdev ▸ hrun')
  subst hfs'
  exact ⟨c, hexec, c', hexec'⟩

/-- **The layout.**  It is as it should be exactly when there are no more bits in the inode bitmap than
inode numbers. -/
theorem layoutOk_iff (hpos : 1 ≤ ib) (hroom : 1 + 1025 * ib < total) (htotal : total ≤ 2 ^ 32 - 4097) :
    LayoutOk total ib ↔ ib ≤ 2 ^ 20 := by
  have h : Sizes total ib := ⟨hpos, hroom, htotal⟩
  constructor
  · intro hok
    by_contra hgt
    -- bit `2^32` gets the number of the root
    have hwrap := hok.inverse (2 ^ 32) (by rw [maximum_inodeBitmap]; omega)
    rw [diskInodeId_bitPosition] at hwrap
    exact absurd hwrap (by norm_num)
  · intro hle
    have htiles := tiles_areas h
    have hsmall : ∀ i, i < (layout total ib).inodeBitmap.maximum → i % 2 ^ 32 = i := by
      intro i hi
      rw [maximum_inodeBitmap] at hi
      exact Nat.mod_eq_of_lt (by omega)
    exact {
      tiles := htiles
      disjoint := htiles.disjoint
      sum := (Nat.zero_add _).symm.trans htiles.sum
      dataBit := fun b hb hlt => (dataBit_lt h b hlt).resolve_right (Nat.not_lt.mpr hb)
      inside := fun i hi => h.inside hi
      apart := fun i j hi hj hne => apart_of_ne (by rwa [hsmall i hi, hsmall j hj])
      inverse := fun i hi => (diskInodeId_bitPosition total ib i).trans (hsmall i hi)
      reopens := (h.geometry hle).reopens }

/-- The sizes of `efs_test`. -/
theorem layoutOk_efs_test : LayoutOk 4096 1 :=
  (layoutOk_iff (by norm_num) (by norm_num) (by norm_num)).mpr (by norm_num)

/-- With `2^20 + 1` bitmap blocks bit `2^32` has the place of the root inode. -/
theorem inode_numbers_wrap :
    (1 ≤ 2 ^ 20 + 1 ∧ 1 + 1025 * (2 ^ 20 + 1) < 1074791427 ∧ 1074791427 ≤ 2 ^ 32 - 4097) ∧
    2 ^ 32 < (layout 1074791427 (2 ^ 20 + 1)).inodeBitmap.maximum ∧
    bitPosition 1074791427 (2 ^ 20 + 1) (2 ^ 32) = bitPosition 1074791427 (2 ^ 20 + 1) 0 ∧
    (layout 1074791427 (2 ^ 20 + 1)).diskInodeId (bitPosition 1074791427 (2 ^ 20 + 1) (2 ^ 32)).1
      (bitPosition 1074791427 (2 ^ 20 + 1) (2 ^ 32)).2 = 0 := by
  refine ⟨by norm_num, ?_, ?_, ?_⟩
  · rw [maximum_inodeBitmap]
    norm_num
  · rw [bitPosition, bitPosition, Nat.mod_self, Nat.zero_mod]
  · rw [diskInodeId_bitPosition, Nat.mod_self]

end LemonCore.EasyFs
