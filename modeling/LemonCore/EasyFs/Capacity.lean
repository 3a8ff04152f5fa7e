import LemonCore.EasyFs.Runs

/-!
# Blocks past the end of the device

`create` gives the data area what is left of the device, and the data bitmap whole blocks of bits.
When the blocks that are left are no multiple of 4097 (one bitmap block and the 4096 blocks behind its
bits), the last bits have no block, and `alloc_data` does not know.

* `DataRun`: the runs of `alloc_data` and `dealloc_data` on a new file system;
* `exists_alloc`: a clear bit is handed out sooner or later;
* `allocData_inside_iff`: `alloc_data` stays inside the data area iff every bit has a block there.

The sizes here are all those that fit in a `u32`, those included for which the arithmetic of `create`
wraps and the areas overlap or lie behind the device.
-/

namespace LemonCore.EasyFs

open Foundation.BorrowProgram Foundation.LittleEndian
open EasyFileSystem (inodeAreaBlocks inodeTotalBlocks dataBitmapBlocks layout)

variable {total ib : ℕ} {d : Disk} {fs : EasyFileSystem} {c c₀ : CacheState}

/-- The states that calls of `alloc_data` and `dealloc_data` lead to. -/
inductive DataRun (fs : EasyFileSystem) (c₀ : CacheState) : CacheState → Prop
  | init : DataRun fs c₀ c₀
  | alloc {c c' b} : DataRun fs c₀ c → exec cacheMachine fs.allocData c = .ok (b, c') →
      DataRun fs c₀ c'
  | dealloc {c c' b} : DataRun fs c₀ c → exec cacheMachine (fs.deallocData b) c = .ok ((), c') →
      DataRun fs c₀ c'

/-- No call of `alloc_data` in a run returns a block outside the data area. -/
def StaysInside (fs : EasyFileSystem) (total : ℕ) (c₀ : CacheState) : Prop :=
  ∀ c b c', DataRun fs c₀ c → exec cacheMachine fs.allocData c = .ok (b, c') →
    fs.dataAreaStartBlock ≤ b ∧ b < total

theorem DataRun.presents (h : DataRun fs c₀ c) (h₀ : Presents c₀ [] c₀.content) :
    Presents c [] c.content := by
  induction h with
  | init => exact h₀
  | alloc _ hexec ih =>
    obtain ⟨d', _, hp⟩ := exec_content ih hexec
    rwa [hp.content_eq]
  | dealloc _ hexec ih =>
    obtain ⟨d', _, hp⟩ := exec_content ih hexec
    rwa [hp.content_eq]

/-! ### The next block -/

/-- `alloc_data` returns the block behind the first clear bit; it panics when all bits are set. -/
theorem allocData_first (hmax : fs.dataBitmap.maximum < 2 ^ 32) :
    dwp fs.allocData [] d
      (fun b d' => ∃ i, fs.dataBitmap.FirstClear d i ∧ b = (i + fs.dataAreaStartBlock) % 2 ^ 32 ∧
        d' = fs.dataBitmap.set d i)
      fun _ => ∀ j, j < fs.dataBitmap.maximum → fs.dataBitmap.bit d j = true := by
  rw [EasyFileSystem.allocData]
  refine wp_bind'.mpr (wp_mono (Bitmap.alloc_spec (E := fun _ => False)
    (fun _ _ => List.not_mem_nil) (by decide)) ?_ fun _ h => h.elim)
  intro r d' hr
  rcases hr with ⟨hnone, _, hall⟩ | ⟨i, hsome, hfirst, hset⟩
  · subst hnone
    exact wp_panic.mpr hall
  · subst hsome
    refine wp_pure'.mpr ⟨i, hfirst, ?_, hset⟩
    rw [Nat.mod_eq_of_lt (lt_trans hfirst.1 hmax)]

theorem allocData_returns {t : ℕ} (hmax : fs.dataBitmap.maximum < 2 ^ 32) (ht : t < fs.dataBitmap.maximum)
    (hclear : fs.dataBitmap.bit d t = false) :
    ∃ i, fs.dataBitmap.FirstClear d i ∧ i ≤ t ∧
      drun fs.allocData [] d = .ok ((i + fs.dataAreaStartBlock) % 2 ^ 32, fs.dataBitmap.set d i) := by
  obtain ⟨_, _, hrun, i, hfirst, rfl, rfl⟩ :=
    wp_returns (wp_mono (allocData_first (d := d) hmax) (fun _ _ h => h) (by
      intro e hall
      exact absurd (hclear.symm.trans (hall t ht)) (by simp)))
  exact ⟨i, hfirst, hfirst.le hclear, hrun⟩

/-- **Every clear bit is handed out.**  As long as bit `t` is clear, calls of `alloc_data` come closer
to it; `m` bounds the bits known to be set. -/
theorem exists_alloc (hmax : fs.dataBitmap.maximum < 2 ^ 32) (h₀ : Presents c₀ [] c₀.content) {t : ℕ}
    (ht : t < fs.dataBitmap.maximum) :
    ∀ n m c, t < m + n → DataRun fs c₀ c → (∀ j, j < m → fs.dataBitmap.bit c.content j = true) →
      fs.dataBitmap.bit c.content t = false →
      ∃ c₁ c₂, DataRun fs c₀ c₁ ∧
        exec cacheMachine fs.allocData c₁ = .ok ((t + fs.dataAreaStartBlock) % 2 ^ 32, c₂) := by
  intro n
  induction n with
  | zero =>
    intro m c hlt _ hset hclear
    rw [hset t hlt] at hclear
    exact absurd hclear (by simp)
  | succ n ih =>
    intro m c hlt hrun hset hclear
    obtain ⟨i, hfirst, hit, hdrun⟩ := allocData_returns hmax ht hclear
    obtain ⟨c', hexec, hp'⟩ := exec_returns (hrun.presents h₀) hdrun
    have hmi : m ≤ i := by
      by_contra hlt
      exact absurd (hfirst.2.1.symm.trans (hset i (Nat.not_le.mp hlt))) (by simp)
    rcases Nat.eq_or_lt_of_le hit with heq | hlt'
    · subst heq
      exact ⟨c, c', hrun, hexec⟩
    · have hcontent : c'.content = fs.dataBitmap.set c.content i := hp'.content_eq
      refine ih (i + 1) c' (by omega) (.alloc hrun hexec) ?_ ?_
      · intro j hj
        rw [hcontent, Bitmap.bit_set]
        by_cases hji : j = i
        · simp [hji]
        · rw [hfirst.2.2 j (by omega), Bool.or_true]
      · rw [hcontent, Bitmap.bit_set, hclear, decide_eq_false (by omega)]
        rfl

/-- **A bit can be cleared** by `dealloc_data`, unless its block is the block of the bitmap it is in. -/
theorem exists_clear (hmax : fs.dataBitmap.maximum < 2 ^ 32) (hstart : fs.dataAreaStartBlock < 2 ^ 32)
    (h₀ : Presents c₀ [] c₀.content) {t : ℕ} (ht : t < fs.dataBitmap.maximum)
    (hblock : fs.dataBitmap.startBlockId + t / 4096 ≠ (t + fs.dataAreaStartBlock) % 2 ^ 32) :
    ∃ c, DataRun fs c₀ c ∧ fs.dataBitmap.bit c.content t = false := by
  cases hbit : fs.dataBitmap.bit c₀.content t with
  | false => exact ⟨c₀, .init, hbit⟩
  | true =>
    have hwp : dwp (fs.deallocData ((t + fs.dataAreaStartBlock) % 2 ^ 32)) [] c₀.content
        (fun _ d' => fs.dataBitmap.bit d' t = false) fun _ => False := by
      refine wp_bind'.mpr (wp_update List.not_mem_nil (by decide) (wp_pure'.mpr ?_))
      rw [show ((t + fs.dataAreaStartBlock) % 2 ^ 32 + 2 ^ 32 - fs.dataAreaStartBlock) % 2 ^ 32 = t by omega]
      have hkept : fs.dataBitmap.bit (Function.update c₀.content
          ((t + fs.dataAreaStartBlock) % 2 ^ 32) Block.zero) t = true := by
        rw [Bitmap.bit, blockBits, Function.update_of_ne hblock]
        exact hbit
      refine wp_mono (Bitmap.dealloc_spec List.not_mem_nil (by decide)) ?_ ?_
      · rintro _ d' ⟨_, rfl⟩
        rw [Bitmap.bit_clear, decide_eq_true rfl]
        rfl
      · rintro _ ⟨hno, _⟩
        rw [hkept] at hno
        exact absurd hno (by simp)
    obtain ⟨_, d', hdrun, hclear⟩ := wp_returns hwp
    obtain ⟨c, hexec, hp⟩ := exec_returns h₀ hdrun
    exact ⟨c, .dealloc .init hexec, by rw [hp.content_eq, hclear]⟩

/-! ### Bits without a block -/

theorem create_layout : dwp (EasyFileSystem.create total ib) [] d (fun fs _ => fs = layout total ib)
    fun _ => True := by
  have hany : ∀ e : Fault Panic, (fun _ : Fault Panic => True) e := fun _ => trivial
  refine wp_bind'.mpr (wp_any (fun _ _ => ?_) hany)
  refine wp_bind'.mpr (wp_any (fun _ _ => ?_) hany)
  refine wp_bind'.mpr (wp_any (fun _ _ => ?_) hany)
  refine wp_bind'.mpr (wp_any (fun _ _ => ?_) hany)
  refine wp_bind'.mpr (wp_any (fun _ _ => ?_) hany)
  exact wp_bind'.mpr (wp_any (fun _ _ => wp_pure'.mpr rfl) hany)

/-- **Blocks outside the data area.**  For all sizes, no call of `alloc_data` in a run returns a block
outside the data area iff there are no bits, or the block behind the last bit is one of the device. -/
theorem allocData_inside_iff {d₀ : Disk} (htotal : total < 2 ^ 32)
    (h : exec cacheMachine (EasyFileSystem.create total ib) (.init d₀) = .ok (fs, c₀)) :
    StaysInside fs total c₀ ↔ dataBitmapBlocks total ib = 0 ∨
      (layout total ib).dataAreaStartBlock + 4096 * dataBitmapBlocks total ib ≤ total := by
  obtain ⟨d', hdrun, hp⟩ := exec_content (presents_init d₀) h
  have hfs := wp_result create_layout hdrun
  have hcontent := hp.content_eq
  subst hfs hcontent
  have hblocks : dataBitmapBlocks total ib ≤ 1048320 := by
    rw [dataBitmapBlocks]
    omega
  have hmaximum : (layout total ib).dataBitmap.maximum = dataBitmapBlocks total ib * 4096 := rfl
  have hstart : (layout total ib).dataAreaStartBlock =
      (1 + (ib + inodeAreaBlocks ib) % 2 ^ 32 + dataBitmapBlocks total ib) % 2 ^ 32 := rfl
  have hbitmap : (layout total ib).dataBitmap.startBlockId = (1 + ib + inodeAreaBlocks ib) % 2 ^ 32 := rfl
  generalize dataBitmapBlocks total ib = blocks at *
  have hmax : (layout total ib).dataBitmap.maximum < 2 ^ 32 := by omega
  constructor
  · intro hinside
    by_contra hno
    -- the last bit: its block lies behind the device, or its number wraps
    have ht : blocks * 4096 - 1 < (layout total ib).dataBitmap.maximum := by omega
    obtain ⟨c, hrun, hclear⟩ := exists_clear hmax (by omega) hp ht (by omega)
    obtain ⟨c₁, c₂, hrun, hexec⟩ := exists_alloc hmax hp ht (blocks * 4096) 0 c (by omega) hrun
      (fun j hj => absurd hj (Nat.not_lt_zero j)) hclear
    have := hinside c₁ _ c₂ hrun hexec
    omega
  · intro hcond c b c' hrun hexec
    obtain ⟨d', hdrun', _⟩ := exec_content (hrun.presents hp) hexec
    obtain ⟨i, hfirst, hb, _⟩ := wp_result (allocData_first hmax) hdrun'
    have hi := hfirst.1
    omega

/-- The sizes of a device whose 4097 blocks for data are one bitmap block and 4096 data blocks. -/
def Geometry.exact : Geometry :=
  { Geometry.efsTest with
    total := 5123
    total_le := by norm_num
    room := by norm_num [Geometry.efsTest] }

theorem allocData_inside_iff_exact : ∃ fs c₀,
    exec cacheMachine (EasyFileSystem.create 5123 1) (.init fun _ => Block.zero) = .ok (fs, c₀) ∧
    StaysInside fs 5123 c₀ := by
  obtain ⟨fs, d, hrun, _⟩ := wp_returns (create_spec .exact fun _ => Block.zero)
  obtain ⟨c, hexec, _⟩ := exec_returns (presents_init _) hrun
  exact ⟨fs, c, hexec, (allocData_inside_iff (show 5123 < 2 ^ 32 by norm_num) hexec).mpr (by decide)⟩

/-- The sizes of a device with one block for data, which the data bitmap takes. -/
def Geometry.tiny : Geometry :=
  { Geometry.efsTest with
    total := 1027
    total_le := by norm_num
    room := by norm_num [Geometry.efsTest] }

/-- On the device with blocks 0 to 1026 the first call of `alloc_data` returns block 1027. -/
theorem allocData_outside : ∃ fs c₀ c,
    exec cacheMachine (EasyFileSystem.create 1027 1) (.init fun _ => Block.zero) = .ok (fs, c₀) ∧
    exec cacheMachine fs.allocData c₀ = .ok (1027, c) ∧ ¬ StaysInside fs 1027 c₀ := by
  obtain ⟨fs, d, hrun, hfs, hformat⟩ := wp_returns (create_spec .tiny fun _ => Block.zero)
  obtain ⟨c₀, hexec, hp⟩ := exec_returns (presents_init _) hrun
  have hclear : fs.dataBitmap.bit d 0 = false := by
    rw [hfs]
    exact hformat.used (b := 1027) ⟨by decide, by decide⟩
  have hmax : fs.dataBitmap.maximum < 2 ^ 32 := by
    rw [hfs]
    decide
  obtain ⟨i, -, hi, hrun'⟩ := allocData_returns hmax (show 0 < _ by rw [hfs]; decide) hclear
  obtain ⟨c, hexec', _⟩ := exec_returns hp hrun'
  have hb : (i + fs.dataAreaStartBlock) % 2 ^ 32 = 1027 := by
    rw [Nat.le_zero.mp hi, hfs]
    rfl
  rw [hb] at hexec'
  refine ⟨fs, c₀, c, hexec, hexec', ?_⟩
  intro hinside
  exact absurd (hinside c₀ 1027 c .init hexec').2 (Nat.lt_irrefl 1027)

end LemonCore.EasyFs
