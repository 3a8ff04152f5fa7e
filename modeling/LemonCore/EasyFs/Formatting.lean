import LemonCore.EasyFs.Creation

/-!
# A new file system

`EasyFileSystem::create` clears the device, writes the super block and makes inode 0 the root
directory.  `Formatted` is what later runs start from; `open_spec` says that `EasyFileSystem::open`
rebuilds the same `EasyFileSystem` as long as the super block is kept.
-/

namespace LemonCore.EasyFs

open Foundation.BorrowProgram

variable {G : Geometry} {d d' : Disk} {held : List ℕ}

/-- The image of a new file system: an empty root directory. -/
def Image.fresh : Image where
  node id := if id = 0 then ⟨.directory, []⟩ else ⟨.file, []⟩
  live id := decide (id = 0)

/-- The super block of a file system with these sizes. -/
def Geometry.superBlock (G : Geometry) : SuperBlock :=
  ⟨efsMagic, G.total, G.inodeBlocks, EasyFileSystem.inodeAreaBlocks G.inodeBlocks,
    EasyFileSystem.dataBitmapBlocks G.total G.inodeBlocks,
    EasyFileSystem.dataAreaBlocks G.total G.inodeBlocks⟩

/-- A disk with a new file system. -/
structure Formatted (G : Geometry) (d : Disk) : Prop where
  core : Core G (G.slot d) d
  tails : Tails G d
  tight : Tight G d
  image : G.image d = Image.fresh
  super : SuperBlock.ofBlock (d 0) = G.superBlock

theorem clearBlocks_spec (l : List ℕ) : ∀ d : Disk,
    dwp (EasyFileSystem.clearBlocks l) [] d
      (fun _ d' => (∀ b ∈ l, d' b = Block.zero) ∧ ∀ b, b ∉ l → d' b = d b) fun _ => False := by
  induction l with
  | nil =>
    intro d
    exact wp_pure.mpr ⟨fun _ hb => absurd hb List.not_mem_nil, fun _ _ => rfl⟩
  | cons c l ih =>
    intro d
    refine wp_bind.mpr (wp_update List.not_mem_nil (by decide) (wp_pure'.mpr ?_))
    refine wp_mono (ih _) ?_ fun _ h => h
    rintro _ d' ⟨hzero, hsame⟩
    refine ⟨?_, ?_⟩
    · intro b hb
      by_cases hbl : b ∈ l
      · exact hzero b hbl
      · have hbc : b = c := (List.mem_cons.mp hb).resolve_right hbl
        rw [hsame b hbl, hbc]
        exact Function.update_self _ _ _
    · intro b hb
      rw [List.mem_cons, not_or] at hb
      rw [hsame b hb.2]
      exact Function.update_of_ne hb.1 _ _

/-! ### A cleared device -/

/-- All blocks of the device but the super block are zero. -/
def Blank (G : Geometry) (d : Disk) : Prop := ∀ b, 0 < b → b < G.total → d b = Block.zero

theorem Blank.slot (h : Blank G d) {j : ℕ} (hj : j < G.slots) :
    G.slot d j = ⟨.file, 0, fun _ => 0, 0, 0, 0⟩ := by
  have harea := Geometry.pos_inArea hj
  have hroom := G.room
  rw [Geometry.slot, h _ (by have := harea.1; omega) (lt_of_lt_of_le harea.2 hroom),
    DiskInode.ofBlock_zero]

theorem Blank.used (h : Blank G d) {b : ℕ} (hb : G.InPool b) : G.used d b = false := by
  have hbit := Geometry.bit_lt_maximum hb
  have hstart := G.dataBitmap_start
  have hdata := G.dataStart_eq
  have htotal := G.total_le_pool.1
  rw [Bitmap.maximum, blockBits] at hbit
  rw [Geometry.used, Bitmap.bit, blockBits, h, Block.bit_zero]
  · omega
  · omega

theorem Blank.live (h : Blank G d) {j : ℕ} (hj : j < G.slots) : G.live d j = false := by
  have hroom := G.room
  rw [Geometry.slots] at hj
  rw [Geometry.live, Bitmap.bit, h, Block.bit_zero]
  · exact Nat.lt_of_lt_of_le Nat.one_pos (Nat.le_add_right _ _)
  · show 1 + j / 4096 < G.total
    omega

theorem Blank.owned (h : Blank G d) {j : ℕ} (hj : j < G.slots) (d' : Disk) :
    (G.slot d j).owned d' = [] :=
  owned_of_size_zero (by rw [h.slot hj]) d'

theorem Blank.core (h : Blank G d) : Core G (G.slot d) d := by
  have hpos : (0 : ℕ) < 2 ^ 32 := by norm_num
  have hdata := G.dataStart_eq
  refine ⟨?_, ?_, ?_, ?_, ?_, ?_⟩
  · intro j _
    exact Geometry.slot_fits d j
  · intro j hj
    refine countDataBlock_le ?_
    rw [h.slot hj]
    exact Nat.zero_le _
  · intro j hj
    rw [h.owned hj]
    exact List.nodup_nil
  · intro i j hi _ _ b hb
    rw [h.owned hi] at hb
    exact absurd hb List.not_mem_nil
  · intro j hj b hb
    rw [h.owned hj] at hb
    exact absurd hb List.not_mem_nil
  · intro b h1 h2 _
    exact h b (by omega) h2

/-! ### `EasyFileSystem::create` -/

theorem Formatted.of_blank {d₁ d₂ : Disk} (hblank : Blank G d) (hm : Marked G d d₁ 0 true)
    (he : Emptied G 0 .directory d₁ d₂) (hsuper : SuperBlock.ofBlock (d 0) = G.superBlock) :
    Formatted G d₂ := by
  have hslots : 0 < G.slots := by
    have := G.inodeBlocks_pos
    rw [Geometry.slots]
    omega
  have hcore := hblank.core
  have hcore₁ := hm.core hcore
  have htails : Tails G d := fun j hj _ => zeroTail_of_size_zero (by rw [hblank.slot hj])
  have htight : Tight G d := by
    refine ⟨?_, ?_⟩
    · intro b hb hu
      rw [hblank.used hb] at hu
      exact absurd hu (by simp)
    · intro j hj _
      rw [hblank.slot hj]
  refine ⟨he.stepped.core, he.tails hcore₁ (hm.tails hcore htails),
    htight.allocate hcore (hblank.live hslots) hm he, ?_, ?_⟩
  · rw [he.image_eq hcore₁ hslots, hm.image_eq hcore hslots]
    apply Image.ext
    · funext j
      show Function.update (G.image d).node 0 _ j = if j = 0 then _ else _
      by_cases hj0 : j = 0
      · rw [hj0, Function.update_self, if_pos rfl]
      · rw [Function.update_of_ne hj0, if_neg hj0]
        by_cases hj : j < G.slots
        · rw [image_node hj, Geometry.node, hblank.slot hj, data_of_size_zero rfl]
        · rw [image_node_out hj]
    · funext j
      show Function.update (G.image d).live 0 true j = decide (j = 0)
      by_cases hj0 : j = 0
      · rw [hj0, Function.update_self]
        rfl
      · rw [Function.update_of_ne hj0, decide_eq_false hj0, image_live_eq]
        by_cases hj : j < G.slots
        · rw [hblank.live hj, Bool.and_false]
        · rw [decide_eq_false hj, Bool.false_and]
  · have h0 : ¬ G.InArea 0 := fun h => absurd h.1 (by omega)
    have h1 : ¬ G.InInodeBitmap 0 := fun h => absurd h.1 (by omega)
    rw [he.frame 0 h0, hm.frame 0 h1, hsuper]

/-- **A new file system.**  `create` returns for the sizes of a `Geometry`, on any device. -/
theorem create_spec (G : Geometry) (d : Disk) :
    dwp (EasyFileSystem.create G.total G.inodeBlocks) [] d
      (fun fs d' => fs = G.fs ∧ Formatted G d') fun _ => False := by
  have harea := G.inodeAreaBlocks_eq
  have htotal := G.total_le
  have hle := G.inodeBlocks_le
  have hpos := G.inodeBlocks_pos
  have hdata := G.dataTotalBlocks_eq
  rw [EasyFileSystem.create]
  refine wp_bind'.mpr (wp_mono (clearBlocks_spec _ d) ?_ fun _ h => h)
  rintro _ d₁ ⟨hzero, _⟩
  refine wp_bind'.mpr (wp_update List.not_mem_nil (by decide) (wp_pure'.mpr ?_))
  have hsuper := SuperBlock.ofBlock_init (d₁ 0) (show G.total < 2 ^ 32 by omega)
    (show G.inodeBlocks < 2 ^ 32 by omega)
    (show EasyFileSystem.inodeAreaBlocks G.inodeBlocks < 2 ^ 32 by rw [harea]; omega)
    (show EasyFileSystem.dataBitmapBlocks G.total G.inodeBlocks < 2 ^ 32 by
      rw [EasyFileSystem.dataBitmapBlocks, hdata]; omega)
    (show EasyFileSystem.dataAreaBlocks G.total G.inodeBlocks < 2 ^ 32 by
      rw [EasyFileSystem.dataAreaBlocks, hdata]; omega)
  generalize hd₂ : Function.update d₁ 0 (SuperBlock.init (d₁ 0) G.total G.inodeBlocks
    (EasyFileSystem.inodeAreaBlocks G.inodeBlocks)
    (EasyFileSystem.dataBitmapBlocks G.total G.inodeBlocks)
    (EasyFileSystem.dataAreaBlocks G.total G.inodeBlocks)) = d₂
  have hblank : Blank G d₂ := by
    intro b hb hbt
    rw [← hd₂, Function.update_of_ne (by omega)]
    exact hzero b (List.mem_range.mpr hbt)
  have hfirst : SuperBlock.ofBlock (d₂ 0) = G.superBlock := by
    rw [← hd₂, Function.update_self]
    exact hsuper
  have hslots : 0 < G.slots := by
    rw [Geometry.slots]
    omega
  show dwp (G.fs.allocInode >>= _) [] d₂ _ _
  refine wp_bind'.mpr (wp_mono (allocInode_spec (fun _ _ => List.not_mem_nil) (by decide)) ?_ ?_)
  swap
  · intro _ hall
    have := hall 0 hslots
    rw [hblank.live hslots] at this
    exact absurd this (by simp)
  rintro rootId d₃ ⟨_, _, hlow, hm⟩
  have hroot : rootId = 0 := by
    rcases Nat.eq_zero_or_pos rootId with h | h
    · exact h
    · have := hlow 0 h
      rw [hblank.live hslots] at this
      exact absurd this (by simp)
  subst hroot
  refine wp_bind'.mpr (wp_assert rfl ?_)
  show dwp (modifyInode (G.pos 0).1 (G.pos 0).2 _ >>= _) [] d₃ _ _
  refine wp_bind'.mpr (wp_mono (emptySlot_spec (hm.core hblank.core) hslots) ?_ fun _ h => h)
  intro _ d₄ he
  exact wp_bind'.mpr (wp_syncAll.mpr (wp_pure'.mpr ⟨rfl, Formatted.of_blank hblank hm he hfirst⟩))

/-- What `create` leaves on a device of zeros, whatever the sizes are. -/
def newDisk (total ib : ℕ) : Disk :=
  let d : Disk := Function.update (fun _ => .zero) 0 (SuperBlock.init .zero total ib
    (EasyFileSystem.inodeAreaBlocks ib) (EasyFileSystem.dataBitmapBlocks total ib)
    (EasyFileSystem.dataAreaBlocks total ib))
  let d := Function.update d 1 (Block.zero.setBit 0)
  let root := (EasyFileSystem.layout total ib).inodeAreaStartBlock
  Function.update d root (DiskInode.store (d root) 0 ((DiskInode.ofBlock (d root) 0).init .directory))

theorem newDisk_of_ne {total ib b : ℕ} (h0 : b ≠ 0) (h1 : b ≠ 1)
    (hroot : b ≠ (EasyFileSystem.layout total ib).inodeAreaStartBlock) : newDisk total ib b = .zero := by
  rw [newDisk, Function.update_of_ne hroot, Function.update_of_ne h1, Function.update_of_ne h0]

theorem create_blank (total : ℕ) {ib : ℕ} (hib : 0 < ib) :
    drun (EasyFileSystem.create total ib) [] (fun _ => .zero) =
      .ok (.layout total ib, newDisk total ib) := by
  have hwp : dwp (EasyFileSystem.create total ib) [] (fun _ => .zero)
      (fun fs d => fs = .layout total ib ∧ d = newDisk total ib) fun _ => False := by
    refine wp_bind'.mpr (wp_mono (clearBlocks_spec _ _) ?_ fun _ h => h)
    rintro _ d ⟨hzero, hsame⟩
    have hd : d = fun _ => Block.zero := by
      funext b
      by_cases hb : b ∈ List.range total
      · exact hzero b hb
      · exact hsame b hb
    subst hd
    refine wp_bind'.mpr (wp_update List.not_mem_nil (by decide) (wp_pure'.mpr ?_))
    refine wp_bind'.mpr (wp_bind'.mpr ?_)
    -- the first block of the inode bitmap is zero, so the root gets bit 0
    rw [Bitmap.alloc_eq (EasyFileSystem.layout total ib).inodeBitmap (show ib = ib - 1 + 1 by omega)]
    refine wp_bind.mpr (wp_update List.not_mem_nil (by decide) ?_)
    have hzero' (v : Block) : Function.update (fun _ => Block.zero) 0 v
        ((EasyFileSystem.layout total ib).inodeBitmap.startBlockId + 0) = Block.zero :=
      Function.update_of_ne (show 1 + 0 ≠ 0 by decide) _ _
    rw [hzero', show freeInBlock Block.zero = some 0 by decide +kernel]
    refine wp_pure.mpr (wp_pure.mpr (wp_pure'.mpr (wp_bind'.mpr (wp_assert rfl ?_))))
    refine wp_bind'.mpr (wp_update List.not_mem_nil (by decide)
      (wp_bind'.mpr (wp_pure'.mpr (wp_pure'.mpr ?_))))
    exact wp_bind'.mpr (wp_syncAll.mpr (wp_pure'.mpr ⟨rfl, rfl⟩))
  obtain ⟨_, _, hrun, rfl, rfl⟩ := wp_returns hwp
  exact hrun

theorem formatted_newDisk (G : Geometry) : Formatted G (newDisk G.total G.inodeBlocks) :=
  (wp_result (create_spec G _) (create_blank G.total G.inodeBlocks_pos)).2

/-! ### What a new file system has -/

theorem Formatted.size_eq (h : Formatted G d) {j : ℕ} (hj : j < G.slots) :
    (G.slot d j).size = 0 := by
  have hdata : (G.node d j).data = [] := by
    rw [← image_node hj, h.image]
    show (if j = 0 then (⟨.directory, []⟩ : Node) else ⟨.file, []⟩).data = []
    split <;> rfl
  rw [← length_data (d := d), show (G.slot d j).data d = [] from hdata]
  rfl

theorem Formatted.used (h : Formatted G d) {b : ℕ} (hb : G.InPool b) : G.used d b = false := by
  cases hu : G.used d b with
  | false => rfl
  | true =>
    obtain ⟨j, hj, _, hbj⟩ := h.tight.owner b hb hu
    rw [owned_of_size_zero (h.size_eq hj) d] at hbj
    exact absurd hbj List.not_mem_nil

theorem Formatted.card_free (h : Formatted G d) : (G.free d).card = G.total - G.dataStart := by
  have hfree : G.free d = Finset.Ico G.dataStart G.total := by
    ext b
    rw [Geometry.mem_free, Finset.mem_Ico]
    exact and_iff_left_of_imp fun hb => h.used (Geometry.inPool_of_lt hb.1 hb.2)
  rw [hfree, Nat.card_Ico]

/-- **Opening** a device with the super block of a file system. -/
theorem open_spec (hsuper : SuperBlock.ofBlock (d 0) = G.superBlock) :
    dwp EasyFileSystem.open [] d (fun fs d' => fs = G.fs ∧ d' = d) fun _ => False := by
  refine wp_borrow List.not_mem_nil (by decide) ?_
  rw [hsuper]
  refine wp_bind'.mpr (wp_assert rfl (wp_pure'.mpr ⟨?_, rfl⟩))
  have hstart :
      G.fs.dataBitmap.startBlockId = (1 + EasyFileSystem.inodeTotalBlocks G.inodeBlocks) % 2 ^ 32 := by
    have := G.inodeBlocks_le
    rw [G.dataBitmap_start, G.inodeTotalBlocks_eq]
    omega
  show (⟨_, ⟨(1 + EasyFileSystem.inodeTotalBlocks G.inodeBlocks) % 2 ^ 32, _⟩, _, _⟩ : EasyFileSystem) = _
  rw [← hstart]
  rfl

end LemonCore.EasyFs
