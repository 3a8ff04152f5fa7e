import LemonCore.EasyFs.Slots
import LemonCore.Foundation.Overwrite

/-!
# Files as byte vectors

* `DiskInode.data`: the bytes of an inode up to its size;
* `Wrote`: an inode has grown and taken a buffer; `Wrote.data` is the byte vector it has then.  Bytes
  between the old end and the buffer are zero because free blocks are zero and the last block is zero
  behind the end of the file (`ZeroTail`);
* `Stepped`: an operation on inode `id` as it is seen on the disk, with the disk inode stored;
* `Image`: the file system as a map from inode numbers to byte vectors, and `G.image d`, the image
  that is on a disk.
-/

namespace LemonCore.EasyFs

open Foundation.BorrowProgram Foundation.Overwrite

/-! ### The bytes of an inode -/

/-- The bytes of an inode up to its size. -/
def DiskInode.data (d : Disk) (ino : DiskInode) : List UInt8 := ino.bytes d 0 ino.size

/-- The last block is zero behind the end of the file. -/
def ZeroTail (d : Disk) (ino : DiskInode) : Prop :=
  ∀ p, ino.size ≤ p → p < 512 * ino.leafCount → ino.byteAt d p = 0

variable {G : Geometry} {tab : Table} {d d' d₁ : Disk} {id : ℕ} {held : List ℕ}
  {ino ino' : DiskInode} {off : ℕ} {buf : List UInt8} {room : Prop}

@[simp] theorem length_data : (ino.data d).length = ino.size := DiskInode.length_bytes _ _

theorem getD_data {p : ℕ} (h : p < ino.size) : (ino.data d).getD p 0 = ino.byteAt d p := by
  have hp : p < (ino.data d).length := by rw [length_data]; exact h
  rw [List.getD_eq_getElem _ _ hp]
  simp [DiskInode.data, DiskInode.bytes]

theorem bytes_eq_data {len : ℕ} (h : off + len ≤ ino.size) :
    ino.bytes d off len = ((ino.data d).drop off).take len := by
  rw [DiskInode.data, show ino.size = off + (len + (ino.size - off - len)) by omega,
    ← DiskInode.bytes_append, ← DiskInode.bytes_append, Nat.zero_add,
    List.drop_left' (DiskInode.length_bytes _ _), List.take_left' (DiskInode.length_bytes _ _)]

-- from here on the lemmas above say what the data is
attribute [irreducible] DiskInode.data

theorem size_le_leaves (ino : DiskInode) : ino.size ≤ 512 * ino.leafCount := by
  rw [DiskInode.leafCount, DiskInode.countDataBlock, blockSize]
  omega

theorem leafCount_mono (h : ino.size ≤ ino'.size) : ino.leafCount ≤ ino'.leafCount :=
  Nat.div_le_div_right (Nat.add_le_add_right h _)

theorem data_congr (hsize : ino'.size = ino.size)
    (h : ∀ p, p < ino.size → ino'.byteAt d' p = ino.byteAt d p) : ino'.data d' = ino.data d := by
  apply eq_of_getD 0
  · rw [length_data, length_data, hsize]
  intro p hp
  rw [length_data, hsize] at hp
  rw [getD_data (hsize ▸ hp), getD_data hp, h p hp]

/-! ### Growing and writing -/

/-- Inode `ino` has grown to hold the positions `[off, off + |buf|)` and has `buf` there; new blocks
are zero elsewhere when they are from the data area. -/
structure Wrote (d : Disk) (ino : DiskInode) (d' : Disk) (ino' : DiskInode) (off : ℕ)
    (buf : List UInt8) (room : Prop) : Prop where
  kind : ino'.kind = ino.kind
  size : ino'.size = max ino.size (off + buf.length)
  hit : ∀ p, off ≤ p ∧ p < off + buf.length → ino'.byteAt d' p = buf.getD (p - off) 0
  old : ∀ p, p < 512 * ino.leafCount → ¬ (off ≤ p ∧ p < off + buf.length) →
    ino'.byteAt d' p = ino.byteAt d p
  new : room → ∀ p, 512 * ino.leafCount ≤ p → p < 512 * ino'.leafCount →
    ¬ (off ≤ p ∧ p < off + buf.length) → ino'.byteAt d' p = 0

theorem Wrote.of_grown (hkind : ino'.kind = ino.kind)
    (hsize : ino'.size = max ino.size (off + buf.length)) (hgrown : GrownBytes d ino d₁ ino' room)
    (hw : Written d₁ d' ino' off buf) : Wrote d ino d' ino' off buf room := by
  have hcount : ino.leafCount ≤ ino'.leafCount := leafCount_mono (by omega)
  have hle := size_le_leaves ino'
  refine ⟨hkind, hsize, ?_, ?_, ?_⟩
  · intro p hp
    rw [hw.byte p (by omega), if_pos hp]
  · intro p hp hout
    rw [hw.byte p (by omega), if_neg hout, hgrown.old p hp]
  · intro hroom p hp hp' hout
    rw [hw.byte p hp', if_neg hout, hgrown.new hroom p hp hp']

/-- **The byte vector after a write.**  There is no gap before the buffer, or the gap is zero. -/
theorem Wrote.data (h : Wrote d ino d' ino' off buf room)
    (hgap : off ≤ ino.size ∨ ZeroTail d ino ∧ room) :
    ino'.data d' = overwrite 0 (ino.data d) off buf := by
  have hsize := h.size
  apply eq_of_getD 0
  · rw [length_data, length_overwrite, length_data, hsize]
  intro p hp
  rw [length_data] at hp
  rw [getD_data hp, getD_overwrite]
  by_cases hin : off ≤ p ∧ p < off + buf.length
  · rw [if_pos hin, h.hit p hin]
  rw [if_neg hin]
  have hle := size_le_leaves ino
  rcases Nat.lt_or_ge p ino.size with hps | hps
  · rw [getD_data hps, h.old p (by omega) hin]
  -- behind the old end, before the buffer
  obtain ⟨htail, hroom⟩ := hgap.resolve_left (by omega)
  rw [List.getD_eq_default _ _ (by rw [length_data]; exact hps)]
  rcases Nat.lt_or_ge p (512 * ino.leafCount) with hpl | hpl
  · rw [h.old p hpl hin, htail p hps hpl]
  · have hle' := size_le_leaves ino'
    exact h.new hroom p hpl (by omega) hin

theorem Wrote.tail (h : Wrote d ino d' ino' off buf room) (htail : ZeroTail d ino) (hroom : room) :
    ZeroTail d' ino' := by
  have hsize := h.size
  intro p hp hp'
  have hout : ¬ (off ≤ p ∧ p < off + buf.length) := by omega
  rcases Nat.lt_or_ge p (512 * ino.leafCount) with hpl | hpl
  · rw [h.old p hpl hout, htail p (by omega) hpl]
  · exact h.new hroom p hpl hp' hout

/-! ### The disk inode back in its slot -/

/-- An operation has worked on disk inode `id`: the other disk inodes and their blocks are as before,
and so is everything outside the inode area, the data bitmap and the pool. -/
structure Stepped (G : Geometry) (id : ℕ) (d d' : Disk) : Prop where
  core : Core G (G.slot d') d'
  same : ∀ j, j < G.slots → j ≠ id → G.slot d' j = G.slot d j
  keep : ∀ j, j < G.slots → j ≠ id → ∀ b ∈ (G.slot d j).owned d, d' b = d b
  outside : ∀ b, ¬ G.InArea b → ¬ G.InBitmap b → ¬ G.InPool b → d' b = d b

theorem aside_slot (hid : id < G.slots) : Aside G [(G.pos id).1] := by
  have hout := (Geometry.pos_inArea hid).outside
  refine ⟨?_, by rw [blockCacheSize]; simp⟩
  intro b hb hmem
  rw [List.mem_singleton.mp hmem] at hb
  exact hb.elim hout.2.1 hout.2.2

/-- On disk `d'` inode `ino` is in slot `id`, and elsewhere `d'` is `d₁`. -/
structure Stored (G : Geometry) (id : ℕ) (d₁ : Disk) (ino : DiskInode) (d' : Disk) : Prop where
  slot : G.slot d' id = ino
  other : ∀ j, j ≠ id → G.slot d' j = G.slot d₁ j
  frame : ∀ b, ¬ G.InArea b → d' b = d₁ b

theorem Stored.put (hid : id < G.slots) (hfits : ino.Fits) : Stored G id d₁ ino (G.put d₁ id ino) :=
  ⟨Geometry.slot_put_same hfits, fun _ hj => Geometry.slot_put_other hj,
    fun _ hb => Geometry.put_outside hid hb⟩

/-- Storing an inode in its slot changes no block of any inode. -/
theorem Stored.table (h : Stored G id d₁ ino' d')
    (hc : Changes G id (G.slot d) d (Function.update (G.slot d) id ino') d₁) {j : ℕ}
    (hj : j < G.slots) : G.slot d' j = Function.update (G.slot d) id ino' j := by
  by_cases hji : j = id
  · rw [hji, h.slot, Function.update_self]
  · rw [h.other j hji, Function.update_of_ne hji]
    exact Geometry.slot_congr (fun b hb => hc.outside b hb.outside.2.1 hb.outside.2.2) hj

theorem Stored.owned (h : Stored G id d₁ ino' d')
    (hc : Changes G id (G.slot d) d (Function.update (G.slot d) id ino') d₁) (hid : id < G.slots) :
    ino'.owned d' = ino'.owned d₁ ∧
      ∀ p, p < 512 * ino'.leafCount → ino'.byteAt d' p = ino'.byteAt d₁ p := by
  have hcongr := hc.core.owned_congr hid fun b hb =>
    h.frame b (hc.core.used id hid b hb).1.not_inArea
  rwa [Function.update_self] at hcongr

theorem Stored.stepped (h : Stored G id d₁ ino' d') (hcore : Core G (G.slot d) d)
    (hc : Changes G id (G.slot d) d (Function.update (G.slot d) id ino') d₁) :
    Stepped G id d d' := by
  refine ⟨hc.core.congr (fun j hj => h.table hc hj) fun b hb _ => h.frame b hb, ?_, ?_, ?_⟩
  · intro j hj hji
    rw [h.table hc hj, Function.update_of_ne hji]
  · intro j hj hji b hb
    rw [h.frame b (hcore.used j hj b hb).1.not_inArea, hc.keep j hj hji b hb]
  · intro b h1 h2 h3
    rw [h.frame b h1, hc.outside b h2 h3]

theorem Stored.tidy (h : Stored G id d₁ ino' d') (hid : id < G.slots)
    (hc : Changes G id (G.slot d) d (Function.update (G.slot d) id ino') d₁)
    (ht : Tidy G id (G.slot d) d (Function.update (G.slot d) id ino') d₁) :
    Tidy G id (G.slot d) d (G.slot d') d' := by
  intro b hb hu
  rw [Geometry.used_congr (fun c hc => h.frame c hc.not_inArea) hb] at hu
  rw [h.slot, (h.owned hc hid).1]
  have hb' := ht b hb hu
  rwa [Function.update_self] at hb'

/-- **Modifying a disk inode.**  The record that was read is replaced in its slot. -/
theorem wp_modifySlot {γ : Type} {f : DiskInode → DiskProg (DiskInode × γ)} {Q : γ → Disk → Prop}
    {E : Fault Panic → Prop} (hb : (G.pos id).1 ∉ held) (hlen : held.length < blockCacheSize)
    (h : dwp (f (G.slot d id)) ((G.pos id).1 :: held) d
      (fun r d₁ => d₁ (G.pos id).1 = d (G.pos id).1 ∧ Q r.2 (G.put d₁ id r.1)) E) :
    dwp (modifyInode (G.pos id).1 (G.pos id).2 f) held d Q E := by
  refine wp_update hb hlen (wp_bind'.mpr (wp_mono h ?_ fun _ he => he))
  rintro r d₁ ⟨hsame, hQ⟩
  refine wp_pure'.mpr ?_
  rw [Geometry.put, hsame] at hQ
  exact hQ

theorem wp_stepSlot {γ : Type} {f : DiskInode → DiskProg (DiskInode × γ)} {Q : γ → Disk → Prop}
    {E : Fault Panic → Prop} (hid : id < G.slots)
    (h : dwp (f (G.slot d id)) [(G.pos id).1] d
      (fun r d₁ => Changes G id (G.slot d) d (Function.update (G.slot d) id r.1) d₁ ∧
        ∀ d', Stored G id d₁ r.1 d' → Q r.2 d') E) :
    dwp ((G.handle id).modifyDiskInode f) [] d Q E := by
  refine wp_modifySlot List.not_mem_nil (by decide) (wp_mono h ?_ fun _ he => he)
  rintro r d₁ ⟨hc, hQ⟩
  have hout := (Geometry.pos_inArea hid).outside
  have hfits := hc.core.fits id hid
  rw [Function.update_self] at hfits
  exact ⟨hc.outside _ hout.2.1 hout.2.2, hQ _ (Stored.put hid hfits)⟩

/-! ### Images -/

/-- A file or a directory. -/
@[ext]
structure Node where
  kind : DiskInodeKind
  data : List UInt8
  deriving DecidableEq, Repr

/-- A file system as its users see it: a node and a mark for each inode number. -/
@[ext]
structure Image where
  node : ℕ → Node
  live : ℕ → Bool

/-- Node `id` replaced. -/
def Image.setNode (m : Image) (id : ℕ) (n : Node) : Image :=
  { m with node := Function.update m.node id n }

/-- The bytes of node `id` replaced. -/
def Image.setData (m : Image) (id : ℕ) (v : List UInt8) : Image :=
  m.setNode id { m.node id with data := v }

/-- The mark of inode number `id` replaced. -/
def Image.setLive (m : Image) (id : ℕ) (v : Bool) : Image :=
  { m with live := Function.update m.live id v }

section

variable (m : Image) {id j : ℕ} {n : Node} {v : List UInt8} {b : Bool}

@[simp] theorem Image.node_setNode_same : (m.setNode id n).node id = n := Function.update_self _ _ _

@[simp] theorem Image.node_setNode_other (h : j ≠ id) : (m.setNode id n).node j = m.node j :=
  Function.update_of_ne h _ _

@[simp] theorem Image.node_setData_same : (m.setData id v).node id = ⟨(m.node id).kind, v⟩ :=
  Function.update_self _ _ _

@[simp] theorem Image.node_setData_other (h : j ≠ id) : (m.setData id v).node j = m.node j :=
  Function.update_of_ne h _ _

@[simp] theorem Image.live_setData : (m.setData id v).live = m.live := rfl

@[simp] theorem Image.node_setLive : (m.setLive id b).node = m.node := rfl

@[simp] theorem Image.live_setLive_same : (m.setLive id b).live id = b := Function.update_self _ _ _

@[simp] theorem Image.live_setLive_other (h : j ≠ id) : (m.setLive id b).live j = m.live j :=
  Function.update_of_ne h _ _

end

/-- The node in a slot. -/
def Geometry.node (G : Geometry) (d : Disk) (id : ℕ) : Node :=
  ⟨(G.slot d id).kind, (G.slot d id).data d⟩

/-- The image on a disk. -/
def Geometry.image (G : Geometry) (d : Disk) : Image where
  node id := if id < G.slots then G.node d id else ⟨.file, []⟩
  live id := decide (id < G.slots) && G.live d id

theorem image_node (hid : id < G.slots) : (G.image d).node id = G.node d id := if_pos hid

theorem image_node_out (hid : ¬ id < G.slots) : (G.image d).node id = ⟨.file, []⟩ := if_neg hid

theorem image_live_eq (id : ℕ) : (G.image d).live id = (decide (id < G.slots) && G.live d id) := rfl

theorem image_live (hid : id < G.slots) : (G.image d).live id = G.live d id := by
  rw [image_live_eq, decide_eq_true hid, Bool.true_and]

theorem lt_slots_of_live (h : (G.image d).live id = true) : id < G.slots := by
  rw [image_live_eq, Bool.and_eq_true, decide_eq_true_eq] at h
  exact h.1

theorem Stepped.live_eq (h : Stepped G id d d') {j : ℕ} (hj : j < G.slots) :
    G.live d' j = G.live d j :=
  live_congr (fun b hb => h.outside b hb.outside.1 hb.outside.2.1 hb.outside.2.2) hj

/-- **Independence.**  The other nodes are untouched. -/
theorem Stepped.node_eq (h : Stepped G id d d') (hcore : Core G (G.slot d) d) {j : ℕ}
    (hj : j < G.slots) (hne : j ≠ id) : G.node d' j = G.node d j := by
  have hbytes := (hcore.owned_congr hj (h.keep j hj hne)).2
  rw [Geometry.node, Geometry.node, h.same j hj hne]
  refine congrArg (Node.mk _) (data_congr rfl ?_)
  intro p hp
  exact hbytes p (lt_of_lt_of_le hp (size_le_leaves _))

theorem Stepped.image_eq (h : Stepped G id d d') (hcore : Core G (G.slot d) d)
    (hid : id < G.slots) : G.image d' = (G.image d).setNode id (G.node d' id) := by
  apply Image.ext
  · funext j
    show (G.image d').node j = Function.update (G.image d).node id (G.node d' id) j
    by_cases hji : j = id
    · rw [hji, Function.update_self, image_node hid]
    · rw [Function.update_of_ne hji]
      by_cases hj : j < G.slots
      · rw [image_node hj, image_node hj, h.node_eq hcore hj hji]
      · rw [image_node_out hj, image_node_out hj]
  · funext j
    show (G.image d').live j = (G.image d).live j
    by_cases hj : j < G.slots
    · rw [image_live hj, image_live hj, h.live_eq hj]
    · rw [image_live_eq, image_live_eq, decide_eq_false hj, Bool.false_and, Bool.false_and]

end LemonCore.EasyFs
