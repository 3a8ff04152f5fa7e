import LemonCore.EasyFs.Directory

/-!
# What the operations on inodes do

Each operation of `vfs.rs` has one specification: what it returns, what the image is afterwards, and
when it does not return.  `G.Room` says that the data area has the free blocks the operation takes;
with it the operation returns, and bytes that were never written are zero.

* `SlotWrote`: the common part of `write_at`, `set_default_dirent` and of the append in
  `create_inode`;
* `Tails` and `Tight`: the two invariants that hold only along some runs;
* `readAt_op`, `writeAt_op`, `clear_op`, `setDefaultDirent_op`, `find_op`.
-/

namespace LemonCore.EasyFs

open Foundation.BorrowProgram Foundation.Overwrite

/-! ### Operations on images -/

/-- What `read_at` hands out of the byte vector `v`: the count and the buffer. -/
def readResult (v : List UInt8) (off : ℕ) (buf : List UInt8) : ℕ × List UInt8 :=
  (((v.drop off).take buf.length).length,
    (v.drop off).take buf.length ++ buf.drop ((v.drop off).take buf.length).length)

/-- The bytes of the entries `.` and `..`. -/
def dots (id parent : ℕ) : List UInt8 :=
  (DirEntry.make "." id).asBytes ++ (DirEntry.make ".." parent).asBytes

theorem length_dots (id parent : ℕ) : 0 + (dots id parent).length = 2 * direntSize := by
  rw [dots, List.length_append, DirEntry.length_asBytes, DirEntry.length_asBytes]
  rfl

namespace Image

variable (m : Image)

def write (id off : ℕ) (buf : List UInt8) : Image :=
  m.setData id (overwrite 0 (m.node id).data off buf)

def clear (id : ℕ) : Image := m.setData id []

def setDefaultDirent (id parent : ℕ) : Image := m.write id 0 (dots id parent)

/-- A fresh empty node. -/
def allocate (id : ℕ) (kind : DiskInodeKind) : Image := (m.setLive id true).setNode id ⟨kind, []⟩

/-- An entry behind the last one. -/
def append (dir : ℕ) (e : DirEntry) : Image :=
  m.write dir ((m.node dir).data.length / direntSize * direntSize) e.asBytes

def createInode (dir new : ℕ) (name : String) (kind : DiskInodeKind) : Image :=
  (m.allocate new kind).append dir (.make name new)

variable {m} {id off j new dir : ℕ} {buf : List UInt8} {kind : DiskInodeKind} {name : String}

theorem node_write_other (h : j ≠ id) : (m.write id off buf).node j = m.node j :=
  node_setData_other m h

theorem kind_write (j : ℕ) : ((m.write id off buf).node j).kind = (m.node j).kind := by
  by_cases h : j = id
  · rw [h, write, node_setData_same]
  · rw [node_write_other h]

theorem node_append_other {e : DirEntry} (h : j ≠ dir) : (m.append dir e).node j = m.node j :=
  node_write_other h

theorem append_data {e : DirEntry} (hdvd : 32 ∣ (m.node dir).data.length) :
    ((m.append dir e).node dir).data = (m.node dir).data ++ e.asBytes := by
  rw [append, write, node_setData_same,
    show (m.node dir).data.length / direntSize * direntSize = (m.node dir).data.length from
      Nat.div_mul_cancel hdvd]
  exact overwrite_length _ _

theorem node_allocate_other (h : j ≠ new) : (m.allocate new kind).node j = m.node j :=
  node_setNode_other _ h

theorem node_allocate_same : (m.allocate new kind).node new = ⟨kind, []⟩ := node_setNode_same _

theorem live_createInode : (m.createInode dir new name kind).live = (m.setLive new true).live := rfl

end Image

/-! ### Invariants -/

/-- Files are zero behind their end. -/
def Tails (G : Geometry) (d : Disk) : Prop :=
  ∀ j, j < G.slots → (G.slot d j).kind = .file → ZeroTail d (G.slot d j)

/-- Every marked block belongs to an allocated inode, and inodes that are not allocated are empty. -/
structure Tight (G : Geometry) (d : Disk) : Prop where
  owner : ∀ b, G.InPool b → G.used d b = true →
    ∃ j, j < G.slots ∧ G.live d j = true ∧ b ∈ (G.slot d j).owned d
  spare : ∀ j, j < G.slots → G.live d j = false → (G.slot d j).size = 0

variable {G : Geometry} {tab : Table} {d d' d₁ : Disk} {id off : ℕ} {buf : List UInt8}
  {held : List ℕ} {room : Prop}

theorem Tight.step (h : Tight G d) (hcore : Core G (G.slot d) d) (hid : id < G.slots)
    (hlive : G.live d id = true) (hst : Stepped G id d d')
    (htidy : Tidy G id (G.slot d) d (G.slot d') d') : Tight G d' := by
  refine ⟨?_, ?_⟩
  · intro b hb hu
    rcases htidy b hb hu with ho | ⟨hu', hn⟩
    · exact ⟨id, hid, (hst.live_eq hid).trans hlive, ho⟩
    · obtain ⟨j, hj, hjl, hjo⟩ := h.owner b hb hu'
      have hne : j ≠ id := fun heq => hn (heq ▸ hjo)
      refine ⟨j, hj, (hst.live_eq hj).trans hjl, ?_⟩
      rw [hst.same j hj hne, (hcore.owned_congr hj (hst.keep j hj hne)).1]
      exact hjo
  · intro j hj hjl
    rw [hst.live_eq hj] at hjl
    have hne : j ≠ id := by
      intro heq
      rw [heq, hlive] at hjl
      exact absurd hjl (by simp)
    rw [hst.same j hj hne]
    exact h.spare j hj hjl

/-- The tails of the other inodes stay zero. -/
theorem Tails.step (h : Tails G d) (hcore : Core G (G.slot d) d) (hst : Stepped G id d d')
    (hself : (G.slot d' id).kind = .file → ZeroTail d' (G.slot d' id)) : Tails G d' := by
  intro j hj hkind
  by_cases hji : j = id
  · rw [hji] at hkind ⊢
    exact hself hkind
  · rw [hst.same j hj hji] at hkind ⊢
    intro p hp hp'
    rw [(hcore.owned_congr hj (hst.keep j hj hji)).2 p hp']
    exact h j hj hkind p hp hp'

/-! ### Writing into a slot -/

/-- The data area has the free blocks that inode `id` takes to grow to `newSize`. -/
def Geometry.Room (G : Geometry) (d : Disk) (id newSize : ℕ) : Prop :=
  (G.slot d id).growth newSize ≤ (G.free d).card

/-- Inode `id` has taken `buf` at position `off`, growing if it had to. -/
structure SlotWrote (G : Geometry) (id : ℕ) (d d' : Disk) (off : ℕ) (buf : List UInt8) : Prop where
  stepped : Stepped G id d d'
  tidy : Tidy G id (G.slot d) d (G.slot d') d'
  wrote : Wrote d (G.slot d id) d' (G.slot d' id) off buf (G.Room d id (off + buf.length))
  card : G.Room d id (off + buf.length) →
    (G.free d).card ≤ (G.free d').card + (G.slot d id).growth (off + buf.length)

/-- **The image after a write.** -/
theorem SlotWrote.image (h : SlotWrote G id d d' off buf) (hcore : Core G (G.slot d) d)
    (hid : id < G.slots) (hgap : off ≤ (G.slot d id).size ∨
      ZeroTail d (G.slot d id) ∧ G.Room d id (off + buf.length)) :
    G.image d' = (G.image d).write id off buf := by
  rw [h.stepped.image_eq hcore hid, Image.write, Image.setData, image_node hid, Geometry.node,
    h.wrote.kind, h.wrote.data hgap]
  rfl

theorem SlotWrote.tails (h : SlotWrote G id d d' off buf) (hcore : Core G (G.slot d) d)
    (hid : id < G.slots) (hroom : G.Room d id (off + buf.length)) (ht : Tails G d) : Tails G d' := by
  refine ht.step hcore h.stepped fun hkind => h.wrote.tail (ht id hid ?_) hroom
  rw [← hkind, h.wrote.kind]

theorem Wrote.stored {ino' : DiskInode}
    (h : Wrote d (G.slot d id) d₁ ino' off buf room) (hs : Stored G id d₁ ino' d')
    (hid : id < G.slots) (hc : Changes G id (G.slot d) d (Function.update (G.slot d) id ino') d₁) :
    Wrote d (G.slot d id) d' (G.slot d' id) off buf room := by
  have hbytes := (hs.owned hc hid).2
  have hsize := h.size
  have hle := size_le_leaves ino'
  have hcount : (G.slot d id).leafCount ≤ ino'.leafCount := leafCount_mono (by omega)
  rw [hs.slot]
  refine ⟨h.kind, hsize, ?_, ?_, ?_⟩
  · intro p hp
    rw [hbytes p (by omega), h.hit p hp]
  · intro p hp hout
    rw [hbytes p (by omega), h.old p hp hout]
  · intro hroom p hp hp' hout
    rw [hbytes p hp', h.new hroom p hp hp' hout]

/-- What is known of an inode that has grown and taken a buffer, before it is stored. -/
structure BodyWrote (G : Geometry) (id : ℕ) (tab : Table) (d : Disk) (off : ℕ) (buf : List UInt8)
    (ino' : DiskInode) (d' : Disk) : Prop where
  changes : Changes G id tab d (Function.update tab id ino') d'
  tidy : Tidy G id tab d (Function.update tab id ino') d'
  wrote : Wrote d (tab id) d' ino' off buf ((tab id).growth (off + buf.length) ≤ (G.free d).card)
  card : (tab id).growth (off + buf.length) ≤ (G.free d).card →
    (G.free d).card ≤ (G.free d').card + (tab id).growth (off + buf.length)

theorem SlotWrote.of_stored {ino' : DiskInode} (hcore : Core G (G.slot d) d) (hid : id < G.slots)
    (h : BodyWrote G id (G.slot d) d off buf ino' d₁) (hs : Stored G id d₁ ino' d') :
    SlotWrote G id d d' off buf := by
  refine ⟨hs.stepped hcore h.changes, hs.tidy hid h.changes h.tidy,
    h.wrote.stored hs hid h.changes, ?_⟩
  intro hroom
  rw [Geometry.free_congr fun c hc => hs.frame c hc.not_inArea]
  exact h.card hroom

theorem writeGrown_spec {ino₁ : DiskInode} (hcore : Core G tab d) (hid : id < G.slots)
    (hheld : Aside G held) (hne : buf ≠ []) (hg : Grew G id tab d (off + buf.length) ino₁ d₁) :
    dwp (ino₁.writeAt off buf) held d₁
      (fun n d₂ => n = buf.length ∧ BodyWrote G id tab d off buf ino₁ d₂) fun _ => False := by
  have hsize := hg.size
  have hw := write_spec hg.changes.core hid hheld off hne
  rw [Function.update_self] at hw
  refine wp_mono (hw (by omega)) ?_ fun _ h => h
  rintro n d₂ ⟨hn, hc, ht, hwr, hfree⟩
  refine ⟨hn, hg.changes.trans hcore hc, hg.tidy.trans ht,
    Wrote.of_grown hg.kind hsize hg.bytes hwr, ?_⟩
  rw [hfree]
  exact hg.card

/-! ### Reading -/

theorem wp_readSlot {γ : Type} {f : DiskInode → DiskProg γ} {Q : γ → Disk → Prop}
    {E : Fault Panic → Prop} (h : dwp (f (G.slot d id)) [(G.pos id).1] d Q E) :
    dwp ((G.handle id).readDiskInode f) [] d Q E :=
  wp_borrow List.not_mem_nil (by decide) h

/-- **`read_at`.** -/
theorem readAt_op (hcore : Core G (G.slot d) d) (hid : id < G.slots) (off : ℕ) (buf : List UInt8) :
    dwp ((G.handle id).readAt off buf) [] d
      (fun o d' => d' = d ∧ o = readResult (G.node d id).data off buf) fun _ => False := by
  refine wp_readSlot (wp_mono (readAt_spec (hcore.inodeOk hid (aside_slot hid))
    (aside_slot hid).bitmapFree.room off buf) ?_ fun _ h => h)
  rintro o d' ⟨hd, hcount, hbuf⟩
  refine ⟨hd, ?_⟩
  have hlen : (((G.slot d id).data d).drop off).length = (G.slot d id).size - off := by
    rw [List.length_drop, length_data]
  have hsrc : (G.slot d id).bytes d off (min buf.length ((G.slot d id).size - off)) =
      (((G.slot d id).data d).drop off).take buf.length := by
    rcases Nat.le_total (G.slot d id).size off with hle | hle
    · rw [Nat.sub_eq_zero_of_le hle, Nat.min_zero, List.drop_eq_nil_of_le (by rw [length_data]; exact hle),
        List.take_nil]
      rfl
    · rw [bytes_eq_data (by omega), ← hlen, ← List.take_eq_take_min]
  apply Prod.ext
  · rw [hcount]
    show _ = ((((G.slot d id).data d).drop off).take buf.length).length
    rw [List.length_take, hlen]
  · rw [hbuf, hsrc]
    show _ = (((G.slot d id).data d).drop off).take buf.length ++
      buf.drop ((((G.slot d id).data d).drop off).take buf.length).length
    rw [List.length_take, hlen]

/-- **`find`**: the handle of the inode that the first entry with the name refers to. -/
theorem find_op (hok : InodeOk d [(G.pos id).1] (G.slot d id)) (name : String) :
    dwp ((G.handle id).find G.fs name) [] d
      (fun r d' => d' = d ∧ (G.node d id).kind = .directory ∧
        r = (lookup name (entries (G.node d id).data)).map G.handle)
      fun _ => ¬ ((G.node d id).kind = .directory ∧
        ∀ e ∈ entries (G.node d id).data, e.name?.isSome) := by
  have hroom : [(G.pos id).1].length < blockCacheSize := show 1 < blockCacheSize by decide
  refine wp_readSlot (wp_bind'.mpr (wp_mono (findInodeId_spec hok hroom name) ?_ fun _ h => h))
  rintro r d' ⟨hd, hkind, hr⟩
  refine wp_pure'.mpr ⟨hd, hkind, ?_⟩
  rw [hr]
  rfl

/-! ### Writing and clearing -/

/-- **`write_at`** with a buffer that is not empty, up to the largest size of a file. -/
theorem writeAt_op (hcore : Core G (G.slot d) d) (hid : id < G.slots) (off : ℕ) {buf : List UInt8}
    (hne : buf ≠ []) (hsize : off + buf.length ≤ maxFileSize) :
    dwp ((G.handle id).writeAt G.fs off buf) [] d
      (fun n d' => n = buf.length ∧ (G.slot d id).kind = .file ∧
        SlotWrote G id d d' off buf)
      fun _ => ¬ ((G.slot d id).kind = .file ∧ G.Room d id (off + buf.length)) := by
  have hlt : (off + buf.length) % 2 ^ 32 = off + buf.length :=
    Nat.mod_eq_of_lt (lt_of_le_of_lt hsize maxFileSize_lt)
  rw [Inode.writeAt]
  refine wp_bind'.mpr (wp_stepSlot hid (wp_bind'.mpr ?_))
  by_cases hkind : (G.slot d id).kind = .file
  · refine wp_assert (by rw [DiskInode.isFile, hkind]; rfl) (wp_bind'.mpr ?_)
    rw [hlt]
    refine wp_mono (grow_spec hcore hid (aside_slot hid) hsize) ?_ fun _ h hall => h hall.2
    intro ino₁ d₁ hg
    refine wp_bind'.mpr (wp_mono (writeGrown_spec hcore hid (aside_slot hid) hne hg) ?_
      fun _ h => h.elim)
    rintro n d₂ ⟨hn, hw⟩
    refine wp_pure'.mpr ⟨hw.changes, fun d' hs => ?_⟩
    refine wp_bind'.mpr (wp_syncAll.mpr (wp_pure'.mpr ⟨hn, hkind, ?_⟩))
    exact SlotWrote.of_stored hcore hid hw hs
  · have hfile : ¬ (G.slot d id).isFile = true := by
      rw [DiskInode.isFile]
      simpa using hkind
    rw [Prog.assert, if_neg hfile]
    exact wp_panic.mpr fun h => hkind h.1

/-- **`clear`.** -/
theorem clear_op (hcore : Core G (G.slot d) d) (hid : id < G.slots) :
    dwp ((G.handle id).clear G.fs) [] d
      (fun _ d' => Stepped G id d d' ∧ Tidy G id (G.slot d) d (G.slot d') d' ∧
        (G.slot d' id).kind = (G.slot d id).kind ∧ (G.slot d' id).size = 0) fun _ => False := by
  rw [Inode.clear]
  refine wp_bind'.mpr (wp_stepSlot hid (wp_mono (clear_spec hcore hid (aside_slot hid)) ?_
    fun _ h => h))
  rintro r d₁ ⟨hkind, hsize, hc, ht⟩
  refine ⟨hc, fun d' hs => wp_syncAll.mpr ⟨hs.stepped hcore hc, hs.tidy hid hc ht, ?_, ?_⟩⟩
  · rw [hs.slot, hkind]
  · rw [hs.slot, hsize]

theorem data_of_size_zero {ino : DiskInode} (h : ino.size = 0) : ino.data d = [] := by
  apply List.length_eq_zero_iff.mp
  rw [length_data, h]

theorem Stepped.image_clear (h : Stepped G id d d') (hcore : Core G (G.slot d) d)
    (hid : id < G.slots) (hkind : (G.slot d' id).kind = (G.slot d id).kind)
    (hsize : (G.slot d' id).size = 0) : G.image d' = (G.image d).clear id := by
  rw [h.image_eq hcore hid, Image.clear, Image.setData, image_node hid, Geometry.node, hkind,
    data_of_size_zero hsize]
  rfl

theorem zeroTail_of_size_zero {ino : DiskInode} (h : ino.size = 0) : ZeroTail d ino := by
  intro p _ hp
  have hcount : ino.leafCount = 0 := by rw [DiskInode.leafCount, h]; rfl
  rw [hcount] at hp
  exact absurd hp (by omega)

/-- **`set_default_dirent`.** -/
theorem setDefaultDirent_op (hcore : Core G (G.slot d) d) (hid : id < G.slots) (parent : ℕ) :
    dwp ((G.handle id).setDefaultDirent G.fs parent) [] d
      (fun _ d' => SlotWrote G id d d' 0 (dots id parent))
      fun _ => ¬ G.Room d id (2 * direntSize) := by
  have hheld := aside_slot hid
  have hlen := length_dots id parent
  have hsize : 2 * direntSize ≤ maxFileSize := by
    rw [maxFileSize, indirect3Bound, blockSize, direntSize]
    norm_num
  have hne : ∀ e : DirEntry, e.asBytes ≠ [] := by
    intro e he
    have := e.length_asBytes
    rw [he] at this
    exact absurd this (by simp)
  have hdot : (strBytes ".").length ≤ nameLengthLimit + 1 := by decide
  have hdots : (strBytes "..").length ≤ nameLengthLimit + 1 := by decide
  rw [Inode.setDefaultDirent]
  refine wp_stepSlot hid (wp_bind'.mpr ?_)
  refine wp_mono (grow_spec hcore hid hheld hsize) ?_ fun _ h => h
  intro ino₁ d₁ hg
  have hgsize := hg.size
  rw [direntSize] at hgsize
  rw [DirEntry.new_eq hdot, DirEntry.new_eq hdots, Geometry.inodeId_handle]
  refine wp_bind'.mpr (wp_pure'.mpr ?_)
  have hw₁ := write_spec hg.changes.core hid hheld 0 (hne (DirEntry.make "." id))
  rw [Function.update_self] at hw₁
  refine wp_bind'.mpr (wp_mono (hw₁ (by rw [DirEntry.length_asBytes]; omega)) ?_ fun _ h => h.elim)
  rintro _ d₂ ⟨_, hc₂, ht₂, hwr₂, hfree₂⟩
  refine wp_bind'.mpr (wp_pure'.mpr ?_)
  have hw₂ := write_spec hc₂.core hid hheld direntSize (hne (DirEntry.make ".." parent))
  rw [Function.update_self] at hw₂
  refine wp_bind'.mpr (wp_mono (hw₂ (by rw [DirEntry.length_asBytes, direntSize]; omega)) ?_
    fun _ h => h.elim)
  rintro _ d₃ ⟨_, hc₃, ht₃, hwr₃, hfree₃⟩
  have hok := hg.changes.core.inodeOk hid hheld
  rw [Function.update_self] at hok
  have hwr : Written d₁ d₃ ino₁ 0 (dots id parent) := by
    refine hwr₂.append hok ?_
    rw [DirEntry.length_asBytes]
    exact hwr₃
  have hbody : BodyWrote G id (G.slot d) d 0 (dots id parent) ino₁ d₃ := by
    refine ⟨hg.changes.trans hcore (hc₂.trans hg.changes.core hc₃), hg.tidy.trans (ht₂.trans ht₃),
      ?_, ?_⟩
    · rw [hlen]
      exact Wrote.of_grown hg.kind (by rw [hg.size, hlen]) hg.bytes hwr
    · rw [hlen, hfree₃, hfree₂]
      exact hg.card
  exact wp_pure'.mpr ⟨hbody.changes, fun d' hs => SlotWrote.of_stored hcore hid hbody hs⟩

end LemonCore.EasyFs
