import LemonCore.EasyFs.Operations

/-!
# Creating files and directories

`create_inode` looks the name up, takes the first free inode number, makes its disk inode an empty
one and appends an entry to the directory; `create_dir` then writes the entries `.` and `..`.

* `Created`: the file system after a creation;
* `createInode_op`, `createDir_op`: when a creation returns, and what it returns;
* `blockId_out`: an entry that would lie behind the largest file size is never written.
-/

namespace LemonCore.EasyFs

open Foundation.BorrowProgram Foundation.Overwrite

variable {G : Geometry} {d d' d₁ : Disk} {id off : ℕ} {held : List ℕ} {ino : DiskInode}

/-! ### Behind the largest size -/

theorem blockId_out {i : ℕ} (h : indirect3Bound ≤ i) {Q : ℕ → Disk → Prop} {E : Fault Panic → Prop}
    (hE : ∀ e, E e) : dwp (ino.blockId i) held d Q E := by
  obtain ⟨-, hfan, -, h2, h3, hb0, hb1, hb2, hb3⟩ := bounds_eq
  have hcube : indirect3Count = indirectCount * indirect2Count := by rw [h3, h2, pow_succ']
  have hpos : 0 < indirect2Count := by rw [indirect2Count]; norm_num
  rw [DiskInode.blockId, if_neg (by omega), if_neg (by omega), if_neg (by omega)]
  refine wp_bind'.mpr (wp_borrow_any hE ?_)
  have hout : ¬ (i - indirect2Bound) / indirect2Count < indirectCount := by
    rw [Nat.div_lt_iff_lt_mul hpos, ← hcube]
    omega
  rw [if_neg hout]
  exact wp_panic.mpr (hE _)

theorem writeAt_out {buf : List UInt8} (h : maxFileSize ≤ off) {Q : ℕ → Disk → Prop}
    {E : Fault Panic → Prop} (hE : ∀ e, E e) : dwp (ino.writeAt off buf) held d Q E := by
  rw [DiskInode.writeAt]
  refine wp_bind'.mpr ?_
  rw [Prog.assert]
  split
  · refine wp_pure.mpr ?_
    rw [DiskInode.writeLoop]
    refine wp_bind'.mpr (blockId_out ?_ hE)
    rw [maxFileSize] at h
    exact (Nat.le_div_iff_mul_le (by decide)).mpr h
  · exact wp_panic.mpr (hE _)

/-! ### Appending an entry -/

/-- The size of a directory with one more entry. -/
def DiskInode.appended (ino : DiskInode) : ℕ := (ino.size / direntSize + 1) * direntSize

/-- What appending an entry for `name` needs. -/
structure AppendOk (G : Geometry) (d : Disk) (id : ℕ) (name : String) : Prop where
  fits : (strBytes name).length ≤ nameLengthLimit + 1
  small : (G.slot d id).appended ≤ maxFileSize
  room : G.Room d id (G.slot d id).appended

theorem append_op (hcore : Core G (G.slot d) d) (hid : id < G.slots) (name : String) (new : ℕ) :
    dwp ((G.handle id).modifyDiskInode (Inode.appendDirent G.fs name new)) [] d
      (fun _ d' => (strBytes name).length ≤ nameLengthLimit + 1 ∧
        (G.slot d id).appended ≤ maxFileSize ∧
        SlotWrote G id d d' ((G.slot d id).size / direntSize * direntSize)
          (DirEntry.make name new).asBytes)
      fun _ => ¬ AppendOk G d id name := by
  have hheld := aside_slot hid
  have hlen := (DirEntry.make name new).length_asBytes
  have hne : (DirEntry.make name new).asBytes ≠ [] := by
    intro h
    rw [h] at hlen
    exact absurd hlen (by simp)
  have hfit : (G.slot d id).size / direntSize * direntSize + (DirEntry.make name new).asBytes.length =
      (G.slot d id).appended := by
    rw [hlen, DiskInode.appended, direntSize]
    omega
  refine wp_stepSlot hid ?_
  rw [Inode.appendDirent]
  by_cases hsmall : (G.slot d id).appended ≤ maxFileSize
  · have hmod : (G.slot d id).appended % 2 ^ 32 = (G.slot d id).appended :=
      Nat.mod_eq_of_lt (lt_of_le_of_lt hsmall maxFileSize_lt)
    refine wp_bind'.mpr ?_
    show dwp (G.fs.increaseSize ((G.slot d id).appended % 2 ^ 32) _) _ _ _ _
    rw [hmod]
    refine wp_mono (grow_spec hcore hid hheld hsmall) ?_ fun _ h hall => h hall.room
    intro ino₁ d₁ hg
    rw [← hfit] at hg
    refine wp_bind'.mpr ?_
    by_cases hname : (strBytes name).length ≤ nameLengthLimit + 1
    · rw [DirEntry.new_eq hname]
      refine wp_pure'.mpr (wp_bind'.mpr ?_)
      refine wp_mono (writeGrown_spec hcore hid hheld hne hg) ?_ fun _ h => h.elim
      rintro n d₂ ⟨_, hw⟩
      exact wp_pure'.mpr ⟨hw.changes, fun d' hs => ⟨hname, hsmall,
        SlotWrote.of_stored hcore hid hw hs⟩⟩
    · rw [DirEntry.new, dif_neg hname]
      exact wp_panic.mpr fun h => hname h.fits
  · -- the entry would lie behind the largest size
    have hE : ∀ e : Fault Panic, (fun _ => ¬ AppendOk G d id name) e := fun _ h => hsmall h.small
    refine wp_bind'.mpr (wp_any (fun ino₁ d₁ => wp_bind'.mpr ?_) hE)
    refine wp_any (fun e d₂ => wp_bind'.mpr (writeAt_out ?_ hE)) hE
    rw [DiskInode.appended, direntSize, maxFileSize, blockSize] at hsmall
    rw [direntSize, maxFileSize, blockSize]
    omega

/-! ### A fresh inode -/

variable {new dir : ℕ} {v : Bool} {kind : DiskInodeKind} {name : String}

theorem Marked.slot_eq (h : Marked G d d' id v) {j : ℕ} (hj : j < G.slots) :
    G.slot d' j = G.slot d j :=
  Geometry.slot_congr (fun b hb => h.frame b hb.outside.1) hj

theorem Marked.core (h : Marked G d d' id v) (hcore : Core G (G.slot d) d) :
    Core G (G.slot d') d' :=
  hcore.congr (fun _ hj => h.slot_eq hj) fun b _ hb => h.frame b hb

theorem Marked.node_eq (h : Marked G d d' id v) (hcore : Core G (G.slot d) d) {j : ℕ}
    (hj : j < G.slots) : G.node d' j = G.node d j := by
  have hbytes := (hcore.owned_congr hj fun b hb => h.frame b fun hi =>
    hi.outside.2.2 (hcore.used j hj b hb).1).2
  rw [Geometry.node, Geometry.node, h.slot_eq hj]
  refine congrArg (Node.mk _) (data_congr rfl ?_)
  intro p hp
  exact hbytes p (lt_of_lt_of_le hp (size_le_leaves _))

theorem Marked.free_eq (h : Marked G d d' id v) : G.free d' = G.free d :=
  Geometry.free_congr fun c hc => h.frame c fun hi => hi.outside.2.1 hc

theorem Marked.image_eq (h : Marked G d d' id v) (hcore : Core G (G.slot d) d)
    (hid : id < G.slots) : G.image d' = (G.image d).setLive id v := by
  apply Image.ext
  · funext j
    show (G.image d').node j = (G.image d).node j
    by_cases hj : j < G.slots
    · rw [image_node hj, image_node hj, h.node_eq hcore hj]
    · rw [image_node_out hj, image_node_out hj]
  · funext j
    show (G.image d').live j = Function.update (G.image d).live id v j
    rw [image_live_eq, h.live j]
    by_cases hji : j = id
    · rw [hji, if_pos rfl, Function.update_self, decide_eq_true hid, Bool.true_and]
    · rw [if_neg hji, Function.update_of_ne hji, image_live_eq]

theorem Marked.tails (h : Marked G d d' id v) (hcore : Core G (G.slot d) d) (ht : Tails G d) :
    Tails G d' := by
  intro j hj hkind p hp hp'
  rw [h.slot_eq hj] at hkind hp hp' ⊢
  rw [(hcore.owned_congr hj fun b hb => h.frame b fun hi =>
    hi.outside.2.2 (hcore.used j hj b hb).1).2 p hp']
  exact ht j hj hkind p hp hp'

/-- An empty disk inode in slot `new`. -/
structure Emptied (G : Geometry) (new : ℕ) (kind : DiskInodeKind) (d d' : Disk) : Prop where
  stepped : Stepped G new d d'
  kind_eq : (G.slot d' new).kind = kind
  size_eq : (G.slot d' new).size = 0
  frame : ∀ b, ¬ G.InArea b → d' b = d b

theorem emptySlot_spec (hcore : Core G (G.slot d) d) (hid : new < G.slots) :
    dwp (modifyInode (G.pos new).1 (G.pos new).2 fun ino => pure (ino.init kind, ())) [] d
      (fun _ d' => Emptied G new kind d d') fun _ => False := by
  have hnil : ((G.slot d new).init kind).owned d = [] := owned_of_size_zero rfl d
  have hc : Changes G new (G.slot d) d
      (Function.update (G.slot d) new ((G.slot d new).init kind)) d := by
    refine Changes.of_slot hcore hid (DiskInode.init_fits (hcore.fits new hid) kind) ?_ ?_ ?_ ?_ ?_ ?_
    · exact countDataBlock_le (Nat.zero_le _)
    · rw [hnil]
      exact List.nodup_nil
    · rw [hnil]
      exact fun b hb => absurd hb List.not_mem_nil
    · -- the blocks of the inode that was here before, if any, stay marked
      intro b hb _ _ hu
      rw [(hcore.used new hid b hb).2] at hu
      exact absurd hu (by simp)
    · exact fun _ _ _ _ => ⟨rfl, rfl⟩
    · exact fun _ _ _ => rfl
  refine wp_stepSlot hid (wp_pure'.mpr ⟨hc, fun d' hs => ⟨hs.stepped hcore hc, ?_, ?_, hs.frame⟩⟩)
  · rw [hs.slot]
    rfl
  · rw [hs.slot]
    rfl

theorem Emptied.image_eq (h : Emptied G new kind d d') (hcore : Core G (G.slot d) d)
    (hid : new < G.slots) : G.image d' = (G.image d).setNode new ⟨kind, []⟩ := by
  rw [h.stepped.image_eq hcore hid, Geometry.node, h.kind_eq, data_of_size_zero h.size_eq]

theorem Emptied.tails (h : Emptied G new kind d d') (hcore : Core G (G.slot d) d) (ht : Tails G d) :
    Tails G d' :=
  ht.step hcore h.stepped fun _ => zeroTail_of_size_zero h.size_eq

/-- A slot that was not allocated is taken without losing a block. -/
theorem Tight.allocate (h : Tight G d) (hcore : Core G (G.slot d) d)
    (hfresh : G.live d new = false) (hm : Marked G d d₁ new true) (he : Emptied G new kind d₁ d') :
    Tight G d' := by
  have hcore₁ := hm.core hcore
  have hpool : ∀ b, G.InPool b → d₁ b = d b := fun b hb => hm.frame b fun hi => hi.outside.2.2 hb
  have hlive : ∀ j, j < G.slots → j ≠ new → G.live d' j = G.live d j := by
    intro j hj hne
    rw [he.stepped.live_eq hj, hm.live j, if_neg hne]
  refine ⟨?_, ?_⟩
  · intro b hb hu
    rw [Geometry.used_congr (fun c hc => (he.frame c hc.not_inArea).trans
      (hm.frame c fun hi => hi.outside.2.1 hc)) hb] at hu
    obtain ⟨j, hj, hjl, hjo⟩ := h.owner b hb hu
    have hne : j ≠ new := by
      intro heq
      rw [heq, hfresh] at hjl
      exact absurd hjl (by simp)
    refine ⟨j, hj, (hlive j hj hne).trans hjl, ?_⟩
    rw [he.stepped.same j hj hne, (hcore₁.owned_congr hj (he.stepped.keep j hj hne)).1,
      hm.slot_eq hj, (hcore.owned_congr hj fun c hc => hpool c (hcore.used j hj c hc).1).1]
    exact hjo
  · intro j hj hjl
    by_cases hne : j = new
    · rw [hne]
      exact he.size_eq
    · rw [hlive j hj hne] at hjl
      rw [he.stepped.same j hj hne, hm.slot_eq hj]
      exact h.spare j hj hjl

/-! ### `create_inode` -/

/-- A block of the super block or past the pool: nothing writes there. -/
def Geometry.Outside (G : Geometry) (b : ℕ) : Prop :=
  ¬ G.InInodeBitmap b ∧ ¬ G.InArea b ∧ ¬ G.InBitmap b ∧ ¬ G.InPool b

/-- Inode `new` has been taken for a node called `name`; with `room` all new blocks are from the
data area. -/
structure Made (G : Geometry) (d d' : Disk) (new : ℕ) (name : String) (room : Prop) : Prop where
  lt : new < G.slots
  fresh : G.live d new = false
  first : ∀ j, j < new → G.live d j = true
  fits : (strBytes name).length ≤ nameLengthLimit + 1
  core : Core G (G.slot d') d'
  outside : ∀ b, G.Outside b → d' b = d b
  tails : room → Tails G d → Tails G d'
  tight : Tight G d → Tight G d'

/-- Inode `new` has been created in directory `dir` under `name`. -/
structure Created (G : Geometry) (d d' : Disk) (dir new : ℕ) (name : String)
    (kind : DiskInodeKind) : Prop extends
    Made G d d' new name (G.Room d dir (G.slot d dir).appended) where
  image : G.image d' = (G.image d).createInode dir new name kind
  card : G.Room d dir (G.slot d dir).appended →
    (G.free d).card ≤ (G.free d').card + (G.slot d dir).growth (G.slot d dir).appended

/-- What `create_inode` needs to return: a directory it can search and, when the name is new, an inode
number and room for the entry. -/
structure CreateOk (G : Geometry) (d : Disk) (dir : ℕ) (name : String) : Prop where
  directory : (G.node d dir).kind = .directory
  decodes : ∀ e ∈ entries (G.node d dir).data, e.name?.isSome
  append : lookup name (entries (G.node d dir).data) = none →
    AppendOk G d dir name ∧ ∃ j, j < G.slots ∧ G.live d j = false

theorem Created.of_steps {d₂ : Disk} (hcore : Core G (G.slot d) d) (hdir : dir < G.slots)
    (hlive : G.live d dir = true) (hnew : new < G.slots) (hfresh : G.live d new = false)
    (hfirst : ∀ j, j < new → G.live d j = true) (hfits : (strBytes name).length ≤ nameLengthLimit + 1)
    (hm : Marked G d d₁ new true) (he : Emptied G new kind d₁ d₂)
    (hw : SlotWrote G dir d₂ d' ((G.slot d dir).size / direntSize * direntSize)
      (DirEntry.make name new).asBytes) : Created G d d' dir new name kind := by
  have hne : dir ≠ new := by
    intro heq
    rw [heq, hfresh] at hlive
    exact absurd hlive (by simp)
  have hcore₁ := hm.core hcore
  have hcore₂ := he.stepped.core
  have hslot : G.slot d₂ dir = G.slot d dir := by
    rw [he.stepped.same dir hdir hne, hm.slot_eq hdir]
  have hfree : G.free d₂ = G.free d := by
    rw [Geometry.free_congr fun c hc => he.frame c hc.not_inArea, hm.free_eq]
  have hlen : (G.slot d dir).size / direntSize * direntSize +
      (DirEntry.make name new).asBytes.length = (G.slot d dir).appended := by
    rw [DirEntry.length_asBytes, DiskInode.appended, direntSize]
    omega
  have hroom : G.Room d₂ dir (G.slot d dir).appended ↔ G.Room d dir (G.slot d dir).appended := by
    rw [Geometry.Room, Geometry.Room, hslot, hfree]
  refine ⟨⟨hnew, hfresh, hfirst, hfits, hw.stepped.core, ?_, ?_, ?_⟩, ?_, ?_⟩
  rotate_left 3
  · have himage : G.image d₂ = (G.image d).allocate new kind := by
      rw [he.image_eq hcore₁ hnew, hm.image_eq hcore hnew]
      rfl
    rw [hw.image hcore₂ hdir (Or.inl (by rw [hslot, direntSize]; omega)), Image.createInode,
      Image.append, ← himage, image_node hdir]
    show _ = Image.write _ dir (((G.slot d₂ dir).data d₂).length / direntSize * direntSize) _
    rw [length_data, hslot]
  · intro hr
    have hcard := hw.card (by rw [hlen]; exact hroom.mpr hr)
    rwa [hlen, hslot, hfree] at hcard
  · rintro b ⟨h1, h2, h3, h4⟩
    rw [hw.stepped.outside b h2 h3 h4, he.frame b h2, hm.frame b h1]
  · intro hr ht
    exact hw.tails hcore₂ hdir (by rw [hlen]; exact hroom.mpr hr)
      (he.tails hcore₁ (hm.tails hcore ht))
  · intro ht
    refine (ht.allocate hcore hfresh hm he).step hcore₂ hdir ?_ hw.stepped hw.tidy
    rw [he.stepped.live_eq hdir, hm.live dir, if_neg hne]
    exact hlive

/-- **`create_inode`**: nothing changes when the name is taken; otherwise the first free inode is
created under it. -/
theorem createInode_op (hcore : Core G (G.slot d) d) (hdir : dir < G.slots)
    (hlive : G.live d dir = true) (name : String) (kind : DiskInodeKind) :
    dwp ((G.handle dir).createInode G.fs name kind) [] d
      (fun r d' => (G.node d dir).kind = .directory ∧
        ((lookup name (entries (G.node d dir).data) ≠ none ∧ r = none ∧ d' = d) ∨
        (lookup name (entries (G.node d dir).data) = none ∧
          ∃ new, r = some (G.handle new) ∧ Created G d d' dir new name kind)))
      fun _ => ¬ CreateOk G d dir name := by
  have hok := hcore.inodeOk hdir (aside_slot hdir)
  rw [Inode.createInode]
  have hread : dwp ((G.handle dir).readDiskInode fun dir => do
      Prog.assert dir.isDir Panic.assertion
      findInodeId name dir) [] d
      (fun r d' => d' = d ∧ (G.node d dir).kind = .directory ∧
        r = lookup name (entries (G.node d dir).data)) fun _ => ¬ CreateOk G d dir name := by
    refine wp_readSlot (wp_bind'.mpr ?_)
    by_cases hkind : (G.slot d dir).kind = .directory
    · refine wp_assert (by rw [DiskInode.isDir, hkind]; rfl) ?_
      refine wp_mono (findInodeId_spec hok (aside_slot hdir).bitmapFree.room name) (fun _ _ h => h) ?_
      exact fun _ h hall => h ⟨hall.directory, hall.decodes⟩
    · have hd : ¬ (G.slot d dir).isDir = true := by
        rw [DiskInode.isDir]
        simpa using hkind
      rw [Prog.assert, if_neg hd]
      exact wp_panic.mpr fun h => hkind h.directory
  refine wp_bind'.mpr (wp_mono hread ?_ fun _ h => h)
  rintro found d₀ ⟨hd, hkind, hfound⟩
  subst hd
  by_cases hsome : found.isSome = true
  · rw [if_pos hsome]
    refine wp_pure'.mpr ⟨hkind, Or.inl ⟨?_, rfl, rfl⟩⟩
    rw [← hfound]
    exact Option.isSome_iff_ne_none.mp hsome
  rw [if_neg hsome]
  have hnone : lookup name (entries (G.node d₀ dir).data) = none := by
    rw [← hfound]
    simpa using hsome
  refine wp_bind'.mpr (wp_mono (allocInode_spec (fun _ _ => List.not_mem_nil) (by decide)) ?_ ?_)
  swap
  · intro _ hall hok
    obtain ⟨j, hj, hjl⟩ := (hok.append hnone).2
    rw [hall j hj] at hjl
    exact absurd hjl (by simp)
  rintro new d₁ ⟨hnew, hfresh, hfirst, hm⟩
  have hcore₁ := hm.core hcore
  refine wp_bind'.mpr (wp_mono (emptySlot_spec hcore₁ hnew) ?_ fun _ h => h.elim)
  intro _ d₂ he
  have hne : dir ≠ new := by
    intro heq
    rw [heq, hfresh] at hlive
    exact absurd hlive (by simp)
  have hslot : G.slot d₂ dir = G.slot d₀ dir := by
    rw [he.stepped.same dir hdir hne, hm.slot_eq hdir]
  have hfree : G.free d₂ = G.free d₀ := by
    rw [Geometry.free_congr fun c hc => he.frame c hc.not_inArea, hm.free_eq]
  refine wp_bind'.mpr (wp_mono (append_op he.stepped.core hdir name new) ?_ ?_)
  swap
  · intro _ h hok
    have happ := (hok.append hnone).1
    refine h ⟨happ.fits, ?_, ?_⟩
    · rw [hslot]
      exact happ.small
    · rw [Geometry.Room, hslot, hfree]
      exact happ.room
  rintro _ d' ⟨hfits, _, hw⟩
  rw [hslot] at hw
  refine wp_bind'.mpr (wp_syncAll.mpr (wp_pure'.mpr ⟨hkind, Or.inr ⟨hnone, new, rfl, ?_⟩⟩))
  exact Created.of_steps hcore hdir hlive hnew hfresh hfirst hfits hm he hw

/-! ### `create_dir` -/

def Image.createDir (m : Image) (dir new : ℕ) (name : String) : Image :=
  (m.createInode dir new name .directory).setDefaultDirent new dir

/-- Room for one more entry and for the entries of a new directory. -/
def Geometry.DirRoom (G : Geometry) (d : Disk) (dir : ℕ) : Prop :=
  (G.slot d dir).growth (G.slot d dir).appended + 1 ≤ (G.free d).card

theorem Created.new_node (h : Created G d d' dir new name kind) (hlive : G.live d dir = true) :
    G.node d' new = ⟨kind, []⟩ ∧ G.live d' new = true := by
  have hne : new ≠ dir := by
    intro heq
    rw [← heq, h.fresh] at hlive
    exact absurd hlive (by simp)
  refine ⟨?_, ?_⟩
  · rw [← image_node h.lt, h.image]
    show Function.update (Function.update _ new _) dir _ new = _
    rw [Function.update_of_ne hne, Function.update_self]
  · rw [← image_live h.lt, h.image]
    exact Function.update_self _ _ _

/-- **`create_dir`.** -/
theorem createDir_op (hcore : Core G (G.slot d) d) (hdir : dir < G.slots)
    (hlive : G.live d dir = true) (name : String) :
    dwp ((G.handle dir).createDir G.fs name) [] d
      (fun r d' => (G.node d dir).kind = .directory ∧
        ((lookup name (entries (G.node d dir).data) ≠ none ∧ r = none ∧ d' = d) ∨
        (lookup name (entries (G.node d dir).data) = none ∧
          ∃ new, r = some (G.handle new) ∧ Made G d d' new name (G.DirRoom d dir) ∧
            G.image d' = (G.image d).createDir dir new name)))
      fun _ => ¬ (CreateOk G d dir name ∧
        (lookup name (entries (G.node d dir).data) = none → G.DirRoom d dir)) := by
  rw [Inode.createDir]
  refine wp_bind'.mpr (wp_mono (createInode_op hcore hdir hlive name .directory) ?_
    fun _ h hall => h hall.1)
  rintro r d₁ ⟨hkind, hcases⟩
  rcases hcases with ⟨hfound, hr, hd⟩ | ⟨hnone, new, hr, hmade⟩
  · subst hr
    exact wp_pure'.mpr ⟨hkind, Or.inl ⟨hfound, rfl, hd⟩⟩
  subst hr
  obtain ⟨hnode, hnewlive⟩ := hmade.new_node hlive
  have hsize : (G.slot d₁ new).size = 0 := by
    rw [← length_data (d := d₁), show (G.slot d₁ new).data d₁ = [] from congrArg Node.data hnode]
    rfl
  have hroom : G.DirRoom d dir → G.Room d dir (G.slot d dir).appended ∧
      G.Room d₁ new (0 + (dots new dir).length) := by
    intro hr
    rw [Geometry.DirRoom] at hr
    have hr₁ : G.Room d dir (G.slot d dir).appended := Nat.le_of_succ_le hr
    have hcard := hmade.card hr₁
    refine ⟨hr₁, ?_⟩
    rw [Geometry.Room, length_dots, growth_one_block hsize rfl]
    omega
  refine wp_bind'.mpr ?_
  rw [Geometry.inodeId_handle]
  refine wp_mono (setDefaultDirent_op hmade.core hmade.lt dir) ?_ ?_
  swap
  · intro _ h hall
    have hr := (hroom (hall.2 hnone)).2
    rw [length_dots] at hr
    exact h hr
  intro _ d' hw
  refine wp_pure'.mpr ⟨hkind, Or.inr ⟨hnone, new, rfl, ⟨hmade.lt, hmade.fresh, hmade.first,
    hmade.fits, hw.stepped.core, ?_, ?_, ?_⟩, ?_⟩⟩
  · intro b hb
    rw [hw.stepped.outside b hb.2.1 hb.2.2.1 hb.2.2.2, hmade.outside b hb]
  · intro hr ht
    obtain ⟨h1, h2⟩ := hroom hr
    exact hw.tails hmade.core hmade.lt h2 (hmade.tails h1 ht)
  · intro ht
    exact (hmade.tight ht).step hmade.core hmade.lt hnewlive hw.stepped hw.tidy
  · rw [hw.image hmade.core hmade.lt (Or.inl (Nat.zero_le _)), hmade.image]
    rfl

end LemonCore.EasyFs
