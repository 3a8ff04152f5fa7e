import LemonCore.EasyFs.Runs

/-!
# Every file is a byte vector

* `Image.Step`: the abstract machine.  A call on node `id` changes node `id` only, and what it does to
  the bytes of that node is an operation on one vector;
* `Sound`: the invariant of the runs without `delete`;
* `call_spec`: every call keeps the invariant and is a step of the abstract machine, and it returns
  when the file system has room for it.
-/

namespace LemonCore.EasyFs

open Foundation.BorrowProgram Foundation.Overwrite

variable {call : Call} {reply : Reply}

/-! ### The abstract machine -/

/-- The call writes bytes. -/
def Call.isWrite : Call → Bool
  | .writeAt _ _ _ => true
  | _ => false

/-- What the calls do to an image. -/
inductive Image.Step (G : Geometry) : Image → Call → Reply → Image → Prop
  | createOld {m dir name} : lookup name (entries (m.node dir).data) ≠ none →
      Step G m (.create (G.handle dir) name) (.inode none) m
  | createNew {m dir name new} : lookup name (entries (m.node dir).data) = none →
      m.live new = false → (strBytes name).length ≤ nameLengthLimit + 1 →
      Step G m (.create (G.handle dir) name) (.inode (some (G.handle new)))
        (m.createInode dir new name .file)
  | createDirOld {m dir name} : lookup name (entries (m.node dir).data) ≠ none →
      Step G m (.createDir (G.handle dir) name) (.inode none) m
  | createDirNew {m dir name new} : lookup name (entries (m.node dir).data) = none →
      m.live new = false → (strBytes name).length ≤ nameLengthLimit + 1 →
      Step G m (.createDir (G.handle dir) name) (.inode (some (G.handle new)))
        (m.createDir dir new name)
  | setDefaultDirent {m id parent} :
      Step G m (.setDefaultDirent (G.handle id) parent) .unit (m.setDefaultDirent id parent)
  | writeAt {m id off buf} : (m.node id).kind = .file →
      Step G m (.writeAt (G.handle id) off buf) (.count buf.length) (m.write id off buf)
  | readAt {m id off buf} : Step G m (.readAt (G.handle id) off buf)
      (.bytes (readResult (m.node id).data off buf).1 (readResult (m.node id).data off buf).2) m
  | clear {m id} : Step G m (.clear (G.handle id)) .unit (m.clear id)

/-- Runs of the abstract machine, the latest step first. -/
inductive Image.Run (G : Geometry) (m₀ : Image) : History → Image → Prop
  | init : Run G m₀ [] m₀
  | step {hist m call reply m'} : Run G m₀ hist m → m.Step G call reply m' →
      Run G m₀ ((call, reply) :: hist) m'

/-- A step of which only the kind of the written node is known when it is a write. -/
inductive Image.Move (G : Geometry) : Image → Call → Reply → Image → Prop
  | step {m call reply m'} : m.Step G call reply m' → call.isWrite = false → Move G m call reply m'
  | write {m id off buf n} : (m.node id).kind = .file → n.kind = .file →
      Move G m (.writeAt (G.handle id) off buf) (.count buf.length) (m.setNode id n)

/-- The directories hold whole entries, and their names are UTF-8. -/
def Image.Decodes (m : Image) : Prop := ∀ id, (m.node id).kind = .directory →
  32 ∣ (m.node id).data.length ∧ ∀ e ∈ entries (m.node id).data, e.name?.isSome

theorem Image.decodes_fresh : Image.fresh.Decodes := by
  intro id _
  have hdata : (Image.fresh.node id).data = [] := by
    show (if id = 0 then (⟨.directory, []⟩ : Node) else ⟨.file, []⟩).data = []
    split <;> rfl
  rw [hdata]
  exact ⟨Nat.dvd_zero _, fun e he => absurd he List.not_mem_nil⟩

variable {m : Image} {id dir new : ℕ} {name : String} {kind : DiskInodeKind}

theorem Image.Decodes.setNode (h : m.Decodes) {n : Node} (hn : n.kind = .directory →
    32 ∣ n.data.length ∧ ∀ e ∈ entries n.data, e.name?.isSome) : (m.setNode id n).Decodes := by
  intro j hj
  by_cases hji : j = id
  · rw [hji, Image.node_setNode_same] at hj ⊢
    exact hn hj
  · rw [Image.node_setNode_other m hji] at hj ⊢
    exact h j hj

theorem decodes_nil : 32 ∣ ([] : List UInt8).length ∧ ∀ e ∈ entries [], e.name?.isSome :=
  ⟨Nat.dvd_zero _, fun _ he => absurd he List.not_mem_nil⟩

theorem Image.Decodes.clear (h : m.Decodes) : (m.clear id).Decodes :=
  h.setNode fun _ => decodes_nil

theorem Image.Decodes.allocate (h : m.Decodes) : (m.allocate new kind).Decodes :=
  Image.Decodes.setNode (m := m.setLive new true) h fun _ => decodes_nil

theorem isSome_make (hname : (strBytes name).length ≤ nameLengthLimit + 1) (id : ℕ) :
    (DirEntry.make name id).name?.isSome := by
  rw [DirEntry.name?_make hname]
  rfl

theorem Image.Decodes.setDefaultDirent (h : m.Decodes) (parent : ℕ) :
    (m.setDefaultDirent id parent).Decodes := by
  refine h.setNode fun hkind => ?_
  obtain ⟨hdvd, hdec⟩ := h id hkind
  refine ⟨?_, ?_⟩
  · show 32 ∣ (overwrite 0 (m.node id).data 0 (dots id parent)).length
    rw [length_overwrite, length_dots, direntSize]
    omega
  · show ∀ e ∈ entries (overwrite 0 (m.node id).data 0 (dots id parent)), e.name?.isSome
    rw [dots, entries_overwrite_two _ _ hdvd]
    intro e he
    rcases List.mem_cons.mp he with rfl | he
    · exact isSome_make (by decide) _
    rcases List.mem_cons.mp he with rfl | he
    · exact isSome_make (by decide) _
    · exact hdec e (List.mem_of_mem_drop he)

theorem Image.Decodes.append (h : m.Decodes) {e : DirEntry} (he : e.name?.isSome) :
    (m.append dir e).Decodes := by
  intro j hj
  by_cases hjd : j = dir
  · rw [hjd] at hj ⊢
    rw [Image.append, Image.kind_write] at hj
    obtain ⟨hdvd, hdec⟩ := h dir hj
    rw [Image.append_data hdvd]
    refine ⟨?_, ?_⟩
    · rw [List.length_append, e.length_asBytes]
      omega
    · rw [entries_append hdvd]
      intro c hc
      rcases List.mem_append.mp hc with hc | hc
      · exact hdec c hc
      · rw [List.mem_singleton.mp hc]
        exact he
  · rw [Image.node_append_other hjd] at hj ⊢
    exact h j hj

theorem Image.Decodes.createInode (h : m.Decodes)
    (hname : (strBytes name).length ≤ nameLengthLimit + 1) :
    (m.createInode dir new name kind).Decodes :=
  h.allocate.append (isSome_make hname new)

/-! ### Which calls there are -/

/-- The calls of a run without `delete`: buffers to write are not empty, and no file gets larger than
`INDIRECT3_BOUND` blocks. -/
def Call.Plain : Call → Prop
  | .writeAt _ off buf => buf ≠ [] ∧ off + buf.length ≤ maxFileSize
  | .delete _ _ | .find _ _ => False
  | _ => True

/-- The call exhausts neither the data area nor the inode bitmap, and lets no directory get too
large. -/
def Call.Roomy (G : Geometry) (d : Disk) : Call → Prop
  | .create self name =>
    lookup name (entries (G.node d (self.inodeId G.fs)).data) = none →
      (∃ j, j < G.slots ∧ G.live d j = false) ∧
      (G.slot d (self.inodeId G.fs)).appended ≤ maxFileSize ∧
      G.Room d (self.inodeId G.fs) (G.slot d (self.inodeId G.fs)).appended
  | .createDir self name =>
    lookup name (entries (G.node d (self.inodeId G.fs)).data) = none →
      (∃ j, j < G.slots ∧ G.live d j = false) ∧
      (G.slot d (self.inodeId G.fs)).appended ≤ maxFileSize ∧ G.DirRoom d (self.inodeId G.fs)
  | .setDefaultDirent self _ => G.Room d (self.inodeId G.fs) (2 * direntSize)
  | .writeAt self off buf => G.Room d (self.inodeId G.fs) (off + buf.length)
  | _ => True

/-- The call is made on the kind of inode it is for, with a name that fits an entry. -/
def Call.Typed (G : Geometry) (d : Disk) : Call → Prop
  | .create self name | .createDir self name =>
    (G.node d (self.inodeId G.fs)).kind = .directory ∧
      (strBytes name).length ≤ nameLengthLimit + 1
  | .writeAt self _ _ => (G.node d (self.inodeId G.fs)).kind = .file
  | _ => True

/-! ### The invariant -/

/-- The file system is in order, and handles are those of allocated inodes. -/
structure Sound (G : Geometry) (d : Disk) (inodes : List Inode) : Prop where
  core : Core G (G.slot d) d
  super : SuperBlock.ofBlock (d 0) = G.superBlock
  decodes : (G.image d).Decodes
  known : ∀ h ∈ inodes, ∃ id, id < G.slots ∧ h = G.handle id ∧ G.live d id = true

variable {G : Geometry} {d d' : Disk} {inodes : List Inode}

theorem Formatted.sound (h : Formatted G d) : Sound G d [G.handle 0] := by
  have hlive : (G.image d).live 0 = true := by rw [h.image]; rfl
  refine ⟨h.core, h.super, h.image ▸ Image.decodes_fresh, ?_⟩
  intro i hi
  have h0 := lt_slots_of_live hlive
  exact ⟨0, h0, List.mem_singleton.mp hi, (image_live h0).symm.trans hlive⟩

theorem outside_zero : G.Outside 0 := by
  have h1 := G.dataBitmap_start
  have h2 := G.dataStart_eq
  refine ⟨fun h => ?_, fun h => ?_, fun h => ?_, fun h => ?_⟩
  · exact absurd h.1 (by omega)
  · exact absurd h.1 (by omega)
  · exact absurd h.1 (by omega)
  · exact absurd h.1 (by omega)

theorem Sound.known_of_live (h : Sound G d inodes)
    (hlive : ∀ j, j < G.slots → G.live d j = true → G.live d' j = true) :
    ∀ i ∈ inodes, ∃ id, id < G.slots ∧ i = G.handle id ∧ G.live d' id = true := by
  intro i hi
  obtain ⟨id, hid, heq, hl⟩ := h.known i hi
  exact ⟨id, hid, heq, hlive id hid hl⟩

theorem Sound.step (h : Sound G d inodes) (hst : Stepped G id d d')
    (hdec : (G.image d').Decodes) : Sound G d' inodes := by
  refine ⟨hst.core, ?_, hdec, h.known_of_live fun j hj hl => (hst.live_eq hj).trans hl⟩
  have hout := outside_zero (G := G)
  rw [hst.outside 0 hout.2.1 hout.2.2.1 hout.2.2.2, h.super]

theorem Sound.made {room : Prop} (h : Sound G d inodes) (hm : Made G d d' new name room)
    (hdec : (G.image d').Decodes) (hlive : (G.image d').live = ((G.image d).setLive new true).live) :
    Sound G d' (G.handle new :: inodes) := by
  have hl : ∀ j, j < G.slots → G.live d' j = ((G.image d).setLive new true).live j := by
    intro j hj
    rw [← image_live hj, hlive]
  refine ⟨hm.core, ?_, hdec, ?_⟩
  · rw [hm.outside 0 outside_zero, h.super]
  · intro i hi
    rcases List.mem_cons.mp hi with rfl | hi
    · exact ⟨new, hm.lt, rfl, by rw [hl new hm.lt, Image.live_setLive_same]⟩
    · refine h.known_of_live ?_ i hi
      intro j hj hjl
      rw [hl j hj]
      by_cases hjn : j = new
      · rw [hjn, Image.live_setLive_same]
      · rw [Image.live_setLive_other _ hjn, image_live hj, hjl]

/-! ### Every call -/

/-- What a call leaves behind. -/
structure Served (G : Geometry) (d : Disk) (inodes : List Inode) (call : Call) (reply : Reply)
    (d' : Disk) : Prop where
  sound : Sound G d' (reply.inodes ++ inodes)
  tight : Tight G d → Tight G d'
  tails : call.Roomy G d → Tails G d → Tails G d'
  move : (G.image d).Move G call reply (G.image d')
  step : call.Roomy G d → Tails G d → (G.image d).Step G call reply (G.image d')

theorem Served.of_step (hsound : Sound G d' (reply.inodes ++ inodes))
    (htight : Tight G d → Tight G d') (htails : call.Roomy G d → Tails G d → Tails G d')
    (hstep : (G.image d).Step G call reply (G.image d')) (hwrite : call.isWrite = false) :
    Served G d inodes call reply d' :=
  ⟨hsound, htight, htails, .step hstep hwrite, fun _ _ => hstep⟩

/-- A call that changes nothing. -/
theorem Served.same (h : Sound G d inodes) (hr : reply.inodes = [])
    (hstep : (G.image d).Step G call reply (G.image d)) (hwrite : call.isWrite = false) :
    Served G d inodes call reply d := by
  refine Served.of_step ?_ (fun ht => ht) (fun _ ht => ht) hstep hwrite
  rw [hr]
  exact h

theorem serve_create (h : Sound G d inodes) (hid : id < G.slots) (hlive : G.live d id = true)
    (name : String) :
    dwp ((Call.create (G.handle id) name).prog G.fs) [] d
      (fun reply d' => Served G d inodes (.create (G.handle id) name) reply d')
      fun _ => ¬ ((Call.create (G.handle id) name).Roomy G d ∧
        (Call.create (G.handle id) name).Typed G d) := by
  have hpos : (G.handle id).inodeId G.fs = id := G.inodeId_handle id
  refine wp_bind'.mpr (wp_mono (createInode_op h.core hid hlive name .file) ?_ ?_)
  swap
  · rintro _ hno ⟨hroom, hkind, hfits⟩
    rw [Call.Roomy, hpos] at hroom
    rw [hpos] at hkind
    have hdec := h.decodes id (by rw [image_node hid]; exact hkind)
    rw [image_node hid] at hdec
    refine hno ⟨hkind, hdec.2, fun hnone => ?_⟩
    obtain ⟨hfree, hsmall, hr⟩ := hroom hnone
    exact ⟨⟨hfits, hsmall, hr⟩, hfree⟩
  rintro r d' ⟨hkind, hcases⟩
  rw [← image_node hid] at hcases
  refine wp_pure'.mpr ?_
  rcases hcases with ⟨hsome, hr, hd⟩ | ⟨hnone, new, hr, hc⟩
  · subst hr hd
    exact Served.same h rfl (.createOld hsome) rfl
  · subst hr
    refine Served.of_step (h.made hc.toMade ?_ ?_) hc.tight ?_ ?_ rfl
    · rw [hc.image]
      exact h.decodes.createInode hc.fits
    · rw [hc.image]
      rfl
    · intro hroom
      rw [Call.Roomy, hpos, ← image_node hid] at hroom
      exact hc.tails (hroom hnone).2.2
    · rw [hc.image]
      exact .createNew hnone ((image_live hc.lt).trans hc.fresh) hc.fits

theorem serve_createDir (h : Sound G d inodes) (hid : id < G.slots) (hlive : G.live d id = true)
    (name : String) :
    dwp ((Call.createDir (G.handle id) name).prog G.fs) [] d
      (fun reply d' => Served G d inodes (.createDir (G.handle id) name) reply d')
      fun _ => ¬ ((Call.createDir (G.handle id) name).Roomy G d ∧
        (Call.createDir (G.handle id) name).Typed G d) := by
  have hpos : (G.handle id).inodeId G.fs = id := G.inodeId_handle id
  refine wp_bind'.mpr (wp_mono (createDir_op h.core hid hlive name) ?_ ?_)
  swap
  · rintro _ hno ⟨hroom, hkind, hfits⟩
    rw [Call.Roomy, hpos] at hroom
    rw [hpos] at hkind
    have hdec := h.decodes id (by rw [image_node hid]; exact hkind)
    rw [image_node hid] at hdec
    refine hno ⟨⟨hkind, hdec.2, fun hnone => ?_⟩, fun hnone => (hroom hnone).2.2⟩
    obtain ⟨hfree, hsmall, hr⟩ := hroom hnone
    exact ⟨⟨hfits, hsmall, Nat.le_of_succ_le hr⟩, hfree⟩
  rintro r d' ⟨hkind, hcases⟩
  rw [← image_node hid] at hcases
  refine wp_pure'.mpr ?_
  rcases hcases with ⟨hsome, hr, hd⟩ | ⟨hnone, new, hr, hmade, himage⟩
  · subst hr hd
    exact Served.same h rfl (.createDirOld hsome) rfl
  · subst hr
    refine Served.of_step (h.made hmade ?_ ?_) hmade.tight ?_ ?_ rfl
    · rw [himage]
      exact (h.decodes.createInode hmade.fits).setDefaultDirent id
    · rw [himage]
      rfl
    · intro hroom
      rw [Call.Roomy, hpos, ← image_node hid] at hroom
      exact hmade.tails (hroom hnone).2.2
    · rw [himage]
      exact .createDirNew hnone ((image_live hmade.lt).trans hmade.fresh) hmade.fits

theorem serve_setDefaultDirent (h : Sound G d inodes) (hid : id < G.slots)
    (hlive : G.live d id = true) (parent : ℕ) :
    dwp ((Call.setDefaultDirent (G.handle id) parent).prog G.fs) [] d
      (fun reply d' => Served G d inodes (.setDefaultDirent (G.handle id) parent) reply d')
      fun _ => ¬ ((Call.setDefaultDirent (G.handle id) parent).Roomy G d ∧
        (Call.setDefaultDirent (G.handle id) parent).Typed G d) := by
  have hpos : (G.handle id).inodeId G.fs = id := G.inodeId_handle id
  refine wp_bind'.mpr (wp_mono (setDefaultDirent_op h.core hid parent) ?_ ?_)
  swap
  · rintro _ hno ⟨hroom, _⟩
    rw [Call.Roomy, hpos] at hroom
    exact hno hroom
  intro _ d' hw
  have himage : G.image d' = (G.image d).setDefaultDirent id parent :=
    hw.image h.core hid (Or.inl (Nat.zero_le _))
  refine wp_pure'.mpr (Served.of_step (h.step hw.stepped ?_) ?_ ?_ ?_ rfl)
  · rw [himage]
    exact h.decodes.setDefaultDirent parent
  · exact fun ht => ht.step h.core hid hlive hw.stepped hw.tidy
  · intro hroom ht
    rw [Call.Roomy, hpos, ← length_dots id parent] at hroom
    exact hw.tails h.core hid hroom ht
  · rw [himage]
    exact .setDefaultDirent

theorem serve_writeAt (h : Sound G d inodes) (hid : id < G.slots) (hlive : G.live d id = true)
    {off : ℕ} {buf : List UInt8} (hplain : (Call.writeAt (G.handle id) off buf).Plain) :
    dwp ((Call.writeAt (G.handle id) off buf).prog G.fs) [] d
      (fun reply d' => Served G d inodes (.writeAt (G.handle id) off buf) reply d')
      fun _ => ¬ ((Call.writeAt (G.handle id) off buf).Roomy G d ∧
        (Call.writeAt (G.handle id) off buf).Typed G d) := by
  have hpos : (G.handle id).inodeId G.fs = id := G.inodeId_handle id
  refine wp_bind'.mpr (wp_mono (writeAt_op h.core hid off hplain.1 hplain.2) ?_ ?_)
  swap
  · rintro _ hno ⟨hroom, htyped⟩
    rw [Call.Roomy, hpos] at hroom
    rw [Call.Typed, hpos] at htyped
    exact hno ⟨htyped, hroom⟩
  rintro n d' ⟨hn, hkind, hw⟩
  subst hn
  have hfile : (G.node d' id).kind = .file := hw.wrote.kind.trans hkind
  have hfile₀ : ((G.image d).node id).kind = .file := by
    rw [image_node hid]
    exact hkind
  refine wp_pure'.mpr ⟨h.step hw.stepped ?_, ?_, ?_, ?_, ?_⟩
  · -- the bytes of a file are not read as entries
    rw [hw.stepped.image_eq h.core hid]
    refine h.decodes.setNode fun hdir => ?_
    exact absurd (hfile.symm.trans hdir) (by simp)
  · exact fun ht => ht.step h.core hid hlive hw.stepped hw.tidy
  · intro hroom ht
    rw [Call.Roomy, hpos] at hroom
    exact hw.tails h.core hid hroom ht
  · rw [hw.stepped.image_eq h.core hid]
    exact .write hfile₀ hfile
  · intro hroom ht
    rw [Call.Roomy, hpos] at hroom
    rw [hw.image h.core hid (Or.inr ⟨ht id hid hkind, hroom⟩)]
    exact .writeAt hfile₀

theorem serve_readAt (h : Sound G d inodes) (hid : id < G.slots) (off : ℕ) (buf : List UInt8) :
    dwp ((Call.readAt (G.handle id) off buf).prog G.fs) [] d
      (fun reply d' => Served G d inodes (.readAt (G.handle id) off buf) reply d')
      fun _ => False := by
  refine wp_bind'.mpr (wp_mono (readAt_op h.core hid off buf) ?_ fun _ hno => hno)
  rintro o d' ⟨hd, ho⟩
  subst hd ho
  refine wp_pure'.mpr (Served.same h rfl ?_ rfl)
  rw [← image_node hid]
  exact .readAt

theorem serve_clear (h : Sound G d inodes) (hid : id < G.slots) (hlive : G.live d id = true) :
    dwp ((Call.clear (G.handle id)).prog G.fs) [] d
      (fun reply d' => Served G d inodes (.clear (G.handle id)) reply d') fun _ => False := by
  refine wp_bind'.mpr (wp_mono (clear_op h.core hid) ?_ fun _ hno => hno)
  rintro _ d' ⟨hst, htidy, hkind, hsize⟩
  have himage := hst.image_clear h.core hid hkind hsize
  refine wp_pure'.mpr (Served.of_step (h.step hst ?_) ?_ ?_ ?_ rfl)
  · rw [himage]
    exact h.decodes.clear
  · exact fun ht => ht.step h.core hid hlive hst htidy
  · exact fun _ ht => ht.step h.core hst fun _ => zeroTail_of_size_zero hsize
  · rw [himage]
    exact .clear

/-- **Every call** on a known handle keeps the invariant, and returns when there is room for it. -/
theorem call_spec (h : Sound G d inodes) {call : Call} (hmem : call.self ∈ inodes)
    (hplain : call.Plain) :
    dwp (call.prog G.fs) [] d (fun reply d' => Served G d inodes call reply d')
      fun _ => ¬ (call.Roomy G d ∧ call.Typed G d) := by
  obtain ⟨id, hid, hself, hlive⟩ := h.known _ hmem
  cases call with
  | create self name =>
    cases hself
    exact serve_create h hid hlive name
  | createDir self name =>
    cases hself
    exact serve_createDir h hid hlive name
  | setDefaultDirent self parent =>
    cases hself
    exact serve_setDefaultDirent h hid hlive parent
  | writeAt self off buf =>
    cases hself
    exact serve_writeAt h hid hlive hplain
  | readAt self off buf =>
    cases hself
    exact wp_mono (serve_readAt h hid off buf) (fun _ _ hs => hs) fun _ hno => hno.elim
  | clear self =>
    cases hself
    exact wp_mono (serve_clear h hid hlive) (fun _ _ hs => hs) fun _ hno => hno.elim
  | delete self name => exact hplain.elim
  | find self name => exact hplain.elim

/-! ### Runs -/

/-- The calls of runs that exhaust nothing. -/
def Call.Roomed (G : Geometry) (_ : History) (d : Disk) (call : Call) : Prop :=
  call.Plain ∧ call.Roomy G d

theorem Run.served {d₀ : Disk} {hist : History} {s : System} (h : Run G (Call.Roomed G) d₀ hist s) :
    Sound G s.cache.content s.inodes ∧ Tails G s.cache.content ∧ Tight G s.cache.content ∧
      Image.Run G .fresh hist (G.image s.cache.content) := by
  refine (h.induct (P := fun hist d inodes => Sound G d inodes ∧ Tails G d ∧ Tight G d ∧
    Image.Run G .fresh hist (G.image d)) ?_ ?_).2.2
  · intro d hformat
    refine ⟨hformat.sound, hformat.tails, hformat.tight, ?_⟩
    rw [hformat.image]
    exact .init
  · rintro hist d inodes call reply d' ⟨hsound, htails, htight, habs⟩ hmem ⟨hplain, hroom⟩ hrun
    have hs := wp_result (call_spec hsound hmem hplain) hrun
    exact ⟨hs.sound, hs.tails hroom htails, hs.tight htight,
      .step habs (hs.step hroom htails)⟩

/-- No call changes a node that has another handle. -/
theorem Image.Step.other {m' : Image} {j : ℕ}
    (h : m.Step G call reply m') (hlive : m.live j = true) (hne : G.handle j ≠ call.self) :
    m'.node j = m.node j := by
  have hnew : ∀ {k}, m.live k = false → j ≠ k := by
    intro k hk heq
    rw [heq, hk] at hlive
    exact absurd hlive (by simp)
  have hself : ∀ {k}, G.handle j ≠ G.handle k → j ≠ k := fun hn heq => hn (congrArg G.handle heq)
  cases h with
  | createOld _ => rfl
  | createNew _ hfresh _ =>
    rw [Image.createInode, Image.node_append_other (hself hne), Image.node_allocate_other (hnew hfresh)]
  | createDirOld _ => rfl
  | createDirNew _ hfresh _ =>
    rw [Image.createDir, Image.setDefaultDirent, Image.node_write_other (hnew hfresh),
      Image.createInode, Image.node_append_other (hself hne), Image.node_allocate_other (hnew hfresh)]
  | setDefaultDirent => exact Image.node_write_other (hself hne)
  | writeAt _ => exact Image.node_write_other (hself hne)
  | readAt => rfl
  | clear => exact Image.node_setData_other _ (hself hne)

theorem Image.Step.of_writeAt {m' : Image} {off : ℕ} {buf : List UInt8}
    (h : m.Step G (.writeAt (G.handle id) off buf) reply m') :
    reply = .count buf.length ∧ m' = m.write id off buf := by
  generalize hcall : Call.writeAt (G.handle id) off buf = call at h
  cases h with
  | writeAt _ =>
    rw [Call.writeAt.injEq] at hcall
    obtain ⟨hself, hoff, hbuf⟩ := hcall
    subst hoff hbuf
    rw [Geometry.handle_inj hself]
    exact ⟨rfl, rfl⟩
  | _ => exact absurd hcall (by simp)

/-- **Files are byte vectors.**  A run that exhausts nothing is a run of the abstract machine.  In
every state of such a run, a call that is made on the right kind of inode, and for which there is
room, returns; it is a step of the abstract machine, and nothing changes behind the other handles. -/
theorem files_are_byte_vectors {d₀ : Disk} {hist : History} {s : System}
    (h : Run G (Call.Roomed G) d₀ hist s) :
    Image.Run G .fresh hist (G.image s.cache.content) ∧
    ∀ call : Call, call.self ∈ s.inodes → call.Plain → call.Roomy G s.cache.content →
      call.Typed G s.cache.content →
      ∃ reply c, exec cacheMachine (call.prog s.fs) s.cache = .ok (reply, c) ∧
        (G.image s.cache.content).Step G call reply (G.image c.content) ∧
        ∀ other ∈ s.inodes, other ≠ call.self →
          G.node c.content (other.inodeId G.fs) = G.node s.cache.content (other.inodeId G.fs) := by
  obtain ⟨hsound, htails, _, habs⟩ := h.served
  refine ⟨habs, fun call hmem hplain hroom htyped => ?_⟩
  obtain ⟨reply, c, hexec, _, hserved⟩ := h.extend hmem ⟨hplain, hroom⟩
    (call_spec hsound hmem hplain) fun _ hno => hno ⟨hroom, htyped⟩
  have hstep := hserved.step hroom htails
  refine ⟨reply, c, hexec, hstep, fun other hother hne => ?_⟩
  obtain ⟨j, hj, heq, hlive⟩ := hsound.known other hother
  have hnode := hstep.other ((image_live hj).trans hlive) (heq ▸ hne)
  rw [image_node hj, image_node hj] at hnode
  rw [heq, Geometry.inodeId_handle, hnode]

/-! ### A first file -/

theorem Formatted.createOk (h : Formatted G d) (hfits : (strBytes name).length ≤ nameLengthLimit + 1)
    (hspace : G.dataStart < G.total) : CreateOk G d 0 name := by
  have hlive : ∀ j, (G.image d).live j = decide (j = 0) := fun j => by rw [h.image]; rfl
  have h0 : 0 < G.slots := lt_slots_of_live (hlive 0)
  have hone : (1 : ℕ) < G.slots := by
    have := G.inodeBlocks_pos
    rw [Geometry.slots]
    omega
  have hnode : G.node d 0 = ⟨.directory, []⟩ := by
    rw [← image_node h0, h.image]
    rfl
  have hsize := h.size_eq h0
  have happended : (G.slot d 0).appended = direntSize := by
    rw [DiskInode.appended, hsize]
    rfl
  refine ⟨by rw [hnode], by rw [hnode]; exact fun _ he => absurd he List.not_mem_nil, fun _ => ?_⟩
  refine ⟨⟨hfits, ?_, ?_⟩, 1, hone, (image_live hone).symm.trans (hlive 1)⟩
  · rw [happended, maxFileSize, indirect3Bound, blockSize, direntSize]
    norm_num
  · rw [Geometry.Room, happended, growth_one_block hsize rfl, h.card_free]
    omega

theorem CreateOk.roomy (h : CreateOk G d dir name) : (Call.create (G.handle dir) name).Roomy G d := by
  have hpos : (G.handle dir).inodeId G.fs = dir := G.inodeId_handle dir
  rw [Call.Roomy, hpos]
  intro hnone
  obtain ⟨happend, hfree⟩ := h.append hnone
  exact ⟨hfree, happend.small, happend.room⟩

theorem exists_one_byte_run : ∃ s, Run .efsTest (Call.Roomed .efsTest) (fun _ => Block.zero) byteHist s ∧
    s.fs = Geometry.efsTest.fs ∧ Presents s.cache [] (diskAfter .efsTest byteHist) := by
  have hcreate : (Call.create (Geometry.efsTest.handle 0) "a").Roomed .efsTest [] (diskAfter .efsTest []) :=
    ⟨trivial, ((formatted_newDisk .efsTest).createOk (by decide) (by decide)).roomy⟩
  have hroom : Geometry.efsTest.Room (diskAfter .efsTest fileHist) 1 1 := by
    have hgrow : (Geometry.efsTest.slot (diskAfter .efsTest fileHist) 1).growth 1 = 1 := by decide +kernel
    rw [Geometry.Room, hgrow]
    refine Finset.card_pos.mpr ⟨Geometry.efsTest.dataStart + 1, Geometry.mem_free.mpr ?_⟩
    decide +kernel
  have hwrite : (Call.writeAt (Geometry.efsTest.handle 1) 0 [7]).Roomed .efsTest fileHist
      (diskAfter .efsTest fileHist) := by
    refine ⟨⟨by simp, ?_⟩, ?_⟩
    · rw [maxFileSize, indirect3Bound, blockSize]
      norm_num
    · rw [Call.Roomy, Geometry.inodeId_handle]
      exact hroom
  obtain ⟨s, hrun, hfs, hp, _⟩ := exists_play _ (Call.Roomed .efsTest) byteHist
    ⟨⟨trivial, by decide, hcreate, by decide +kernel⟩, by decide, hwrite, by decide +kernel⟩
  exact ⟨s, hrun, hfs, hp⟩

theorem files_are_byte_vectors_one_byte : ∃ hist s,
    Run .efsTest (Call.Roomed .efsTest) (fun _ => Block.zero) hist s ∧ hist.length = 2 ∧
    Image.Run .efsTest .fresh hist (Geometry.efsTest.image s.cache.content) := by
  obtain ⟨s, hrun, _⟩ := exists_one_byte_run
  exact ⟨_, s, hrun, rfl, (files_are_byte_vectors hrun).1⟩

/-- With these sizes the sums of `create` wrap and the second data block is the block of the inodes 0 to
3: the first write to a new file waits for the lock it holds. -/
theorem write_at_overlapping_areas :
    (exec cacheMachine (do
      let fs ← EasyFileSystem.create 8384511 4194303
      let file ← fs.rootInode.create fs "a"
      file.elim (pure 0) fun file => file.writeAt fs 0 [1]) (.init fun _ => .zero)).map Prod.fst =
      .error (.locked 4194304) := by
  rw [exec_blank (by decide)]
  simp only [Inode.create, Inode.createInode, EasyFileSystem.allocInode, alloc_first_block]
  decide +kernel

end LemonCore.EasyFs
