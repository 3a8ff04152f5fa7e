import LemonCore.EasyFs.ByteVectors
import LemonCore.EasyFs.Deletion

/-!
# Runs with `delete`

* `Image.Distinct`: the names within each directory are pairwise distinct.  Every call keeps this, as
  long as new names have no NUL;
* `Run.linked`: the invariant of the runs in which `delete` works on small directories;
* `delete_removes_entry`: in such a run `delete` removes one entry and nothing else.
-/

namespace LemonCore.EasyFs

open Foundation.BorrowProgram Foundation.SwapRemove

/-! ### Names are distinct -/

/-- The names within each directory are pairwise distinct. -/
def Image.Distinct (m : Image) : Prop := ∀ id, (m.node id).kind = .directory →
  ((entries (m.node id).data).map DirEntry.name?).Nodup

variable {G : Geometry} {m m' : Image} {id dir new i k : ℕ} {name : String} {kind : DiskInodeKind}

theorem Image.distinct_fresh : Image.fresh.Distinct := by
  intro id _
  have hdata : (Image.fresh.node id).data = [] := by
    show (if id = 0 then (⟨.directory, []⟩ : Node) else ⟨.file, []⟩).data = []
    split <;> rfl
  rw [hdata]
  exact List.nodup_nil

theorem Image.Distinct.setNode (h : m.Distinct) {n : Node}
    (hn : n.kind = .directory → ((entries n.data).map DirEntry.name?).Nodup) :
    (m.setNode id n).Distinct := by
  intro j hj
  by_cases hji : j = id
  · rw [hji, Image.node_setNode_same] at hj ⊢
    exact hn hj
  · rw [Image.node_setNode_other m hji] at hj ⊢
    exact h j hj

theorem Image.Distinct.allocate (h : m.Distinct) : (m.allocate new kind).Distinct :=
  Image.Distinct.setNode (m := m.setLive new true) h fun _ => by simp

theorem Image.Distinct.append (h : m.Distinct) {e : DirEntry}
    (hdvd : (m.node dir).kind = .directory → 32 ∣ (m.node dir).data.length)
    (hnew : ∀ c ∈ entries (m.node dir).data, c.name? ≠ e.name?) : (m.append dir e).Distinct := by
  intro j hj
  by_cases hjd : j = dir
  · rw [hjd] at hj ⊢
    rw [Image.append, Image.kind_write] at hj
    rw [Image.append_data (hdvd hj), entries_append (hdvd hj), List.map_append]
    refine List.nodup_append.mpr ⟨h dir hj, by simp, ?_⟩
    intro a ha b hb heq
    obtain ⟨c, hc, hca⟩ := List.mem_map.mp ha
    rw [List.map_singleton, List.mem_singleton] at hb
    exact hnew c hc (hca.trans (heq.trans hb))
  · rw [Image.node_append_other hjd] at hj ⊢
    exact h j hj

theorem name?_make_of_nulFree (hname : (strBytes name).length ≤ nameLengthLimit + 1)
    (hnul : Char.ofNat 0 ∉ name.toList) (id : ℕ) : (DirEntry.make name id).name? = some name := by
  rw [DirEntry.name?_make hname, cutNul_of_nulFree hnul]

theorem Image.Distinct.createInode (h : m.Distinct) (hdec : m.Decodes) (hne : dir ≠ new)
    (hnone : lookup name (entries (m.node dir).data) = none)
    (hfits : (strBytes name).length ≤ nameLengthLimit + 1) (hnul : Char.ofNat 0 ∉ name.toList) :
    (m.createInode dir new name kind).Distinct := by
  have hnode : (m.allocate new kind).node dir = m.node dir := Image.node_allocate_other hne
  refine h.allocate.append ?_ ?_
  · rw [hnode]
    exact fun hkind => (hdec dir hkind).1
  · rw [hnode, name?_make_of_nulFree hfits hnul]
    exact lookup_eq_none.mp hnone

theorem name?_dot (id : ℕ) : (DirEntry.make "." id).name? = some "." :=
  name?_make_of_nulFree (by decide) (by decide) id

theorem name?_dotdot (id : ℕ) : (DirEntry.make ".." id).name? = some ".." :=
  name?_make_of_nulFree (by decide) (by decide) id

theorem entries_setDefaultDirent (parent : ℕ) (hempty : (m.node id).data = []) :
    entries ((m.setDefaultDirent id parent).node id).data =
      [DirEntry.make "." id, DirEntry.make ".." parent] := by
  rw [Image.setDefaultDirent, Image.write, Image.node_setData_same, hempty, dots,
    entries_overwrite_two _ _ (by simp)]
  rfl

theorem Image.Distinct.setDefaultDirent (h : m.Distinct) (parent : ℕ)
    (hempty : (m.node id).data = []) : (m.setDefaultDirent id parent).Distinct := by
  intro j hj
  by_cases hji : j = id
  · rw [hji, entries_setDefaultDirent parent hempty]
    simp [name?_dot, name?_dotdot]
  · rw [Image.setDefaultDirent, Image.node_write_other hji] at hj ⊢
    exact h j hj

theorem Image.Distinct.createDir (h : m.Distinct) (hdec : m.Decodes) (hne : dir ≠ new)
    (hnone : lookup name (entries (m.node dir).data) = none)
    (hfits : (strBytes name).length ≤ nameLengthLimit + 1) (hnul : Char.ofNat 0 ∉ name.toList) :
    (m.createDir dir new name).Distinct := by
  refine (h.createInode hdec hne hnone hfits hnul).setDefaultDirent dir ?_
  rw [Image.createInode, Image.node_append_other hne.symm, Image.node_allocate_same]

/-! ### Which calls there are -/

/-- New names have no NUL, and `set_default_dirent` finds no entries. -/
def Call.Proper (G : Geometry) (m : Image) : Call → Prop
  | .create _ name | .createDir _ name => Char.ofNat 0 ∉ name.toList
  | .setDefaultDirent self _ => (m.node (self.inodeId G.fs)).data = []
  | _ => True

/-- The plain calls keep names distinct. -/
theorem Image.Move.distinct {call : Call} {reply : Reply} (h : m.Move G call reply m')
    (hdec : m.Decodes) (hd : m.Distinct) (hlive : m.live (call.self.inodeId G.fs) = true)
    (hproper : call.Proper G m) : m'.Distinct := by
  have hpos : ∀ j, (G.handle j).inodeId G.fs = j := G.inodeId_handle
  have hne : ∀ {j k}, m.live j = true → m.live k = false → j ≠ k := by
    intro j k hj hk heq
    rw [heq, hk] at hj
    exact absurd hj (by simp)
  cases h with
  | write _ hfile =>
    refine hd.setNode fun hdir => ?_
    exact absurd (hfile.symm.trans hdir) (by simp)
  | step hstep _ =>
    cases hstep with
    | createOld _ => exact hd
    | createNew hnone hfresh hfits =>
      rw [Call.self, hpos] at hlive
      exact hd.createInode hdec (hne hlive hfresh) hnone hfits hproper
    | createDirOld _ => exact hd
    | createDirNew hnone hfresh hfits =>
      rw [Call.self, hpos] at hlive
      exact hd.createDir hdec (hne hlive hfresh) hnone hfits hproper
    | setDefaultDirent =>
      rw [Call.Proper, hpos] at hproper
      exact hd.setDefaultDirent _ hproper
    | writeAt hfile =>
      refine hd.setNode fun hdir => ?_
      exact absurd (hfile.symm.trans hdir) (by simp)
    | readAt => exact hd
    | clear => exact hd.setNode fun _ => by simp

/-- What `delete` needs: the directory has at most 433 entries, and one of them has the name, which is
not empty, and refers to an allocated inode. -/
structure DeleteOk (G : Geometry) (d : Disk) (dir : ℕ) (name : String) : Prop where
  directory : (G.node d dir).kind = .directory
  nonempty : name ≠ ""
  small : (entries (G.node d dir).data).length ≤ 433
  found : ∃ k, lookup name (entries (G.node d dir).data) = some k ∧ (G.image d).live k = true

/-- The calls of runs with `delete`: they are made on allocated inodes, and deletions are in small
directories. -/
def Call.Linked (G : Geometry) (_ : History) (d : Disk) (call : Call) : Prop :=
  (G.image d).live (call.self.inodeId G.fs) = true ∧ call.Proper G (G.image d) ∧
  match call with
  | .delete self name => DeleteOk G d (self.inodeId G.fs) name
  | call => call.Plain

/-! ### The invariant -/

variable {d d' : Disk} {inodes : List Inode}

/-- The file system is in order and names are distinct; handles may be those of freed inodes. -/
structure Kempt (G : Geometry) (d : Disk) (inodes : List Inode) : Prop where
  sound : Sound G d []
  distinct : (G.image d).Distinct
  handles : ∀ h ∈ inodes, ∃ id, id < G.slots ∧ h = G.handle id

theorem Formatted.kempt (h : Formatted G d) : Kempt G d [G.handle 0] := by
  refine ⟨⟨h.core, h.super, h.sound.decodes, fun _ hi => absurd hi List.not_mem_nil⟩, ?_, ?_⟩
  · rw [h.image]
    exact Image.distinct_fresh
  · intro i hi
    obtain ⟨id, hid, heq, _⟩ := h.sound.known i hi
    exact ⟨id, hid, heq⟩

theorem Kempt.known (h : Kempt G d inodes) {self : Inode} (hmem : self ∈ inodes)
    (hlive : (G.image d).live (self.inodeId G.fs) = true) : Sound G d [self] := by
  refine ⟨h.sound.core, h.sound.super, h.sound.decodes, ?_⟩
  intro i hi
  rw [List.mem_singleton.mp hi]
  obtain ⟨id, hid, heq⟩ := h.handles self hmem
  rw [heq, Geometry.inodeId_handle, image_live hid] at hlive
  exact ⟨id, hid, heq, hlive⟩

theorem Kempt.served {call : Call} {reply : Reply} (h : Kempt G d inodes)
    (hlive : (G.image d).live (call.self.inodeId G.fs) = true)
    (hproper : call.Proper G (G.image d)) (hs : Served G d [call.self] call reply d') :
    Kempt G d' (reply.inodes ++ inodes) := by
  refine ⟨⟨hs.sound.core, hs.sound.super, hs.sound.decodes, fun _ hi => absurd hi List.not_mem_nil⟩,
    hs.move.distinct h.sound.decodes h.distinct hlive hproper, ?_⟩
  intro i hi
  rcases List.mem_append.mp hi with hi | hi
  · obtain ⟨id, hid, heq, _⟩ := hs.sound.known i (List.mem_append_left _ hi)
    exact ⟨id, hid, heq⟩
  · exact h.handles i hi

/-- The entry that `delete` finds. -/
theorem DeleteOk.names (h : DeleteOk G d dir name) (hk : Kempt G d inodes) (hdir : dir < G.slots) :
    ∃ i k, Names G d dir i k name := by
  obtain ⟨k, hk', hlive⟩ := h.found
  have hdec := hk.sound.decodes dir (by rw [image_node hdir]; exact h.directory)
  have hdistinct := hk.distinct dir (by rw [image_node hdir]; exact h.directory)
  rw [image_node hdir] at hdec hdistinct
  obtain ⟨e, he, hname, hnum⟩ := lookup_mem hk'
  obtain ⟨i, hi, heq⟩ := List.getElem_of_mem he
  rw [getElem_entries] at heq
  rw [length_entries] at hi
  exact ⟨i, k, h.directory, hdec.1, hdec.2, hdistinct, hi, by rw [heq, hname], by rw [heq, hnum],
    h.nonempty, hlive⟩

theorem Deleted.kempt (h : Deleted G d d' dir i k) (hk : Kempt G d inodes) (hdir : dir < G.slots)
    (hn : Names G d dir i k name) : Kempt G d' inodes := by
  have hi : i < (entries (G.node d dir).data).length := by
    rw [length_entries]
    exact hn.lt
  refine ⟨⟨h.core, ?_, ?_, fun _ hi => absurd hi List.not_mem_nil⟩, ?_, hk.handles⟩
  · rw [h.outside 0 outside_zero, hk.sound.super]
  · rw [h.image, Image.delete, image_node hdir]
    refine Image.Decodes.setNode (m := (G.image d).setLive k false) hk.sound.decodes fun _ => ⟨?_, ?_⟩
    · show 32 ∣ (removeEntry (G.node d dir).data i).length
      rw [length_removeEntry hn.lt]
      exact Nat.dvd_mul_right _ _
    · show ∀ e ∈ entries (removeEntry (G.node d dir).data i), e.name?.isSome
      rw [entries_removeEntry hn.lt]
      exact fun e he => hn.decodes e ((mem_swapRemove hn.distinct hi).mp he).1
  · rw [h.image, Image.delete, image_node hdir]
    refine Image.Distinct.setNode (m := (G.image d).setLive k false) hk.distinct fun _ => ?_
    show ((entries (removeEntry (G.node d dir).data i)).map DirEntry.name?).Nodup
    rw [entries_removeEntry hn.lt]
    exact nodup_map_swapRemove hn.distinct hi

theorem serve_delete (h : Kempt G d inodes) (hdir : dir < G.slots) (hok : DeleteOk G d dir name) :
    dwp ((Call.delete (G.handle dir) name).prog G.fs) [] d
      (fun reply d' => reply = .unit ∧ ∃ i k, Names G d dir i k name ∧ Deleted G d d' dir i k)
      fun _ => False := by
  obtain ⟨i, k, hn⟩ := hok.names h hdir
  have hsmall := hok.small
  rw [length_entries] at hsmall
  refine wp_bind'.mpr (wp_mono (delete_op h.sound.core hdir hn hsmall) ?_ fun _ hno => hno)
  exact fun _ d' hd => wp_pure'.mpr ⟨rfl, i, k, hn, hd⟩

/-- Every call that may come next keeps the invariant. -/
theorem Kempt.step {hist : History} {call : Call} {reply : Reply} (h : Kempt G d inodes)
    (hmem : call.self ∈ inodes) (hok : call.Linked G hist d)
    (hrun : drun (call.prog G.fs) [] d = .ok (reply, d')) : Kempt G d' (reply.inodes ++ inodes) := by
  obtain ⟨hlive, hproper, hcall⟩ := hok
  have hplain : call.Plain → Kempt G d' (reply.inodes ++ inodes) := by
    intro hp
    have hspec := call_spec (h.known hmem hlive) (List.mem_singleton_self _) hp
    exact h.served hlive hproper (wp_result hspec hrun)
  cases call with
  | delete self name =>
    obtain ⟨dir, hdir, hself⟩ := h.handles self hmem
    subst hself
    have hdel : DeleteOk G d ((G.handle dir).inodeId G.fs) name := hcall
    rw [Geometry.inodeId_handle] at hdel
    obtain ⟨hreply, i, k, hn, hd⟩ := wp_result (serve_delete h hdir hdel) hrun
    subst hreply
    exact hd.kempt h hdir hn
  | create self name => exact hplain hcall
  | createDir self name => exact hplain hcall
  | setDefaultDirent self parent => exact hplain hcall
  | writeAt self off buf => exact hplain hcall
  | readAt self off buf => exact hplain hcall
  | clear self => exact hplain hcall
  | find self name => exact hplain hcall

theorem Run.linked {d₀ : Disk} {hist : History} {s : System} (h : Run G (Call.Linked G) d₀ hist s) :
    Kempt G s.cache.content s.inodes :=
  (h.induct (P := fun _ d inodes => Kempt G d inodes) (fun _ hf => hf.kempt)
    fun _ _ _ _ _ _ hk hmem hok hrun => hk.step hmem hok hrun).2.2

/-! ### What `delete` does -/

/-- `find` through a handle returns `r`. -/
def Finds (fs : EasyFileSystem) (c : CacheState) (self : Inode) (name : String) (r : Option Inode) :
    Prop :=
  ∃ c', exec cacheMachine ((Call.find self name).prog fs) c = .ok (.inode r, c')

theorem finds_iff {c : CacheState} {r : Option Inode} (hc : Presents c [] c.content)
    (hok : InodeOk c.content [(G.pos dir).1] (G.slot c.content dir))
    (hkind : (G.node c.content dir).kind = .directory)
    (hdec : ∀ e ∈ entries (G.node c.content dir).data, e.name?.isSome) :
    Finds G.fs c (G.handle dir) name r ↔
      r = (lookup name (entries (G.node c.content dir).data)).map G.handle := by
  have hfind : dwp ((Call.find (G.handle dir) name).prog G.fs) [] c.content
      (fun reply _ => reply = .inode
        ((lookup name (entries (G.node c.content dir).data)).map G.handle)) fun _ => False := by
    refine wp_bind'.mpr (wp_mono (find_op hok name) ?_ fun _ hno => hno ⟨hkind, hdec⟩)
    rintro r d' ⟨_, _, hr⟩
    exact wp_pure'.mpr (congrArg Reply.inode hr)
  constructor
  · rintro ⟨c', hexec⟩
    obtain ⟨d', hrun, _⟩ := exec_content hc hexec
    exact Reply.inode.inj (wp_result hfind hrun)
  · intro hr
    obtain ⟨reply, d', hrun, hreply⟩ := wp_returns hfind
    obtain ⟨c', hexec, _⟩ := exec_returns hc hrun
    exact ⟨c', by rw [hexec, hreply, hr]⟩

theorem Sound.finds_iff {c : CacheState} {r : Option Inode} (hs : Sound G c.content inodes)
    (hc : Presents c [] c.content) (hdir : dir < G.slots)
    (hkind : (G.node c.content dir).kind = .directory) : Finds G.fs c (G.handle dir) name r ↔
      r = (lookup name (entries (G.node c.content dir).data)).map G.handle := by
  have hdec := (hs.decodes dir (by rw [image_node hdir]; exact hkind)).2
  rw [image_node hdir] at hdec
  exact EasyFs.finds_iff hc (hs.core.inodeOk hdir (aside_slot hdir)) hkind hdec

/-- The entries 0 and 1 of a directory are `.` and `..`. -/
def HasDots (es : List DirEntry) : Prop :=
  (es[0]?.bind DirEntry.name?) = some "." ∧ (es[1]?.bind DirEntry.name?) = some ".."

theorem Names.two_le (h : Names G d dir i k name) (hdots : HasDots (entries (G.node d dir).data))
    (h1 : name ≠ ".") (h2 : name ≠ "..") : 2 ≤ i := by
  have hi : (entries (G.node d dir).data)[i]?.bind DirEntry.name? = some name := by
    rw [List.getElem?_eq_getElem (by rw [length_entries]; exact h.lt), getElem_entries]
    exact h.name_eq
  rcases i with _ | _ | i
  · exact absurd (Option.some.inj (hi.symm.trans hdots.1)) h1
  · exact absurd (Option.some.inj (hi.symm.trans hdots.2)) h2
  · omega

/-- **`delete` removes one entry.**  In a run whose deletions are in directories with at most 433
entries, `delete` returns; the name is gone, every other name is found as before, there is one entry
fewer with `.` and `..` in place, and no other node has changed. -/
theorem delete_removes_entry {d₀ : Disk} {hist : History} {s : System}
    (h : Run G (Call.Linked G) d₀ hist s) {dir : ℕ} {name : String} (hmem : G.handle dir ∈ s.inodes)
    (hok : (Call.delete (G.handle dir) name).Linked G hist s.cache.content) :
    ∃ c, exec cacheMachine ((Call.delete (G.handle dir) name).prog s.fs) s.cache = .ok (.unit, c) ∧
      Finds s.fs c (G.handle dir) name none ∧
      (∀ n r, n ≠ name → (Finds s.fs c (G.handle dir) n r ↔
        Finds s.fs s.cache (G.handle dir) n r)) ∧
      (entries (G.node c.content dir).data).length + 1 =
        (entries (G.node s.cache.content dir).data).length ∧
      (name ≠ "." → name ≠ ".." → HasDots (entries (G.node s.cache.content dir).data) →
        ∀ i, i < 2 → (entries (G.node c.content dir).data)[i]? =
          (entries (G.node s.cache.content dir).data)[i]?) ∧
      ∀ j, j < G.slots → j ≠ dir → G.node c.content j = G.node s.cache.content j := by
  have hk := h.linked
  obtain ⟨hfs, hp⟩ := h.presents
  obtain ⟨id, hid, heq⟩ := hk.handles _ hmem
  have hdir : dir < G.slots := by rwa [Geometry.handle_inj heq]
  have hdel : DeleteOk G s.cache.content ((G.handle dir).inodeId G.fs) name := hok.2.2
  rw [Geometry.inodeId_handle] at hdel
  have hself : (Call.delete (G.handle dir) name).self ∈ s.inodes := hmem
  obtain ⟨reply, c, hexec, hrun, hreply, i, k, hn, hd⟩ :=
    h.extend hself hok (serve_delete hk hdir hdel) fun _ hno => hno
  subst hreply
  have hk' := hd.kempt hk hdir hn
  have hi : i < (entries (G.node s.cache.content dir).data).length := by
    rw [length_entries]
    exact hn.lt
  have hnode : G.node c.content dir =
      ⟨.directory, removeEntry (G.node s.cache.content dir).data i⟩ := by
    rw [← image_node hdir, hd.image, Image.delete, Image.node_setData_same, Image.node_setLive,
      image_node hdir, hn.directory]
  have hentries : entries (G.node c.content dir).data =
      swapRemove (entries (G.node s.cache.content dir).data) i := by
    rw [hnode, entries_removeEntry hn.lt]
  have hname : (entries (G.node s.cache.content dir).data)[i].name? = some name := by
    rw [getElem_entries]
    exact hn.name_eq
  have hfinds : ∀ n r, Finds s.fs c (G.handle dir) n r ↔
      r = (lookup n (entries (G.node c.content dir).data)).map G.handle := by
    intro n r
    rw [hfs]
    exact hk'.sound.finds_iff hrun.presents.2 hdir (by rw [hnode])
  refine ⟨c, hexec, ?_, ?_, ?_, ?_, ?_⟩
  · rw [hfinds, hentries, lookup_swapRemove_same hn.distinct hi hname]
    rfl
  · intro n r hne
    rw [hfinds, hentries, lookup_swapRemove_other hn.distinct hi hname hne, hfs]
    exact (hk.sound.finds_iff hp hdir hn.directory).symm
  · rw [hentries, length_swapRemove hi]
  · intro h1 h2 hdots j hj
    have htwo := hn.two_le hdots h1 h2
    rw [hentries, getElem?_swapRemove hi (by omega)]
  · intro j hj hne
    rw [← image_node hj, hd.image, Image.delete, Image.node_setData_other _ hne, Image.node_setLive,
      image_node hj]

theorem linked_file : Plays .efsTest (Call.Linked .efsTest) fileHist :=
  ⟨trivial, by decide, ⟨by decide +kernel, show Char.ofNat 0 ∉ "a".toList by decide, trivial⟩,
    by decide +kernel⟩

/-- The root has one entry, and its file is empty. -/
theorem file_nodes : Geometry.efsTest.node (diskAfter .efsTest fileHist) 0 =
      ⟨.directory, (DirEntry.make "a" 1).asBytes⟩ ∧
    (Geometry.efsTest.image (diskAfter .efsTest fileHist)).live 1 = true ∧
    (Geometry.efsTest.slot (diskAfter .efsTest fileHist) 1).owned (diskAfter .efsTest fileHist) = [] := by
  decide +kernel

theorem linked_delete_file : (Call.delete (Geometry.efsTest.handle 0) "a").Linked .efsTest fileHist
    (diskAfter .efsTest fileHist) := by
  obtain ⟨hnode, hlive, _⟩ := file_nodes
  refine ⟨by decide +kernel, trivial, ?_⟩
  show DeleteOk .efsTest _ ((Geometry.efsTest.handle 0).inodeId _) "a"
  rw [Geometry.inodeId_handle]
  refine ⟨?_, by decide, ?_, 1, ?_, hlive⟩ <;> rw [hnode] <;> decide +kernel

theorem delete_removes_entry_first_file : ∃ hist s c,
    Run .efsTest (Call.Linked .efsTest) (fun _ => Block.zero) hist s ∧
    exec cacheMachine ((Call.delete (Geometry.efsTest.handle 0) "a").prog s.fs) s.cache =
      .ok (.unit, c) ∧ Finds s.fs c (Geometry.efsTest.handle 0) "a" none := by
  obtain ⟨s, hrun, _, hp, hinodes⟩ := exists_play _ _ fileHist linked_file
  have hdel := linked_delete_file
  rw [← hp.content_eq] at hdel
  obtain ⟨c, hexec, hnone, _⟩ := delete_removes_entry hrun (by rw [hinodes]; decide) hdel
  exact ⟨_, s, c, hrun, hexec, hnone⟩

end LemonCore.EasyFs
