import LemonCore.EasyFs.DirectoryTree
import LemonCore.EasyFs.Ownership
import LemonCore.EasyFs.Releasing

/-!
# Links

There are no hard links: apart from the dot entries, an inode is listed in one directory under one name.
So once `delete` has removed this entry and freed the inode, no path leads to the inode number any more.

* `Image.Lists`: a directory lists a node under a name that is no dot entry;
* `Image.Links`: what is listed is allocated, and it is listed once;
* `Orderly`: the invariant of a file system on which creations, writes, `clear` and `delete` are made;
* `Orderly.make`, `Orderly.write`, `Orderly.clear`, `Orderly.delete`: they keep it.
-/

namespace LemonCore.EasyFs

open Foundation.BorrowProgram Foundation.SwapRemove

variable {G : Geometry} {m m' : Image} {d d' : Disk} {dir new id j k i : ℕ} {name c : String}
variable {reply : Reply} {kind : DiskInodeKind}

/-! ### Listings -/

/-- Directory `id` lists node `k` under the name `c`, which is no dot entry. -/
structure Image.Lists (m : Image) (id : ℕ) (c : String) (k : ℕ) : Prop where
  directory : (m.node id).kind = .directory
  ne_dot : c ≠ "."
  ne_dotdot : c ≠ ".."
  look : m.look id c = some k

/-- What is listed is allocated, is not the directory itself, and is listed once. -/
structure Image.Links (m : Image) : Prop where
  root : m.live 0 = true
  child : ∀ {id c k}, m.Lists id c k → m.live k = true ∧ k ≠ 0 ∧ id ≠ k
  once : ∀ {id c id' c' k}, m.Lists id c k → m.Lists id' c' k → id = id' ∧ c = c'

theorem Image.Links.mono (h : m.Links) (hroot : m'.live 0 = true)
    (hlists : ∀ {id c k}, m'.Lists id c k → m.Lists id c k ∧ m'.live k = true) : m'.Links := by
  refine ⟨hroot, ?_, ?_⟩
  · intro id c k hl
    obtain ⟨hold, hlive⟩ := hlists hl
    exact ⟨hlive, (h.child hold).2⟩
  · intro id c id' c' k hl hl'
    exact h.once (hlists hl).1 (hlists hl').1

theorem Image.Grown.lists_cases (hg : m.Grown m' dir new name kind) (h : m.Links)
    (hl : m'.Lists id c k) : (m.Lists id c k ∧ k ≠ new) ∨ (id = dir ∧ c = cutNul name ∧ k = new) := by
  have hold : ∀ {id}, (m.node id).kind = .directory → m.look id c = some k → m.Lists id c k ∧ k ≠ new :=
    fun hid hk => by
      have hlists : m.Lists _ c k := ⟨hid, hl.ne_dot, hl.ne_dotdot, hk⟩
      exact ⟨hlists, ne_of_live (h.child hlists).1 hg.fresh⟩
  rcases hg.look_cases hl.directory hl.look with ⟨hid, hk⟩ | ⟨hd, hn⟩ | ⟨_, _, ⟨hc, _⟩ | ⟨hc, _⟩⟩
  · exact Or.inl (hold hid hk)
  · subst hd hn
    have hlook := hl.look
    rw [hg.look_dir] at hlook
    cases hk : m.look id c with
    | some k' =>
      -- the name was there before, for a node that was allocated
      rw [hk, Option.some_or] at hlook
      exact Or.inl (hold hg.directory (hk.trans hlook))
    | none =>
      rw [hk, Option.none_or] at hlook
      split at hlook
      · rename_i hname
        exact Or.inr ⟨rfl, hname.symm, rfl⟩
      · cases hlook
  · exact absurd hc hl.ne_dot
  · exact absurd hc hl.ne_dotdot

/-- **A creation keeps the links.** -/
theorem Image.Links.grown (h : m.Links) (hg : m.Grown m' dir new name kind) : m'.Links := by
  have hroot := ne_of_live h.root hg.fresh
  refine ⟨hg.live_kept h.root, ?_, ?_⟩
  · intro id c k hl
    rcases hg.lists_cases h hl with ⟨hold, _⟩ | ⟨hid, _, hk⟩
    · exact ⟨hg.live_kept (h.child hold).1, (h.child hold).2⟩
    · rw [hid, hk]
      exact ⟨hg.live_new, hroot.symm, hg.ne⟩
  · intro id c id' c' k hl hl'
    rcases hg.lists_cases h hl with ⟨hold, hne⟩ | ⟨hid, hc, hk⟩
    · rcases hg.lists_cases h hl' with ⟨hold', _⟩ | ⟨_, _, hk'⟩
      · exact h.once hold hold'
      · exact absurd hk' hne
    · rcases hg.lists_cases h hl' with ⟨_, hne'⟩ | ⟨hid', hc', _⟩
      · exact absurd hk hne'
      · exact ⟨hid.trans hid'.symm, hc.trans hc'.symm⟩

theorem Image.Links.setNode {n : Node} (h : m.Links) (hn : n.kind = .directory → n.data = []) :
    (m.setNode id n).Links := by
  refine h.mono h.root ?_
  intro j c k hl
  have hne : j ≠ id := by
    intro heq
    have hdir := hl.directory
    have hlook := hl.look
    rw [heq, Image.look, Image.node_setNode_same] at hlook
    rw [heq, Image.node_setNode_same] at hdir
    rw [hn hdir] at hlook
    cases hlook
  have hold : m.Lists j c k := by
    have hdir := hl.directory
    have hlook := hl.look
    rw [Image.node_setNode_other m hne] at hdir
    rw [Image.look, Image.node_setNode_other m hne] at hlook
    exact ⟨hdir, hl.ne_dot, hl.ne_dotdot, hlook⟩
  exact ⟨hold, (h.child hold).1⟩

/-! ### The invariant -/

/-- The file system is in order, and its directories are linked without hard links. -/
structure Orderly (G : Geometry) (d : Disk) : Prop where
  kempt : Kempt G d []
  links : (G.image d).Links
  refers : ∀ id c k, ((G.image d).node id).kind = .directory → (G.image d).look id c = some k →
    k < G.slots

/-- A handle of an allocated inode. -/
theorem Kempt.cons {inodes : List Inode} (h : Kempt G d inodes) (hid : id < G.slots) :
    Kempt G d (G.handle id :: inodes) := by
  refine ⟨h.sound, h.distinct, ?_⟩
  intro i hi
  rcases List.mem_cons.mp hi with heq | hi
  · exact ⟨id, hid, heq⟩
  · exact h.handles i hi

theorem Kempt.forget {inodes : List Inode} (h : Kempt G d inodes) : Kempt G d [] :=
  ⟨h.sound, h.distinct, fun _ hi => absurd hi List.not_mem_nil⟩

theorem Orderly.sound (h : Orderly G d) (hlive : (G.image d).live id = true) : Sound G d [G.handle id] := by
  have hid := lt_slots_of_live hlive
  refine (h.kempt.cons hid).known List.mem_cons_self ?_
  rw [Geometry.inodeId_handle]
  exact hlive

theorem Orderly.kempt_call {call : Call} (h : Orderly G d)
    (hself : call.self = G.handle id) (hlive : (G.image d).live id = true) (hplain : call.Plain)
    (hproper : call.Proper G (G.image d)) (hrun : drun (call.prog G.fs) [] d = .ok (reply, d')) :
    Served G d [call.self] call reply d' ∧ Kempt G d' [] := by
  have hsound := h.sound hlive
  rw [← hself] at hsound
  have hs := wp_result (call_spec hsound (List.mem_singleton_self _) hplain) hrun
  refine ⟨hs, (h.kempt.served ?_ hproper hs).forget⟩
  rw [hself, Geometry.inodeId_handle]
  exact hlive

/-- **`create` and `create_dir`.** -/
theorem Orderly.make (h : Orderly G d) (hlive : (G.image d).live dir = true)
    (hnul : Char.ofNat 0 ∉ name.toList)
    (hrun : drun ((Call.make kind (G.handle dir) name).prog G.fs) [] d = .ok (reply, d')) :
    Orderly G d' ∧ (∀ j, (G.image d).live j = true → (G.image d').live j = true) ∧
      ∀ i ∈ reply.inodes, ∃ new, i = G.handle new ∧ (G.image d').live new = true := by
  have hdir := lt_slots_of_live hlive
  have hproper : (Call.make kind (G.handle dir) name).Proper G (G.image d) := by
    cases kind <;> exact hnul
  obtain ⟨_, hkempt⟩ := h.kempt_call (Call.self_make kind _ name) hlive (Call.plain_make kind _ name)
    hproper hrun
  obtain ⟨_, hcases⟩ := make_outcome (h.sound hlive) hdir ((image_live hdir).symm.trans hlive) hrun
  rcases hcases with ⟨_, hreply, hd⟩ | ⟨new, hnew, hreply, hg⟩
  · subst hreply hd
    exact ⟨h, fun _ hj => hj, fun _ hi => absurd hi List.not_mem_nil⟩
  subst hreply
  refine ⟨⟨hkempt, h.links.grown hg, ?_⟩, fun _ hj => hg.live_kept hj, ?_⟩
  · intro id c k hid hk
    rcases hg.look_cases hid hk with ⟨hid, hk⟩ | ⟨_, hn⟩ | ⟨_, _, ⟨_, hn⟩ | ⟨_, hd⟩⟩
    · exact h.refers id c k hid hk
    · rwa [hn]
    · rwa [hn]
    · rwa [hd]
  · intro i hi
    exact ⟨new, List.mem_singleton.mp hi, hg.live_new⟩

theorem Orderly.setNode {n : Node} (h : Orderly G d) (hkempt : Kempt G d' [])
    (himage : G.image d' = (G.image d).setNode id n) (hn : n.kind = .directory → n.data = []) :
    Orderly G d' := by
  refine ⟨hkempt, ?_, ?_⟩
  · rw [himage]
    exact h.links.setNode hn
  · intro j c k hj hk
    rw [himage] at hj hk
    by_cases hji : j = id
    · rw [hji, Image.node_setNode_same] at hj
      rw [hji, Image.look, Image.node_setNode_same, hn hj] at hk
      cases hk
    · rw [Image.node_setNode_other _ hji] at hj
      rw [Image.look, Image.node_setNode_other _ hji] at hk
      exact h.refers j c k hj hk

theorem Image.Move.of_writeAt {off : ℕ} {buf : List UInt8}
    (h : m.Move G (.writeAt (G.handle id) off buf) reply m') :
    ∃ n, m' = m.setNode id n ∧ n.kind = .file := by
  generalize hcall : Call.writeAt (G.handle id) off buf = call at h
  cases h with
  | step _ hno =>
    rw [← hcall] at hno
    cases hno
  | @write id' off' buf' n _ hkind =>
    cases Geometry.handle_inj (Call.writeAt.inj hcall).1
    exact ⟨n, rfl, hkind⟩

theorem Image.Move.of_clear (h : m.Move G (.clear (G.handle id)) reply m') :
    m' = m.clear id := by
  generalize hcall : Call.clear (G.handle id) = call at h
  cases h with
  | write _ _ => cases hcall
  | step hstep _ =>
    cases hstep with
    | clear =>
      cases Geometry.handle_inj (Call.clear.inj hcall)
      rfl
    | _ => cases hcall

/-- **`write_at`** changes the bytes of one file. -/
theorem Orderly.write {off : ℕ} {buf : List UInt8} (h : Orderly G d)
    (hlive : (G.image d).live id = true) (hplain : (Call.writeAt (G.handle id) off buf).Plain)
    (hrun : drun ((Call.writeAt (G.handle id) off buf).prog G.fs) [] d = .ok (reply, d')) :
    Orderly G d' ∧ ∃ n, G.image d' = (G.image d).setNode id n := by
  obtain ⟨hs, hkempt⟩ := h.kempt_call rfl hlive hplain trivial hrun
  obtain ⟨n, himage, hkind⟩ := hs.move.of_writeAt
  refine ⟨h.setNode hkempt himage fun hdir => ?_, n, himage⟩
  rw [hkind] at hdir
  cases hdir

/-- **`clear`** empties one node. -/
theorem Orderly.clear (h : Orderly G d) (hlive : (G.image d).live id = true)
    (hrun : drun ((Call.clear (G.handle id)).prog G.fs) [] d = .ok (reply, d')) :
    Orderly G d' ∧ G.image d' = (G.image d).clear id := by
  have hplain : (Call.clear (G.handle id)).Plain := trivial
  obtain ⟨hs, hkempt⟩ := h.kempt_call rfl hlive hplain trivial hrun
  have himage := hs.move.of_clear
  exact ⟨h.setNode hkempt himage fun _ => rfl, himage⟩

theorem Deleted.look_cases (hd : Deleted G d d' dir i k) (hdir : dir < G.slots)
    (hn : Names G d dir i k name) (hid : ((G.image d').node id).kind = .directory)
    (hj : (G.image d').look id c = some j) :
    ((G.image d).node id).kind = .directory ∧ (G.image d).look id c = some j ∧ ¬ (id = dir ∧ c = name) := by
  have hi : i < (entries (G.node d dir).data).length := by
    rw [length_entries]
    exact hn.lt
  have hname : (entries (G.node d dir).data)[i].name? = some name := by
    rw [getElem_entries]
    exact hn.name_eq
  by_cases hne : id = dir
  · subst hne
    have hentries : entries ((G.image d').node id).data = swapRemove (entries (G.node d id).data) i := by
      rw [hd.image, Image.delete, Image.node_setData_same, image_node hdir, entries_removeEntry hn.lt]
    rw [Image.look, hentries] at hj
    have hc : c ≠ name := by
      intro heq
      rw [heq, lookup_swapRemove_same hn.distinct hi hname] at hj
      cases hj
    rw [lookup_swapRemove_other hn.distinct hi hname hc] at hj
    refine ⟨by rw [image_node hdir]; exact hn.directory, ?_, fun hno => hc hno.2⟩
    rw [Image.look, image_node hdir, hj]
  · rw [hd.image, Image.delete, Image.node_setData_other _ hne, Image.node_setLive] at hid
    rw [Image.look, hd.image, Image.delete, Image.node_setData_other _ hne, Image.node_setLive] at hj
    exact ⟨hid, hj, fun hno => hne hno.1⟩

/-- **`delete`**: the inode that was listed under the name is free and no longer listed. -/
theorem Orderly.delete (h : Orderly G d) (hdir : dir < G.slots) (hn : Names G d dir i k name)
    (h1 : name ≠ ".") (h2 : name ≠ "..") (hd : Deleted G d d' dir i k) : Orderly G d' := by
  have hlists : (G.image d).Lists dir name k := by
    refine ⟨by rw [image_node hdir]; exact hn.directory, h1, h2, ?_⟩
    rw [Image.look, image_node hdir, hn.lookup_eq]
  have hlive : ∀ {j}, j ≠ k → (G.image d).live j = true → (G.image d').live j = true := by
    intro j hne hj
    rw [hd.image, Image.delete, Image.live_setData, Image.live_setLive_other _ hne, hj]
  refine ⟨hd.kempt h.kempt hdir hn, h.links.mono ?_ ?_, ?_⟩
  · exact hlive (h.links.child hlists).2.1.symm h.links.root
  · intro id c j hl
    obtain ⟨hid, hlook, hne⟩ := hd.look_cases hdir hn hl.directory hl.look
    have hold : (G.image d).Lists id c j := ⟨hid, hl.ne_dot, hl.ne_dotdot, hlook⟩
    refine ⟨hold, hlive ?_ (h.links.child hold).1⟩
    -- the freed inode was listed here only
    intro heq
    subst heq
    exact hne (h.links.once hold hlists)
  · intro id c j hid hj
    obtain ⟨hid, hj, _⟩ := hd.look_cases hdir hn hid hj
    exact h.refers id c j hid hj

/-! ### Where it holds -/

theorem Formatted.orderly (h : Formatted G d) : Orderly G d := by
  -- the root has no entries, and there is no other directory
  have hnone : ∀ id c, (G.image d).look id c = none := by
    intro id c
    rw [Image.look, h.image]
    show lookup c (entries (if id = 0 then (⟨.directory, []⟩ : Node) else ⟨.file, []⟩).data) = none
    split <;> rfl
  refine ⟨h.kempt.forget, ⟨by rw [h.image]; rfl, ?_, ?_⟩, ?_⟩
  · intro id c k hl
    cases hl.look.symm.trans (hnone id c)
  · intro id c id' c' k hl
    cases hl.look.symm.trans (hnone id c)
  · intro id c k _ hk
    cases hk.symm.trans (hnone id c)

theorem Image.Move.of_setDefaultDirent {parent : ℕ}
    (h : m.Move G (.setDefaultDirent (G.handle id) parent) reply m') :
    m' = m.setDefaultDirent id parent := by
  generalize hcall : Call.setDefaultDirent (G.handle id) parent = call at h
  cases h with
  | write _ _ => cases hcall
  | step hstep _ =>
    cases hstep with
    | setDefaultDirent =>
      obtain ⟨hself, hparent⟩ := Call.setDefaultDirent.inj hcall
      cases Geometry.handle_inj hself
      rw [hparent]
    | _ => cases hcall

/-- **`set_default_dirent`** on an empty directory makes entries that are no links. -/
theorem Orderly.setDefaultDirent {parent : ℕ} (h : Orderly G d)
    (hlive : (G.image d).live id = true) (hempty : ((G.image d).node id).data = [])
    (hparent : parent < G.slots)
    (hrun : drun ((Call.setDefaultDirent (G.handle id) parent).prog G.fs) [] d = .ok (reply, d')) :
    Orderly G d' := by
  have hid := lt_slots_of_live hlive
  have hplain : (Call.setDefaultDirent (G.handle id) parent).Plain := trivial
  have hproper : (Call.setDefaultDirent (G.handle id) parent).Proper G (G.image d) := by
    rw [Call.Proper, Geometry.inodeId_handle]
    exact hempty
  obtain ⟨hs, hkempt⟩ := h.kempt_call rfl hlive hplain hproper hrun
  have himage := hs.move.of_setDefaultDirent
  have hlook : ∀ c, (G.image d').look id c =
      if c = "." then some id else if c = ".." then some parent else none := by
    intro c
    rw [himage, Image.look, entries_setDefaultDirent parent hempty,
      lookup_dots (Nat.lt_of_lt_of_le hid G.slots_le),
      Nat.mod_eq_of_lt (Nat.lt_of_lt_of_le hparent G.slots_le)]
  have hother : ∀ j, j ≠ id → (G.image d').node j = (G.image d).node j := by
    intro j hj
    rw [himage, Image.setDefaultDirent, Image.node_write_other hj]
  refine ⟨hkempt, h.links.mono ?_ ?_, ?_⟩
  · rw [himage]
    exact h.links.root
  · intro j c k hl
    have hj : j ≠ id := by
      intro heq
      have hk := hl.look
      rw [heq, hlook, if_neg hl.ne_dot, if_neg hl.ne_dotdot] at hk
      cases hk
    have hold : (G.image d).Lists j c k := by
      have hdir := hl.directory
      have hk := hl.look
      rw [hother j hj] at hdir
      rw [Image.look, hother j hj] at hk
      exact ⟨hdir, hl.ne_dot, hl.ne_dotdot, hk⟩
    refine ⟨hold, ?_⟩
    rw [himage]
    exact (h.links.child hold).1
  · intro j c k hdir hk
    by_cases hj : j = id
    · rw [hj, hlook] at hk
      split at hk
      · cases hk
        exact hid
      split at hk
      · cases hk
        exact hparent
      · cases hk
    · rw [hother j hj] at hdir
      rw [Image.look, hother j hj] at hk
      exact h.refers j c k hdir hk

end LemonCore.EasyFs
