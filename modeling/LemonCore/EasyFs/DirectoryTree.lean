import LemonCore.EasyFs.Unlinking

/-!
# Directory trees

A tree starts with `set_default_dirent` on the root of a new file system and grows by `create` and
`create_dir`.

* `Image.Grown`: all that a creation does to the directories, with `make_outcome` as the one place
  where the operations are looked into;
* `Image.Tree`: every directory has its dot entries, and `..` of a directory that is listed under a
  name refers to the directory it is listed in;
* `directory_tree`: what `create`, `create_dir` and `find` do in such a tree.
-/

namespace LemonCore.EasyFs

open Foundation.BorrowProgram

/-! ### Creations -/

/-- `create` and `create_dir`. -/
def Call.make (kind : DiskInodeKind) (self : Inode) (name : String) : Call :=
  match kind with
  | .file => .create self name
  | .directory => .createDir self name

@[simp] theorem Call.self_make (kind : DiskInodeKind) (self : Inode) (name : String) :
    (Call.make kind self name).self = self := by
  cases kind <;> rfl

theorem Call.plain_make (kind : DiskInodeKind) (self : Inode) (name : String) :
    (Call.make kind self name).Plain := by
  cases kind <;> trivial

/-- Node `new` has been entered into directory `dir` under `name`. -/
structure Image.Listed (m m' : Image) (dir new : ℕ) (name : String) (kind : DiskInodeKind) : Prop where
  directory : (m.node dir).kind = .directory
  fresh : m.live new = false
  ne : dir ≠ new
  live : m'.live = Function.update m.live new true
  other : ∀ j, j ≠ dir → j ≠ new → m'.node j = m.node j
  kind_dir : (m'.node dir).kind = .directory
  entries_dir : entries (m'.node dir).data = entries (m.node dir).data ++ [.make name new]
  kind_new : (m'.node new).kind = kind

/-- The directories after node `new` has been created in directory `dir` under `name`. -/
structure Image.Grown (m m' : Image) (dir new : ℕ) (name : String) (kind : DiskInodeKind) : Prop
    extends Image.Listed m m' dir new name kind where
  absent : lookup name (entries (m.node dir).data) = none
  fits : (strBytes name).length ≤ nameLengthLimit + 1
  lt : dir < 2 ^ 32 ∧ new < 2 ^ 32
  dots : kind = .directory →
    entries (m'.node new).data = [DirEntry.make "." new, DirEntry.make ".." dir]

variable {G : Geometry} {m m' : Image} {dir new parent j k id : ℕ} {name c : String}
  {kind : DiskInodeKind} {d d' : Disk} {inodes : List Inode} {reply : Reply}

theorem ne_of_live (hj : m.live j = true) (hk : m.live k = false) : j ≠ k := by
  intro heq
  rw [heq, hk] at hj
  exact absurd hj (by simp)

theorem Image.listed_createInode (hdec : m.Decodes) (hlive : m.live dir = true)
    (hdir : (m.node dir).kind = .directory) (hfresh : m.live new = false) (name : String)
    (kind : DiskInodeKind) : m.Listed (m.createInode dir new name kind) dir new name kind := by
  have hne : dir ≠ new := ne_of_live hlive hfresh
  have hnode : (m.allocate new kind).node dir = m.node dir := Image.node_allocate_other hne
  have hdvd : 32 ∣ ((m.allocate new kind).node dir).data.length := by
    rw [hnode]
    exact (hdec dir hdir).1
  refine ⟨hdir, hfresh, hne, Image.live_createInode, ?_, ?_, ?_, ?_⟩
  · intro j hj hjn
    rw [Image.createInode, Image.node_append_other hj, Image.node_allocate_other hjn]
  · rw [Image.createInode, Image.append, Image.kind_write, hnode, hdir]
  · rw [Image.createInode, Image.append_data hdvd, entries_append hdvd, hnode]
  · rw [Image.createInode, Image.node_append_other hne.symm, Image.node_allocate_same]

theorem Image.Listed.setDefaultDirent (h : m.Listed m' dir new name kind) :
    m.Listed (m'.setDefaultDirent new dir) dir new name kind := by
  refine ⟨h.directory, h.fresh, h.ne, h.live, ?_, ?_, ?_, ?_⟩
  · intro j hj hjn
    rw [Image.setDefaultDirent, Image.node_write_other hjn, h.other j hj hjn]
  · rw [Image.setDefaultDirent, Image.kind_write, h.kind_dir]
  · rw [Image.setDefaultDirent, Image.node_write_other h.ne, h.entries_dir]
  · rw [Image.setDefaultDirent, Image.kind_write, h.kind_new]

theorem wp_reply {p : DiskProg (Option Inode)} {Q : Option Inode → Disk → Prop}
    {E : Fault Panic → Prop} (h : dwp p [] d Q E) :
    dwp (do pure (Reply.inode (← p))) [] d (fun reply d' => ∃ r, reply = .inode r ∧ Q r d') E :=
  wp_bind'.mpr (wp_mono h (fun r _ hr => wp_pure'.mpr ⟨r, rfl, hr⟩) fun _ he => he)

/-- **Creations**: nothing changes when the name is taken, and otherwise the tree has grown. -/
theorem make_outcome (h : Sound G d inodes) (hdir : dir < G.slots) (hlive : G.live d dir = true)
    (hrun : drun ((Call.make kind (G.handle dir) name).prog G.fs) [] d = .ok (reply, d')) :
    (G.node d dir).kind = .directory ∧
    ((lookup name (entries (G.node d dir).data) ≠ none ∧ reply = .inode none ∧ d' = d) ∨
    ∃ new, new < G.slots ∧ reply = .inode (some (G.handle new)) ∧
      (G.image d).Grown (G.image d') dir new name kind) := by
  have hlive' : (G.image d).live dir = true := (image_live hdir).trans hlive
  have hlt : ∀ j, j < G.slots → j < 2 ^ 32 := fun j hj => Nat.lt_of_lt_of_le hj G.slots_le
  cases kind with
  | file =>
    obtain ⟨r, hreply, hkind, hcases⟩ :=
      wp_result (wp_reply (createInode_op h.core hdir hlive name .file)) hrun
    refine ⟨hkind, ?_⟩
    rcases hcases with ⟨hsome, hr, hd⟩ | ⟨hnone, new, hr, hc⟩
    · exact Or.inl ⟨hsome, by rw [hreply, hr], hd⟩
    · refine Or.inr ⟨new, hc.lt, by rw [hreply, hr], ?_, ?_, hc.fits, ?_, fun hno => by cases hno⟩
      · rw [hc.image]
        refine Image.listed_createInode h.decodes hlive' ?_ ((image_live hc.lt).trans hc.fresh) _ _
        rw [image_node hdir, hkind]
      · rw [image_node hdir, hnone]
      · exact ⟨hlt dir hdir, hlt new hc.lt⟩
  | directory =>
    obtain ⟨r, hreply, hkind, hcases⟩ :=
      wp_result (wp_reply (createDir_op h.core hdir hlive name)) hrun
    refine ⟨hkind, ?_⟩
    rcases hcases with ⟨hsome, hr, hd⟩ | ⟨hnone, new, hr, hm, himage⟩
    · exact Or.inl ⟨hsome, by rw [hreply, hr], hd⟩
    · have hfresh : (G.image d).live new = false := (image_live hm.lt).trans hm.fresh
      have hne : dir ≠ new := ne_of_live hlive' hfresh
      have hlisted := Image.listed_createInode h.decodes hlive' (by rw [image_node hdir, hkind])
        hfresh name .directory
      refine Or.inr ⟨new, hm.lt, by rw [hreply, hr], ?_, ?_, hm.fits, ?_, fun _ => ?_⟩
      · rw [himage]
        exact hlisted.setDefaultDirent
      · rw [image_node hdir, hnone]
      · exact ⟨hlt dir hdir, hlt new hm.lt⟩
      · rw [himage, Image.createDir, entries_setDefaultDirent]
        rw [Image.createInode, Image.node_append_other hne.symm, Image.node_allocate_same]

/-! ### Names in a tree that has grown -/

/-- The inode number that a name stands for in directory `id`. -/
def Image.look (m : Image) (id : ℕ) (name : String) : Option ℕ :=
  lookup name (entries (m.node id).data)

theorem lookup_make (hfits : (strBytes name).length ≤ nameLengthLimit + 1) (hlt : new < 2 ^ 32)
    (c : String) : lookup c [DirEntry.make name new] =
      if cutNul name = c then some new else none := by
  have hnum : (DirEntry.make name new).inodeNumber = new := Nat.mod_eq_of_lt hlt
  rw [lookup_cons, DirEntry.name?_make hfits, hnum]
  simp [lookup]

/-- The dot entries of directory `id`, whose parent is `parent`. -/
structure Image.Heads (m : Image) (id parent : ℕ) : Prop where
  dot : m.look id "." = some id
  dotdot : m.look id ".." = some parent

theorem lookup_dots (hid : id < 2 ^ 32) (c : String) :
    lookup c [DirEntry.make "." id, DirEntry.make ".." parent] =
      if c = "." then some id else if c = ".." then some (parent % 2 ^ 32) else none := by
  have hnum : (DirEntry.make "." id).inodeNumber = id := Nat.mod_eq_of_lt hid
  rw [lookup_cons, lookup_cons, name?_dot, name?_dotdot, hnum]
  simp only [Option.some.injEq, eq_comm (b := c)]
  rfl

theorem Image.heads_of_entries (hid : id < 2 ^ 32)
    (h : entries (m.node id).data = [DirEntry.make "." id, DirEntry.make ".." parent]) :
    m.Heads id (parent % 2 ^ 32) := by
  refine ⟨?_, ?_⟩
  · rw [Image.look, h, lookup_dots hid]
    rfl
  · rw [Image.look, h, lookup_dots hid]
    rfl

namespace Image.Grown

variable (h : m.Grown m' dir new name kind)
include h

theorem kind_eq (hj : j ≠ new) : (m'.node j).kind = (m.node j).kind := by
  by_cases hjd : j = dir
  · rw [hjd, h.kind_dir, h.directory]
  · rw [h.other j hjd hj]

theorem look_dir (c : String) :
    m'.look dir c = (m.look dir c).or (if cutNul name = c then some new else none) := by
  rw [Image.look, h.entries_dir, lookup_append, lookup_make h.fits h.lt.2]
  rfl

theorem look_other (hjd : j ≠ dir) (hj : j ≠ new) (c : String) : m'.look j c = m.look j c := by
  rw [Image.look, h.other j hjd hj]
  rfl

theorem look_kept (hj : j ≠ new) (hk : m.look j c = some k) : m'.look j c = some k := by
  by_cases hjd : j = dir
  · rw [hjd] at hk ⊢
    rw [h.look_dir, hk]
    rfl
  · rw [h.look_other hjd hj, hk]

theorem heads_kept (hj : j ≠ new) (hh : m.Heads j parent) : m'.Heads j parent :=
  ⟨h.look_kept hj hh.dot, h.look_kept hj hh.dotdot⟩

theorem heads_new (hkind : kind = .directory) : m'.Heads new dir := by
  have hh := Image.heads_of_entries h.lt.2 (h.dots hkind)
  rwa [Nat.mod_eq_of_lt h.lt.1] at hh

/-- Without NUL the new name stands for the new node, and every other name for what it did. -/
theorem look_self (hnul : Char.ofNat 0 ∉ name.toList) : m'.look dir name = some new := by
  have hnone : m.look dir name = none := h.absent
  rw [h.look_dir, hnone, cutNul_of_nulFree hnul, if_pos rfl]
  rfl

theorem look_rest (hnul : Char.ofNat 0 ∉ name.toList) (hj : j ≠ new)
    (hne : ¬ (j = dir ∧ c = name)) : m'.look j c = m.look j c := by
  by_cases hjd : j = dir
  · have hc : ¬ name = c := fun heq => hne ⟨hjd, heq.symm⟩
    rw [hjd, h.look_dir, cutNul_of_nulFree hnul, if_neg hc, Option.or_none]
  · exact h.look_other hjd hj c

/-- What a name can stand for: what it stood for before, the new node under its name, or a dot entry
of the new node. -/
theorem look_cases (hid : (m'.node id).kind = .directory) (hk : m'.look id c = some k) :
    ((m.node id).kind = .directory ∧ m.look id c = some k) ∨
    (id = dir ∧ k = new) ∨
    (id = new ∧ kind = .directory ∧ ((c = "." ∧ k = new) ∨ (c = ".." ∧ k = dir))) := by
  by_cases hn : id = new
  · rw [hn] at hid hk
    have hdirectory : kind = .directory := h.kind_new.symm.trans hid
    rw [Image.look, h.dots hdirectory, lookup_dots h.lt.2, Nat.mod_eq_of_lt h.lt.1] at hk
    refine Or.inr (Or.inr ⟨hn, hdirectory, ?_⟩)
    split at hk
    · rename_i hc
      exact Or.inl ⟨hc, (Option.some.inj hk).symm⟩
    split at hk
    · rename_i hc
      exact Or.inr ⟨hc, (Option.some.inj hk).symm⟩
    · cases hk
  rw [h.kind_eq hn] at hid
  by_cases hd : id = dir
  · subst hd
    rw [h.look_dir] at hk
    cases hlook : m.look id c with
    | some i =>
      rw [hlook, Option.some_or] at hk
      exact Or.inl ⟨hid, hk⟩
    | none =>
      rw [hlook, Option.none_or] at hk
      split at hk
      · exact Or.inr (Or.inl ⟨rfl, (Option.some.inj hk).symm⟩)
      · cases hk
  · rw [h.look_other hd hn] at hk
    exact Or.inl ⟨hid, hk⟩

theorem live_new : m'.live new = true := by
  rw [h.live, Function.update_self]

theorem live_kept (hj : m.live j = true) : m'.live j = true := by
  by_cases hjn : j = new
  · rw [hjn, h.live_new]
  · rw [h.live, Function.update_of_ne hjn, hj]

end Image.Grown

/-! ### Trees -/

/-- Every directory has its dot entries, and what other names stand for is allocated; `..` of a
directory that has another name refers to the directory with that name. -/
structure Image.Tree (m : Image) : Prop where
  dots : ∀ id, (m.node id).kind = .directory → ∃ parent, m.Heads id parent
  child : ∀ id c k, (m.node id).kind = .directory → c ≠ "." → c ≠ ".." → m.look id c = some k →
    m.live k = true ∧ ((m.node k).kind = .directory → m.Heads k id)

/-- **A creation keeps the tree.** -/
theorem Image.Tree.grown (h : m.Tree) (hg : m.Grown m' dir new name kind) : m'.Tree := by
  refine ⟨?_, ?_⟩
  · intro id hid
    by_cases hn : id = new
    · rw [hn] at hid ⊢
      exact ⟨dir, hg.heads_new (hg.kind_new.symm.trans hid)⟩
    · rw [hg.kind_eq hn] at hid
      obtain ⟨parent, hh⟩ := h.dots id hid
      exact ⟨parent, hg.heads_kept hn hh⟩
  · intro id c k hid h1 h2 hk
    rcases hg.look_cases hid hk with ⟨hid, hk⟩ | ⟨hd, hn⟩ | ⟨_, _, ⟨hc, _⟩ | ⟨hc, _⟩⟩
    · -- an older child stays allocated, with its dot entries
      obtain ⟨hlive, hheads⟩ := h.child id c k hid h1 h2 hk
      have hne : k ≠ new := ne_of_live hlive hg.fresh
      refine ⟨hg.live_kept hlive, fun hkind => hg.heads_kept hne (hheads ?_)⟩
      rw [← hg.kind_eq hne, hkind]
    · subst hd hn
      exact ⟨hg.live_new, fun hkind => hg.heads_new (hg.kind_new.symm.trans hkind)⟩
    · exact absurd hc h1
    · exact absurd hc h2

/-- Every name stands for an allocated node. -/
def Image.Closed (m : Image) : Prop :=
  ∀ id c k, (m.node id).kind = .directory → m.look id c = some k → m.live k = true

theorem Image.Closed.grown (h : m.Closed) (hg : m.Grown m' dir new name kind)
    (hlive : m.live dir = true) : m'.Closed := by
  intro id c k hid hk
  rcases hg.look_cases hid hk with ⟨hid, hk⟩ | ⟨_, hn⟩ | ⟨_, _, ⟨_, hn⟩ | ⟨_, hd⟩⟩
  · exact hg.live_kept (h id c k hid hk)
  · rw [hn]
    exact hg.live_new
  · rw [hn]
    exact hg.live_new
  · rw [hd]
    exact hg.live_kept hlive

/-! ### Runs that build a tree -/

/-- The calls that build a tree: `set_default_dirent` on the root, and then creations. -/
def Call.Grows (G : Geometry) (parent : ℕ) : History → Disk → Call → Prop
  | [], _, call => call = .setDefaultDirent (G.handle 0) parent
  | _ :: _, _, call => ∃ kind self name, call = .make kind self name

/-- A system with a tree, and what is known of the directories that were created. -/
structure Planted (G : Geometry) (parent : ℕ) (hist : History) (d : Disk) (inodes : List Inode) :
    Prop where
  sound : Sound G d inodes
  tree : (G.image d).Tree
  root : G.handle 0 ∈ inodes ∧ (G.node d 0).kind = .directory ∧
    (G.image d).Heads 0 (parent % 2 ^ 32)
  closed : parent = 0 → (G.image d).Closed
  made : ∀ self name i, (Call.createDir self name, Reply.inode (some i)) ∈ hist →
    ∃ j k, self = G.handle j ∧ i = G.handle k ∧ k < G.slots ∧ G.live d k = true ∧
      (G.node d k).kind = .directory ∧ (G.image d).Heads k j

variable {hist : History} {call : Call} {self i : Inode}

theorem Formatted.planted (h : Formatted G d)
    (hrun : drun ((Call.setDefaultDirent (G.handle 0) parent).prog G.fs) [] d = .ok (reply, d')) :
    Planted G parent [(.setDefaultDirent (G.handle 0) parent, reply)] d'
      (reply.inodes ++ [G.handle 0]) := by
  have hsound := h.sound
  have hself : (Call.setDefaultDirent (G.handle 0) parent).self ∈ [G.handle 0] :=
    List.mem_singleton_self _
  obtain ⟨id, h0, heq, _⟩ := hsound.known _ hself
  cases Geometry.handle_inj heq
  have hserved := wp_result (call_spec hsound hself trivial) hrun
  have himage : G.image d' = Image.fresh.setDefaultDirent 0 parent := by
    have hspec : dwp ((Call.setDefaultDirent (G.handle 0) parent).prog G.fs) [] d
        (fun _ d' => G.image d' = (G.image d).setDefaultDirent 0 parent) fun _ => True := by
      refine wp_bind'.mpr (wp_mono (setDefaultDirent_op h.core h0 parent) ?_ fun _ _ => trivial)
      exact fun _ d' hw => wp_pure'.mpr (hw.image h.core h0 (Or.inl (Nat.zero_le _)))
    rw [wp_result hspec hrun, h.image]
  have hentries : entries ((G.image d').node 0).data =
      [DirEntry.make "." 0, DirEntry.make ".." parent] := by
    rw [himage, entries_setDefaultDirent parent rfl]
  have hheads : (G.image d').Heads 0 (parent % 2 ^ 32) :=
    Image.heads_of_entries (by norm_num) hentries
  -- the root is the only directory
  have honly : ∀ id, ((G.image d').node id).kind = .directory → id = 0 := by
    intro id hid
    by_contra hne
    rw [himage, Image.setDefaultDirent, Image.node_write_other hne] at hid
    have hfile : (Image.fresh.node id).kind = .file := by
      show (if id = 0 then (⟨.directory, []⟩ : Node) else ⟨.file, []⟩).kind = .file
      rw [if_neg hne]
    exact absurd (hfile.symm.trans hid) (by simp)
  refine ⟨hserved.sound, ⟨?_, ?_⟩, ⟨by simp, ?_, hheads⟩, ?_, ?_⟩
  · intro id hid
    rw [honly id hid]
    exact ⟨_, hheads⟩
  · intro id c k hid h1 h2 hk
    rw [honly id hid, Image.look, hentries, lookup_dots (by norm_num), if_neg h1, if_neg h2] at hk
    cases hk
  · rw [← image_node h0, himage, Image.setDefaultDirent, Image.kind_write]
    rfl
  · intro hparent id c k hid hk
    rw [honly id hid, Image.look, hentries, lookup_dots (by norm_num), hparent] at hk
    have hzero : k = 0 := by
      split at hk
      · exact (Option.some.inj hk).symm
      split at hk
      · exact (Option.some.inj hk).symm
      · cases hk
    rw [hzero, himage]
    rfl
  · intro self name i hmem
    exact absurd (congrArg Prod.fst (List.mem_singleton.mp hmem)) (by simp)

theorem Call.make_eq_createDir {self' : Inode} {name' : String}
    (h : Call.createDir self' name' = .make kind self name) : kind = .directory ∧ self' = self := by
  cases kind with
  | file => cases h
  | directory => exact ⟨rfl, (Call.createDir.inj h).1⟩

/-- **A creation keeps the tree and the directories that were created.** -/
theorem Planted.step (h : Planted G parent hist d inodes) (hself : self ∈ inodes)
    (hrun : drun ((Call.make kind self name).prog G.fs) [] d = .ok (reply, d')) :
    Planted G parent ((.make kind self name, reply) :: hist) d' (reply.inodes ++ inodes) := by
  obtain ⟨dir, hdir, heq, hlive⟩ := h.sound.known self hself
  subst heq
  have hserved := wp_result (call_spec h.sound (by rw [Call.self_make]; exact hself)
    (Call.plain_make kind _ name)) hrun
  obtain ⟨hkind, hcases⟩ := make_outcome h.sound hdir hlive hrun
  rcases hcases with ⟨_, hreply, hd⟩ | ⟨new, hnew, hreply, hg⟩
  · subst hreply hd
    refine ⟨h.sound, h.tree, h.root, h.closed, ?_⟩
    intro self' name' i hmem
    rcases List.mem_cons.mp hmem with heq | hmem
    · exact absurd (congrArg Prod.snd heq) (by simp)
    · exact h.made self' name' i hmem
  subst hreply
  have hkept : ∀ k, k < G.slots → G.live d k = true → k ≠ new := by
    intro k hk hlk
    exact ne_of_live ((image_live hk).trans hlk) hg.fresh
  have hnode : ∀ k, k < G.slots → k ≠ new → (G.node d' k).kind = (G.node d k).kind := by
    intro k hk hne
    rw [← image_node hk, ← image_node hk, hg.kind_eq hne]
  refine ⟨hserved.sound, h.tree.grown hg, ?_, ?_, ?_⟩
  · obtain ⟨hmem, hroot, hheads⟩ := h.root
    obtain ⟨id, h0, heq, hlive0⟩ := h.sound.known _ hmem
    cases Geometry.handle_inj heq
    refine ⟨List.mem_cons_of_mem _ hmem, ?_, hg.heads_kept (hkept 0 h0 hlive0) hheads⟩
    rw [hnode 0 h0 (hkept 0 h0 hlive0), hroot]
  · intro hparent
    exact (h.closed hparent).grown hg ((image_live hdir).trans hlive)
  · intro self' name' i hmem
    rcases List.mem_cons.mp hmem with heq | hmem
    · rw [Prod.mk.injEq] at heq
      obtain ⟨hdirectory, hs⟩ := Call.make_eq_createDir heq.1
      have hi : some i = some (G.handle new) := Reply.inode.inj heq.2
      refine ⟨dir, new, hs, Option.some.inj hi, hnew, ?_, ?_, hg.heads_new hdirectory⟩
      · rw [← image_live hnew, hg.live_new]
      · rw [← image_node hnew, hg.kind_new, hdirectory]
    · obtain ⟨j, k, hs, hi, hk, hlk, hkd, hheads⟩ := h.made self' name' i hmem
      have hne := hkept k hk hlk
      refine ⟨j, k, hs, hi, hk, ?_, ?_, hg.heads_kept hne hheads⟩
      · rw [← image_live hk, hg.live_kept ((image_live hk).trans hlk)]
      · rw [hnode k hk hne, hkd]

variable {d₀ : Disk} {s : System}

theorem Run.planted (h : Run G (Call.Grows G parent) d₀ hist s) (hne : hist ≠ []) :
    Planted G parent hist s.cache.content s.inodes := by
  have hall := (h.induct (P := fun hist d inodes =>
    (hist = [] ∧ Formatted G d ∧ inodes = [G.handle 0]) ∨
      (hist ≠ [] ∧ Planted G parent hist d inodes)) ?_ ?_).2.2
  · rcases hall with ⟨hnil, _⟩ | ⟨_, hp⟩
    · exact absurd hnil hne
    · exact hp
  · exact fun d hf => Or.inl ⟨rfl, hf, rfl⟩
  · intro hist d inodes call reply d' hP hmem hok hrun
    refine Or.inr ⟨List.cons_ne_nil _ _, ?_⟩
    rcases hP with ⟨hnil, hf, hin⟩ | ⟨hcons, hp⟩
    · subst hnil hin
      have hcall : call = .setDefaultDirent (G.handle 0) parent := hok
      subst hcall
      exact hf.planted hrun
    · obtain ⟨last, hist, rfl⟩ := List.exists_cons_of_ne_nil hcons
      obtain ⟨kind, self, name, hcall⟩ := hok
      subst hcall
      rw [Call.self_make] at hmem
      exact hp.step hmem hrun

/-! ### Names and handles -/

/-- The names of new nodes have no NUL and fit an entry. -/
def Call.Named : Call → Prop
  | .create _ name | .createDir _ name =>
    Char.ofNat 0 ∉ name.toList ∧ (strBytes name).length ≤ nameLengthLimit + 1
  | _ => True

/-- The calls that build a tree with such names. -/
def Call.Builds (G : Geometry) (parent : ℕ) (hist : History) (d : Disk) (call : Call) : Prop :=
  call.Grows G parent hist d ∧ call.Named

/-- If the inode behind a handle is a directory, then its names are pairwise distinct. -/
def DistinctNames (G : Geometry) (d : Disk) (self : Inode) : Prop :=
  (G.node d (self.inodeId G.fs)).kind = .directory →
    ((entries (G.node d (self.inodeId G.fs)).data).map DirEntry.name?).Nodup

/-- Names are distinct along the runs that build a tree. -/
theorem Run.distinct (h : Run G (Call.Builds G parent) d₀ hist s) :
    (G.image s.cache.content).Distinct := by
  refine (h.induct (P := fun hist d inodes => Sound G d inodes ∧ (G.image d).Distinct ∧
    (hist = [] → G.image d = Image.fresh)) ?_ ?_).2.2.2.1
  · intro d hf
    exact ⟨hf.sound, by rw [hf.image]; exact Image.distinct_fresh, fun _ => hf.image⟩
  · rintro hist d inodes call reply d' ⟨hsound, hdistinct, hfirst⟩ hmem ⟨hgrows, hnamed⟩ hrun
    have hcall : call.Plain ∧ call.Proper G (G.image d) := by
      cases hist with
      | nil =>
        have hset : call = .setDefaultDirent (G.handle 0) parent := hgrows
        subst hset
        rw [hfirst rfl, Call.Proper, Geometry.inodeId_handle]
        exact ⟨trivial, rfl⟩
      | cons last hist =>
        obtain ⟨kind, self, name, hmake⟩ := hgrows
        subst hmake
        cases kind with
        | file => exact ⟨trivial, hnamed.1⟩
        | directory => exact ⟨trivial, hnamed.1⟩
    obtain ⟨id, hid, heq, hlive⟩ := hsound.known _ hmem
    have hserved := wp_result (call_spec hsound hmem hcall.1) hrun
    refine ⟨hserved.sound, ?_, fun hno => absurd hno (List.cons_ne_nil _ _)⟩
    refine hserved.move.distinct hsound.decodes hdistinct ?_ hcall.2
    rw [heq, Geometry.inodeId_handle, image_live hid, hlive]

theorem DistinctNames.of_image (h : (G.image d).Distinct) (hid : id < G.slots) :
    DistinctNames G d (G.handle id) := by
  intro hkind
  rw [Geometry.inodeId_handle, ← image_node hid] at hkind ⊢
  exact h id hkind

theorem Sound.finds_iff_look {c : CacheState} {r : Option Inode} (hs : Sound G c.content inodes)
    (hc : Presents c [] c.content) (hdir : dir < G.slots) : Finds G.fs c (G.handle dir) name r ↔
      (G.node c.content dir).kind = .directory ∧
        r = ((G.image c.content).look dir name).map G.handle := by
  have hok := hs.core.inodeOk hdir (aside_slot hdir)
  rw [Image.look, image_node hdir]
  constructor
  · intro hf
    obtain ⟨c', hexec⟩ := hf
    obtain ⟨d', hrun, _⟩ := exec_content hc hexec
    obtain ⟨_, _, _, hkind, _⟩ := wp_result (wp_reply (find_op hok name)) hrun
    exact ⟨hkind, (hs.finds_iff hc hdir hkind).mp ⟨c', hexec⟩⟩
  · rintro ⟨hkind, hr⟩
    exact (hs.finds_iff hc hdir hkind).mpr hr

/-- What is found in `c'` after `i` has been created by system `s` in `self` under `name`. -/
structure Creates (G : Geometry) (s : System) (c' : CacheState) (kind : DiskInodeKind) (self : Inode)
    (name : String) (i : Inode) : Prop where
  new : i ∉ s.inodes
  found : Finds s.fs c' self name (some i)
  others : ∀ dir ∈ s.inodes, ∀ n r, ¬ (dir = self ∧ n = name) →
    (Finds s.fs c' dir n r ↔ Finds s.fs s.cache dir n r)
  distinct : ∀ dir ∈ i :: s.inodes, DistinctNames G c'.content dir
  dots : kind = .directory → Finds s.fs c' i "." (some i) ∧ Finds s.fs c' i ".." (some self)

theorem Planted.finds_dots {parent} (h : Planted G parent hist s.cache.content inodes)
    (hc : Presents s.cache [] s.cache.content)
    (hmem : (Call.createDir self name, Reply.inode (some i)) ∈ hist) :
    Finds G.fs s.cache i "." (some i) ∧ Finds G.fs s.cache i ".." (some self) := by
  obtain ⟨j, k, hself, hi, hk, _, hkind, hheads⟩ := h.made self name i hmem
  subst hself hi
  refine ⟨?_, ?_⟩
  · rw [h.sound.finds_iff_look hc hk, hheads.dot]
    exact ⟨hkind, rfl⟩
  · rw [h.sound.finds_iff_look hc hk, hheads.dotdot]
    exact ⟨hkind, rfl⟩

theorem Call.roomy_of_found (h : lookup name (entries (G.node d dir).data) ≠ none) :
    (Call.make kind (G.handle dir) name).Roomy G d := by
  have hpos : (G.handle dir).inodeId G.fs = dir := G.inodeId_handle dir
  cases kind with
  | file =>
    rw [Call.make, Call.Roomy, hpos]
    exact fun hnone => absurd hnone h
  | directory =>
    rw [Call.make, Call.Roomy, hpos]
    exact fun hnone => absurd hnone h

theorem Planted.make_returns {c : CacheState} (h : Planted G parent hist c.content inodes)
    (hc : Presents c [] c.content) (hmem : G.handle dir ∈ inodes)
    (hkind : (G.node c.content dir).kind = .directory)
    (hnamed : (Call.make kind (G.handle dir) name).Named)
    (hroom : (Call.make kind (G.handle dir) name).Roomy G c.content) :
    ∃ reply c', exec cacheMachine ((Call.make kind (G.handle dir) name).prog G.fs) c =
      .ok (reply, c') := by
  have htyped : (Call.make kind (G.handle dir) name).Typed G c.content := by
    have hdir : (G.node c.content ((G.handle dir).inodeId G.fs)).kind = .directory := by
      rw [Geometry.inodeId_handle, hkind]
    cases kind with
    | file => exact ⟨hdir, hnamed.2⟩
    | directory => exact ⟨hdir, hnamed.2⟩
  have hspec := call_spec h.sound (by rw [Call.self_make]; exact hmem)
    (Call.plain_make kind (G.handle dir) name)
  obtain ⟨reply, d', hrun, _⟩ := wp_returns (wp_mono hspec (fun _ _ hs => hs)
    fun _ hno => hno ⟨hroom, htyped⟩)
  obtain ⟨c', hexec, _⟩ := exec_returns hc hrun
  exact ⟨reply, c', hexec⟩

/-- The names after a creation. -/
theorem Run.creates (h : Run G (Call.Builds G parent) d₀ hist s) (hne : hist ≠ [])
    (hmem : G.handle dir ∈ s.inodes) (hnamed : (Call.make kind (G.handle dir) name).Named)
    {c' : CacheState} (hexec : exec cacheMachine ((Call.make kind (G.handle dir) name).prog s.fs)
      s.cache = .ok (.inode (some (G.handle new)), c'))
    (hnew : new < G.slots)
    (hg : (G.image s.cache.content).Grown (G.image c'.content) dir new name kind) :
    Creates G s c' kind (G.handle dir) name (G.handle new) := by
  obtain ⟨last, before, rfl⟩ := List.exists_cons_of_ne_nil hne
  have hself : (Call.make kind (G.handle dir) name).self ∈ s.inodes := by
    rw [Call.self_make]
    exact hmem
  have hrun' := Run.step h hself ⟨⟨kind, _, name, rfl⟩, hnamed⟩ hexec
  have hp := (h.mono fun _ _ _ hok => hok.1).planted hne
  have hp' := (hrun'.mono fun _ _ _ hok => hok.1).planted (List.cons_ne_nil _ _)
  obtain ⟨hfs, hc⟩ := h.presents
  have hc' := hrun'.presents.2
  have hnul : Char.ofNat 0 ∉ name.toList := by
    cases kind with
    | file => exact hnamed.1
    | directory => exact hnamed.1
  obtain ⟨id, hid, heq, hlive⟩ := hp.sound.known _ hmem
  cases Geometry.handle_inj heq
  refine ⟨?_, ?_, ?_, ?_, ?_⟩
  · intro hin
    obtain ⟨id, hid', heq, hlive'⟩ := hp.sound.known _ hin
    cases Geometry.handle_inj heq
    exact ne_of_live ((image_live hnew).trans hlive') hg.fresh rfl
  · rw [hfs, hp'.sound.finds_iff_look hc' hid, hg.look_self hnul, ← image_node hid, hg.kind_dir]
    exact ⟨rfl, rfl⟩
  · intro other hother n r hdiff
    obtain ⟨j, hj, heq, hlive'⟩ := hp.sound.known _ hother
    subst heq
    have hjn : j ≠ new := ne_of_live ((image_live hj).trans hlive') hg.fresh
    have hlook : (G.image c'.content).look j n = (G.image s.cache.content).look j n := by
      refine hg.look_rest hnul hjn ?_
      rintro ⟨hjd, hn⟩
      exact hdiff ⟨by rw [hjd], hn⟩
    rw [hfs, hp'.sound.finds_iff_look hc' hj, hp.sound.finds_iff_look hc hj, hlook,
      ← image_node hj, ← image_node hj, hg.kind_eq hjn]
  · intro other hother
    obtain ⟨j, hj, heq, _⟩ := hp'.sound.known other hother
    rw [heq]
    exact .of_image hrun'.distinct hj
  · intro hkind
    subst hkind
    rw [hfs]
    exact hp'.finds_dots hc' List.mem_cons_self

/-- **Directory trees.**  In every state of a run that builds a tree from NUL-free names, the names of
each directory are pairwise distinct and the dot entries of a created directory are found.  A creation
returns `None` and changes nothing exactly when the name is found; otherwise it returns if there is
room for it, the new inode is found under the name, and everything else is found as before. -/
theorem directory_tree (h : Run G (Call.Builds G parent) d₀ hist s) (hne : hist ≠ []) :
    (∀ dir ∈ s.inodes, DistinctNames G s.cache.content dir) ∧
    (∀ self name i, (Call.createDir self name, Reply.inode (some i)) ∈ hist →
      Finds s.fs s.cache i "." (some i) ∧ Finds s.fs s.cache i ".." (some self)) ∧
    ∀ kind self name, self ∈ s.inodes → (Call.make kind self name).Named →
      ((∃ c, exec cacheMachine ((Call.make kind self name).prog s.fs) s.cache =
          .ok (.inode none, c) ∧ c.content = s.cache.content) ↔
        ∃ i, Finds s.fs s.cache self name (some i)) ∧
      (Finds s.fs s.cache self name none →
        ((Call.make kind self name).Roomy G s.cache.content →
          ∃ reply c, exec cacheMachine ((Call.make kind self name).prog s.fs) s.cache =
            .ok (reply, c)) ∧
        ∀ reply c, exec cacheMachine ((Call.make kind self name).prog s.fs) s.cache =
            .ok (reply, c) →
          ∃ i, reply = .inode (some i) ∧ Creates G s c kind self name i) := by
  have hp := (h.mono fun _ _ _ hok => hok.1).planted hne
  obtain ⟨hfs, hc⟩ := h.presents
  refine ⟨?_, ?_, ?_⟩
  · intro dir hdir
    obtain ⟨id, hid, heq, _⟩ := hp.sound.known dir hdir
    rw [heq]
    exact .of_image h.distinct hid
  · intro self name i hmem
    rw [hfs]
    exact hp.finds_dots hc hmem
  intro kind self name hmem hnamed
  obtain ⟨dir, hdir, heq, hlive⟩ := hp.sound.known self hmem
  subst heq
  have hfinds : ∀ r, Finds s.fs s.cache (G.handle dir) name r ↔
      (G.node s.cache.content dir).kind = .directory ∧
        r = ((G.image s.cache.content).look dir name).map G.handle := by
    intro r
    rw [hfs]
    exact hp.sound.finds_iff_look hc hdir
  have houtcome : ∀ reply c, exec cacheMachine ((Call.make kind (G.handle dir) name).prog s.fs)
      s.cache = .ok (reply, c) → (G.node s.cache.content dir).kind = .directory ∧
      (((G.image s.cache.content).look dir name ≠ none ∧ reply = .inode none ∧
        c.content = s.cache.content) ∨
      ∃ new, new < G.slots ∧ reply = .inode (some (G.handle new)) ∧
        (G.image s.cache.content).Grown (G.image c.content) dir new name kind) := by
    intro reply c hexec
    obtain ⟨d', hrun, hc'⟩ := exec_content hc hexec
    rw [hfs] at hrun
    rw [hc'.content_eq, Image.look, image_node hdir]
    exact make_outcome hp.sound hdir hlive hrun
  have hreturns : (G.node s.cache.content dir).kind = .directory →
      (Call.make kind (G.handle dir) name).Roomy G s.cache.content →
      ∃ reply c, exec cacheMachine ((Call.make kind (G.handle dir) name).prog s.fs) s.cache =
        .ok (reply, c) := by
    intro hkind hroom
    rw [hfs]
    exact hp.make_returns hc hmem hkind hnamed hroom
  refine ⟨⟨?_, ?_⟩, ?_⟩
  · rintro ⟨c, hexec, _⟩
    obtain ⟨hkind, ⟨hsome, _⟩ | ⟨new, _, hreply, _⟩⟩ := houtcome _ c hexec
    · obtain ⟨k, hk⟩ := Option.ne_none_iff_exists'.mp hsome
      exact ⟨G.handle k, (hfinds _).mpr ⟨hkind, by rw [hk]; rfl⟩⟩
    · exact absurd hreply (by simp)
  · rintro ⟨i, hi⟩
    obtain ⟨hkind, hlook⟩ := (hfinds _).mp hi
    have hsome : (G.image s.cache.content).look dir name ≠ none := by
      intro hnone
      rw [hnone] at hlook
      cases hlook
    have hroom : (Call.make kind (G.handle dir) name).Roomy G s.cache.content := by
      rw [Image.look, image_node hdir] at hsome
      exact Call.roomy_of_found hsome
    obtain ⟨reply, c, hexec⟩ := hreturns hkind hroom
    obtain ⟨_, ⟨_, hreply, hsame⟩ | ⟨new, _, _, hg⟩⟩ := houtcome reply c hexec
    · subst hreply
      exact ⟨c, hexec, hsame⟩
    · exact absurd hg.absent hsome
  · intro hnone
    obtain ⟨hkind, hlook⟩ := (hfinds _).mp hnone
    refine ⟨hreturns hkind, ?_⟩
    intro reply c hexec
    obtain ⟨_, ⟨hsome, _⟩ | ⟨new, hnew, hreply, hg⟩⟩ := houtcome reply c hexec
    · exact absurd (Option.map_eq_none_iff.mp hlook.symm) hsome
    · subst hreply
      exact ⟨G.handle new, rfl, h.creates hne hmem hnamed hexec hnew hg⟩

/-- The root gets its dot entries, and then an entry `a`. -/
def rootHist : History := [(.setDefaultDirent (Geometry.efsTest.handle 0) 0, .unit)]

def childHist (kind : DiskInodeKind) : History :=
  (.make kind (Geometry.efsTest.handle 0) "a", .inode (some (Geometry.efsTest.handle 1))) :: rootHist

theorem plays_root : Plays .efsTest (Call.Builds .efsTest 0) rootHist :=
  ⟨trivial, by decide, ⟨rfl, trivial⟩, by decide +kernel⟩

theorem exists_child (kind : DiskInodeKind) : ∃ s,
    Run .efsTest (Call.Builds .efsTest 0) (fun _ => Block.zero) (childHist kind) s ∧
    s.fs = Geometry.efsTest.fs ∧ Presents s.cache [] (diskAfter .efsTest (childHist kind)) := by
  have hout : outcome ((Call.make kind (Geometry.efsTest.handle 0) "a").prog Geometry.efsTest.fs)
      (diskAfter .efsTest rootHist) = .ok (.inode (some (Geometry.efsTest.handle 1))) := by
    cases kind <;> decide +kernel
  have hnamed : (Call.make kind (Geometry.efsTest.handle 0) "a").Named := by
    cases kind <;> exact ⟨by decide, by decide⟩
  obtain ⟨s, hrun, hfs, hp, _⟩ := exists_play _ (Call.Builds .efsTest 0) (childHist kind)
    ⟨plays_root, by rw [Call.self_make]; decide, ⟨⟨kind, _, "a", rfl⟩, hnamed⟩, hout⟩
  exact ⟨s, hrun, hfs, hp⟩

theorem directory_tree_first_directory : ∃ hist s c i,
    Run .efsTest (Call.Builds .efsTest 0) (fun _ => Block.zero) hist s ∧ hist ≠ [] ∧
    exec cacheMachine ((Call.createDir (Geometry.efsTest.handle 0) "a").prog s.fs) s.cache =
      .ok (.inode (some i), c) ∧
    Creates .efsTest s c .directory (Geometry.efsTest.handle 0) "a" i := by
  obtain ⟨s, hrun, hfs, hp, hinodes⟩ := exists_play _ _ rootHist plays_root
  have hnone : Finds s.fs s.cache (Geometry.efsTest.handle 0) "a" none := by
    obtain ⟨c, hexec, _⟩ := exec_of_outcome hp
      (show outcome ((Call.find (Geometry.efsTest.handle 0) "a").prog Geometry.efsTest.fs) _ =
        .ok (.inode none) by decide +kernel)
    exact ⟨c, by rw [hfs]; exact hexec⟩
  obtain ⟨c, hexec, _⟩ := exec_of_outcome hp
    (show outcome ((Call.createDir (Geometry.efsTest.handle 0) "a").prog Geometry.efsTest.fs) _ =
      .ok (.inode (some (Geometry.efsTest.handle 1))) by decide +kernel)
  rw [← hfs] at hexec
  obtain ⟨_, _, hmake⟩ := directory_tree hrun (List.cons_ne_nil _ _)
  obtain ⟨_, hnew⟩ := hmake .directory _ "a" (by rw [hinodes]; exact List.mem_singleton_self _)
    ⟨by decide, by decide⟩
  obtain ⟨i, hreply, hcreates⟩ := (hnew hnone).2 _ c hexec
  cases hreply
  exact ⟨_, s, c, _, hrun, List.cons_ne_nil _ _, hexec, hcreates⟩

/-- With these sizes the sums of `create` wrap and the second data block is the block of the inodes 0 to
3: there is no `a`, and making it waits for a lock it holds. -/
theorem create_dir_overlapping_areas :
    (exec cacheMachine (do
      let fs ← EasyFileSystem.create 8384511 4194303
      fs.rootInode.setDefaultDirent fs 0
      fs.rootInode.find fs "a") (.init fun _ => .zero)).map Prod.fst = .ok none ∧
    (exec cacheMachine (do
      let fs ← EasyFileSystem.create 8384511 4194303
      fs.rootInode.setDefaultDirent fs 0
      fs.rootInode.createDir fs "a") (.init fun _ => .zero)).map Prod.fst =
      .error (.locked 4194304) := by
  rw [exec_blank (by decide), exec_blank (by decide)]
  refine ⟨by decide +kernel, ?_⟩
  simp only [Inode.createDir, Inode.createInode, EasyFileSystem.allocInode, alloc_first_block]
  decide +kernel

end LemonCore.EasyFs
