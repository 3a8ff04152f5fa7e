import LemonCore.EasyFs.DirectoryTree
import LemonCore.Foundation.LexicalPaths

/-!
# Paths (`kernel/src/fs/mod.rs`, `kernel/src/fs/inode.rs`)

`get_full_path` normalises a path lexically; `inode::find` follows the components of a path from the
root through the directories on disk.

* `getFullPath`, `find`: the code;
* `edge`: the lookup of one component in the image of the disk; a walk is a fold of it;
* `WellFormed`: the directories can be searched, and their entries refer to inodes;
* `findFrom_spec`: `find` is the fold of `edge`.  It panics exactly on a path that goes on behind a
  regular file (`find_returns_iff`);
* `find_full_path`: in a tree built by `create` and `create_dir`, the normalised path leads to where the
  components of the path lead.
-/

namespace LemonCore.Kernel.Paths

open EasyFs Foundation.BorrowProgram Foundation.LexicalPaths

/-! ### The code -/

/-- `s.split('/')`. -/
def split (s : String) : List String := (s.toList.splitOn '/').map String.ofList

/-- The parts that `get_full_path` leaves out. -/
def Skipped (part : String) : Prop := part = "" ∨ part = "."

instance : DecidablePred Skipped := fun part => inferInstanceAs (Decidable (part = "" ∨ part = "."))

/-- `path.starts_with('/')`. -/
def isAbsolute (path : String) : Bool := path.toList.head? = some '/'

def getFullPath (cwd path : String) : String :=
  let resolvedPath := if isAbsolute path then path else cwd ++ "/" ++ path
  let parts := (split resolvedPath).foldl (push Skipped "..") []
  "/" ++ "/".intercalate parts

/-- The `try_fold` of `inode::find`. -/
def findFrom (fs : EasyFileSystem) : Inode → List String → DiskProg (Option Inode)
  | node, [] => pure (some node)
  | node, name :: names =>
    if name = "" then findFrom fs node names
    else do
      match ← node.find fs name with
      | none => pure none
      | some node => findFrom fs node names

/-- `inode::find`. -/
def find (fs : EasyFileSystem) (path : String) : DiskProg (Option Inode) :=
  findFrom fs fs.rootInode (split path)

/-! ### Walks -/

variable {G : Geometry} {m : Image} {d : Disk} {id k : ℕ} {name : String} {names : List String}

/-- Where a component leads: the empty one stays, and the others are looked up in a directory. -/
def edge (m : Image) (id : ℕ) (name : String) : Option ℕ :=
  if name = "" then some id else if (m.node id).kind = .directory then m.look id name else none

theorem edge_empty (m : Image) (id : ℕ) : edge m id "" = some id := rfl

theorem edge_directory (hname : name ≠ "") (h : (m.node id).kind = .directory) :
    edge m id name = m.look id name := by
  rw [edge, if_neg hname, if_pos h]

theorem edge_file (hname : name ≠ "") (h : (m.node id).kind = .file) : edge m id name = none := by
  rw [edge, if_neg hname, if_neg (by rw [h]; simp)]

/-- The walk comes to a regular file and has a component left that is not empty. -/
def ThroughFile (m : Image) (id : ℕ) (names : List String) : Prop :=
  ∃ before name after file, names = before ++ name :: after ∧ name ≠ "" ∧
    before.foldlM (edge m) id = some file ∧ (m.node file).kind = .file

theorem throughFile_nil : ¬ ThroughFile m id [] := by
  rintro ⟨before, _, _, _, h, _⟩
  exact absurd h.symm (List.append_ne_nil_of_right_ne_nil before (List.cons_ne_nil _ _))

theorem throughFile_cons : ThroughFile m id (name :: names) ↔
    (name ≠ "" ∧ (m.node id).kind = .file) ∨ ∃ k, edge m id name = some k ∧ ThroughFile m k names := by
  constructor
  · rintro ⟨before, c, after, file, h, hc, hwalk, hfile⟩
    cases before with
    | nil =>
      cases hwalk
      cases h
      exact Or.inl ⟨hc, hfile⟩
    | cons b before =>
      cases h
      rw [List.foldlM_cons, Option.bind_eq_bind, Option.bind_eq_some_iff] at hwalk
      obtain ⟨k, hk, hwalk⟩ := hwalk
      exact Or.inr ⟨k, hk, before, c, after, file, rfl, hc, hwalk, hfile⟩
  · intro h
    rcases h with ⟨hname, hfile⟩ | ⟨k, hk, before, c, after, file, h, hc, hwalk, hfile⟩
    · exact ⟨[], name, names, id, rfl, hname, rfl, hfile⟩
    · refine ⟨name :: before, c, after, file, by rw [h]; rfl, hc, ?_, hfile⟩
      rw [List.foldlM_cons, hk, Option.bind_eq_bind, Option.bind_some, hwalk]

/-- The directories hold whole entries with names that decode, and the entries refer to inodes. -/
structure WellFormed (G : Geometry) (d : Disk) : Prop where
  core : Core G (G.slot d) d
  decodes : (G.image d).Decodes
  refers : ∀ id c k, ((G.image d).node id).kind = .directory → (G.image d).look id c = some k →
    k < G.slots

/-- `Inode::find` asserts that it searches a directory. -/
theorem find_file (hfile : (G.node d id).kind = .file) (name : String) :
    dwp ((G.handle id).find G.fs name) [] d (fun _ _ => False) fun e => e = .panic .assertion := by
  refine wp_readSlot (wp_bind'.mpr ?_)
  have hdir : ¬ (G.slot d id).isDir = true := by
    have hkind : (G.slot d id).kind = .file := hfile
    rw [DiskInode.isDir, hkind]
    decide
  rw [findInodeId, Prog.assert, if_neg hdir]
  exact wp_bind'.mpr (wp_panic.mpr rfl)

theorem find_directory (h : WellFormed G d) (hid : id < G.slots)
    (hdir : (G.node d id).kind = .directory) (name : String) :
    dwp ((G.handle id).find G.fs name) [] d
      (fun r d' => d' = d ∧ r = ((G.image d).look id name).map G.handle) fun _ => False := by
  have hdec := (h.decodes id (by rw [image_node hid]; exact hdir)).2
  rw [image_node hid] at hdec
  rw [Image.look, image_node hid]
  refine wp_mono (find_op (h.core.inodeOk hid (aside_slot hid)) name) ?_ fun _ he => he ⟨hdir, hdec⟩
  exact fun r d' hfound => ⟨hfound.1, hfound.2.2⟩

/-- **`find` is a walk**, and it faults exactly when the walk goes on behind a regular file. -/
theorem findFrom_spec (h : WellFormed G d) : ∀ (names : List String) (id : ℕ), id < G.slots →
    dwp (findFrom G.fs (G.handle id) names) [] d
      (fun r d' => d' = d ∧ ¬ ThroughFile (G.image d) id names ∧
        r = (names.foldlM (edge (G.image d)) id).map G.handle)
      fun e => e = .panic .assertion ∧ ThroughFile (G.image d) id names := by
  intro names
  -- the walk stands at inode `id` with the components `names` left
  induction names with
  | nil =>
    intro id _
    exact wp_pure'.mpr ⟨rfl, throughFile_nil, rfl⟩
  | cons name names ih =>
    intro id hid
    rw [findFrom, throughFile_cons]
    by_cases hname : name = ""
    · subst hname
      rw [if_pos rfl]
      refine wp_mono (ih id hid) ?_ ?_
      · rintro r d' ⟨hd, hno, hr⟩
        refine ⟨hd, ?_, hr⟩
        rintro (⟨hne, _⟩ | ⟨k, hk, hthrough⟩)
        · exact hne rfl
        · cases hk
          exact hno hthrough
      · rintro e ⟨he, hthrough⟩
        exact ⟨he, Or.inr ⟨id, rfl, hthrough⟩⟩
    rw [if_neg hname]
    refine wp_bind'.mpr ?_
    cases hkind : (G.node d id).kind with
    | file =>
      refine wp_mono (find_file hkind name) (fun _ _ hno => hno.elim) ?_
      intro e he
      exact ⟨he, Or.inl ⟨hname, by rw [image_node hid]; exact hkind⟩⟩
    | directory =>
      have hdir : ((G.image d).node id).kind = .directory := by
        rw [image_node hid]
        exact hkind
      have hnofile : ¬ (name ≠ "" ∧ ((G.image d).node id).kind = .file) := by
        rw [hdir]
        simp
      rw [edge_directory hname hdir]
      refine wp_mono (find_directory h hid hkind name) ?_ fun _ hno => hno.elim
      rintro r d' ⟨hd, hr⟩
      subst hd
      cases hlook : (G.image d').look id name with
      | none =>
        rw [hlook] at hr
        subst hr
        refine wp_pure'.mpr ⟨rfl, ?_, ?_⟩
        · rintro (hfile | ⟨k, hk, _⟩)
          · exact hnofile hfile
          · cases hk
        · rw [List.foldlM_cons, edge_directory hname hdir, hlook]
          rfl
      | some k =>
        rw [hlook] at hr
        subst hr
        refine wp_mono (ih k (h.refers id name k hdir hlook)) ?_ ?_
        · rintro r d'' ⟨hd, hno, hr⟩
          refine ⟨hd, ?_, ?_⟩
          · rintro (hfile | ⟨k', hk, hthrough⟩)
            · exact hnofile hfile
            · cases hk
              exact hno hthrough
          · rw [hr, List.foldlM_cons, edge_directory hname hdir, hlook]
            rfl
        · rintro e ⟨he, hthrough⟩
          exact ⟨he, Or.inr ⟨k, rfl, hthrough⟩⟩

/-! ### Resolution -/

variable {c : CacheState} {path : String}

/-- On the block cache, a walk that does not go on behind a regular file returns where it leads. -/
theorem findFrom_returns (h : WellFormed G c.content) (hc : Presents c [] c.content)
    (hid : id < G.slots) (hno : ¬ ThroughFile (G.image c.content) id names) :
    ∃ c', exec cacheMachine (findFrom G.fs (G.handle id) names) c =
      .ok ((names.foldlM (edge (G.image c.content)) id).map G.handle, c') := by
  obtain ⟨r, d', hrun, _, _, hr⟩ := wp_returns (wp_mono (findFrom_spec h names id hid)
    (fun _ _ hq => hq) fun _ he => hno he.2)
  obtain ⟨c', hexec, _⟩ := exec_returns hc hrun
  exact ⟨c', by rw [hexec, hr]⟩

theorem findFrom_result (h : WellFormed G c.content) (hc : Presents c [] c.content)
    (hid : id < G.slots) {r : Option Inode} {c' : CacheState}
    (hexec : exec cacheMachine (findFrom G.fs (G.handle id) names) c = .ok (r, c')) :
    ¬ ThroughFile (G.image c.content) id names ∧
      r = (names.foldlM (edge (G.image c.content)) id).map G.handle := by
  obtain ⟨d', hrun, _⟩ := exec_content hc hexec
  obtain ⟨_, hno, hr⟩ := wp_result (findFrom_spec h names id hid) hrun
  exact ⟨hno, hr⟩

/-! ### Normalised paths -/

theorem not_throughFile_of_walk (h : names.foldlM (edge m) id = some k) :
    ¬ ThroughFile m id names := by
  rintro ⟨before, name, after, file, heq, hname, hwalk, hfile⟩
  rw [heq, List.foldlM_append, hwalk, Option.bind_eq_bind, Option.bind_some, List.foldlM_cons,
    edge_file hname hfile] at h
  cases h

theorem WellFormed.walk_lt (h : WellFormed G d) : ∀ (names : List String) (id : ℕ), id < G.slots →
    names.foldlM (edge (G.image d)) id = some k → k < G.slots := by
  intro names
  induction names with
  | nil =>
    intro id hid hk
    cases hk
    exact hid
  | cons name names ih =>
    intro id hid hk
    rw [List.foldlM_cons, Option.bind_eq_bind, Option.bind_eq_some_iff] at hk
    obtain ⟨j, hj, hk⟩ := hk
    refine ih j ?_ hk
    rw [edge] at hj
    split at hj
    · cases hj
      exact hid
    split at hj
    · rename_i hdir
      exact h.refers id name j hdir hj
    · cases hj

theorem split_append (s t : String) : split (s ++ "/" ++ t) = split s ++ split t := by
  have hsep : (s ++ "/" ++ t).toList = s.toList ++ '/' :: t.toList := by
    rw [String.toList_append, String.toList_append, List.append_assoc]
    rfl
  rw [split, hsep, List.splitOn_append_cons_self, List.map_append]
  rfl

theorem not_mem_of_mem_split {s part : String} (h : part ∈ split s) : '/' ∉ part.toList := by
  obtain ⟨cs, hcs, heq⟩ := List.mem_map.mp h
  rw [← heq, String.toList_ofList]
  exact not_mem_of_mem_splitOn s.toList cs hcs

theorem not_mem_normalized {s part : String} (h : part ∈ (split s).foldl (push Skipped "..") []) :
    '/' ∉ part.toList := by
  rcases mem_foldl_push _ _ h with hno | hmem
  · exact absurd hno List.not_mem_nil
  · exact not_mem_of_mem_split hmem

theorem split_join {parts : List String} (h : ∀ part ∈ parts, '/' ∉ part.toList) :
    split ("/" ++ "/".intercalate parts) = "" :: if parts = [] then [""] else parts := by
  have hjoin : ("/" ++ "/".intercalate parts).toList =
      '/' :: ['/'].intercalate (parts.map String.toList) := by
    rw [String.toList_append, String.toList_intercalate]
    rfl
  have hparts : ∀ part ∈ parts.map String.toList, '/' ∉ part := by
    intro part hpart
    obtain ⟨s, hs, heq⟩ := List.mem_map.mp hpart
    rw [← heq]
    exact h s hs
  rw [split, hjoin, splitOn_cons_join hparts, List.map_cons]
  simp only [List.map_eq_nil_iff]
  split
  · rfl
  · rw [List.map_map]
    refine congrArg _ ?_
    rw [show String.ofList ∘ String.toList = id from funext fun s => String.ofList_toList, List.map_id]

theorem walk_split_join {parts : List String} (h : ∀ part ∈ parts, '/' ∉ part.toList) :
    (split ("/" ++ "/".intercalate parts)).foldlM (edge m) id = parts.foldlM (edge m) id := by
  rw [split_join h, List.foldlM_cons, edge_empty, Option.bind_eq_bind, Option.bind_some]
  split
  · rename_i hnil
    rw [hnil, List.foldlM_cons, edge_empty]
    rfl
  · rfl

variable {hist : History} {inodes : List Inode} {s : System} {d₀ : Disk} {cwd : String} {dir i : Inode}

theorem wellFormed (h : Planted G 0 hist d inodes) : WellFormed G d :=
  ⟨h.sound.core, h.sound.decodes, fun id c k hid hk => lt_slots_of_live (h.closed rfl id c k hid hk)⟩

theorem parented (h : Planted G 0 hist d inodes) :
    Parented (edge (G.image d)) 0 Skipped ".." := by
  have hdirectory : ∀ {n name m}, name ≠ "" → edge (G.image d) n name = some m →
      ((G.image d).node n).kind = .directory ∧ (G.image d).look n name = some m := by
    intro n name m hname hm
    rw [edge, if_neg hname] at hm
    split at hm
    · rename_i hdir
      exact ⟨hdir, hm⟩
    · cases hm
  refine ⟨?_, ?_, ?_⟩
  · intro n c m hc hm
    rcases hc with hc | hc
    · subst hc
      exact (Option.some.inj hm).symm
    · subst hc
      obtain ⟨hdir, hlook⟩ := hdirectory (by decide) hm
      obtain ⟨parent, hheads⟩ := h.tree.dots n hdir
      exact Option.some.inj (hlook.symm.trans hheads.dot)
  · intro m hm
    obtain ⟨_, hlook⟩ := hdirectory (by decide) hm
    exact Option.some.inj (hlook.symm.trans h.root.2.2.dotdot)
  · rintro n c m k ⟨hskip, hup⟩ hm hk
    have hempty : c ≠ "" := fun heq => hskip (Or.inl heq)
    have hdot : c ≠ "." := fun heq => hskip (Or.inr heq)
    obtain ⟨hdir, hlook⟩ := hdirectory hempty hm
    obtain ⟨hdir', hlook'⟩ := hdirectory (by decide) hk
    have hheads := (h.tree.child n c m hdir hdot hup hlook).2 hdir'
    exact Option.some.inj (hlook'.symm.trans hheads.dotdot)

/-- The program returns the inode. -/
def Reaches (c : CacheState) (prog : DiskProg (Option Inode)) (i : Inode) : Prop :=
  ∃ c', exec cacheMachine prog c = .ok (some i, c')

theorem reaches_iff (h : WellFormed G c.content) (hc : Presents c [] c.content) (hid : id < G.slots) :
    Reaches c (findFrom G.fs (G.handle id) names) i ↔
      ∃ k, names.foldlM (edge (G.image c.content)) id = some k ∧ i = G.handle k := by
  constructor
  · rintro ⟨c', hexec⟩
    obtain ⟨_, hr⟩ := findFrom_result h hc hid hexec
    obtain ⟨k, hk, heq⟩ := Option.map_eq_some_iff.mp hr.symm
    exact ⟨k, hk, heq.symm⟩
  · rintro ⟨k, hk, heq⟩
    obtain ⟨c', hexec⟩ := findFrom_returns h hc hid (not_throughFile_of_walk hk)
    exact ⟨c', by rw [hexec, hk, heq]; rfl⟩

/-- **Normalised paths.**  In a tree built by `create` and `create_dir` below a root with its dot entries,
if the components of a path lead from the directory of `cwd` (from the root, when the path is absolute) to
an inode, then the path that `get_full_path` makes leads to the same inode. -/
theorem find_full_path (h : Run G (Call.Grows G 0) d₀ hist s) (hne : hist ≠ [])
    (hcwd : Reaches s.cache (find s.fs cwd) dir)
    (hwalk : Reaches s.cache (findFrom s.fs (if isAbsolute path then s.fs.rootInode else dir)
      (split path)) i) :
    Reaches s.cache (find s.fs (getFullPath cwd path)) i := by
  have hp := h.planted hne
  obtain ⟨hfs, hc⟩ := h.presents
  have hw := wellFormed hp
  rw [hfs] at hcwd hwalk ⊢
  obtain ⟨j, hj, hdir⟩ := (reaches_iff hw hc (G.slots_pos)).mp hcwd
  have hjs := hw.walk_lt _ 0 (G.slots_pos) hj
  -- the components, with those of `cwd` in front of a relative path, lead from the root to the inode
  have hall : ∃ k, (split (if isAbsolute path then path else cwd ++ "/" ++ path)).foldlM
      (edge (G.image s.cache.content)) 0 = some k ∧ i = G.handle k := by
    split at hwalk
    · rename_i habs
      rw [if_pos habs]
      exact (reaches_iff hw hc (G.slots_pos)).mp hwalk
    · rename_i hrel
      rw [if_neg hrel, split_append, List.foldlM_append, hj, Option.bind_eq_bind, Option.bind_some]
      rw [hdir] at hwalk
      exact (reaches_iff hw hc hjs).mp hwalk
  obtain ⟨k, hk, hi⟩ := hall
  refine (reaches_iff hw hc (G.slots_pos)).mpr ⟨k, ?_, hi⟩
  rw [getFullPath, walk_split_join fun part => not_mem_normalized]
  exact (parented hp).walk_normalize _ [] 0 (fun _ hno => absurd hno List.not_mem_nil) rfl hk

theorem reaches_of_outcome {prog : DiskProg (Option Inode)} {d : Disk} (hc : Presents c [] d)
    (h : outcome prog d = .ok (some i)) : Reaches c prog i := by
  obtain ⟨c', hexec, _⟩ := exec_of_outcome hc h
  exact ⟨c', hexec⟩

/-- `a/..` from the root. -/
theorem find_full_path_back : ∃ hist s, Run .efsTest (Call.Grows .efsTest 0) (fun _ => Block.zero)
    hist s ∧ hist ≠ [] ∧
    Reaches s.cache (find s.fs (getFullPath "/" "a/..")) (Geometry.efsTest.handle 0) := by
  obtain ⟨s, hrun, hfs, hp⟩ := exists_child .directory
  have hrun' := hrun.mono fun _ _ _ hok => hok.1
  have hcwd : Reaches s.cache (find s.fs "/") (Geometry.efsTest.handle 0) := by
    rw [hfs]
    exact reaches_of_outcome hp (by decide +kernel)
  refine ⟨_, s, hrun', List.cons_ne_nil _ _, find_full_path hrun' (List.cons_ne_nil _ _) hcwd ?_⟩
  rw [hfs]
  exact reaches_of_outcome hp (by decide +kernel)

/-- With these sizes the sums of `create` wrap and the first data block is the block of the inodes 4 to
7: the fourth file clears the dot entries of the root, and a file can be named `..`. -/
theorem find_overlapping_areas :
    (exec cacheMachine (do
      let fs ← EasyFileSystem.create 8392705 4194303
      fs.rootInode.setDefaultDirent fs 0
      Prog.forList (fun name _ => do let _ ← fs.rootInode.create fs name) ["a", "b", "c", "d", ".."] ()
      let walked ← findFrom fs fs.rootInode (split "..")
      let found ← find fs (getFullPath "/" "..")
      pure (walked, found)) (.init fun _ => .zero)).map Prod.fst =
      .ok (some ⟨4194305, 128⟩, some ⟨4194304, 0⟩) := by
  rw [exec_blank (by decide)]
  simp only [Inode.create, Inode.createInode, EasyFileSystem.allocInode, alloc_first_block]
  decide +kernel

/-! ### Paths that go on behind a file -/

/-- **Resolution of a path** returns in every state whose directories are well formed, unless the path
goes on behind a regular file; then the assertion in `find_inode_id` fails. -/
theorem find_returns_iff (h : WellFormed G c.content) (hc : Presents c [] c.content) (path : String) :
    (∃ r c', exec cacheMachine (find G.fs path) c = .ok (r, c')) ↔
      ¬ ThroughFile (G.image c.content) 0 (split path) := by
  constructor
  · rintro ⟨r, c', hexec⟩
    exact (findFrom_result h hc (G.slots_pos) hexec).1
  · intro hno
    obtain ⟨c', hexec⟩ := findFrom_returns h hc (G.slots_pos) hno
    exact ⟨_, c', hexec⟩

/-- `/a/b` where `/a` is an empty directory. -/
theorem find_returns_iff_missing : ∃ c : CacheState, WellFormed .efsTest c.content ∧
    Presents c [] c.content ∧ (∃ r c', exec cacheMachine (find Geometry.efsTest.fs "/a/b") c = .ok (r, c')) ∧
    ¬ ThroughFile (Geometry.efsTest.image c.content) 0 (split "/a/b") := by
  obtain ⟨s, hrun, _, hp⟩ := exists_child .directory
  have hw := wellFormed ((hrun.mono fun _ _ _ hok => hok.1).planted (List.cons_ne_nil _ _))
  obtain ⟨c', hexec, _⟩ := exec_of_outcome hp
    (show outcome (find Geometry.efsTest.fs "/a/b") _ = .ok none by decide +kernel)
  exact ⟨s.cache, hw, hrun.presents.2, ⟨_, c', hexec⟩,
    (find_returns_iff hw hrun.presents.2 "/a/b").mp ⟨_, c', hexec⟩⟩

/-- `/a/b` where `/a` is a file. -/
theorem find_through_file : ∃ c : CacheState, WellFormed .efsTest c.content ∧
    Presents c [] c.content ∧
    exec cacheMachine (find Geometry.efsTest.fs "/a/b") c = .error (.panic .assertion) := by
  obtain ⟨s, hrun, _, hp⟩ := exists_child .file
  have hw := wellFormed ((hrun.mono fun _ _ _ hok => hok.1).planted (List.cons_ne_nil _ _))
  exact ⟨s.cache, hw, hrun.presents.2, exec_of_outcome_error hp (by decide +kernel)⟩

end LemonCore.Kernel.Paths
