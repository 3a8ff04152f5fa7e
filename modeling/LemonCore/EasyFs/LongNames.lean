import LemonCore.EasyFs.DirectoryTree

/-!
# Names that do not fit an entry

A directory entry has 28 bytes for the name.  `create_inode` encodes the name at its last step, after it has
taken an inode number and has made the directory larger, and a name that does not fit is a panic there.

* `CreatesOrRefuses`: what a caller may expect of a creation;
* `creates_or_refuses_iff`: it holds exactly for the names that are there already and those that fit, as long
  as the directory can get larger.
-/

namespace LemonCore.EasyFs

open Foundation.BorrowProgram

variable {G : Geometry} {d d' : Disk} {dir new : ℕ} {name : String} {kind : DiskInodeKind}

/-- The creation returns a node that is found under the name, or returns nothing and changes nothing. -/
def CreatesOrRefuses (G : Geometry) (d : Disk) (dir : ℕ) (name : String) (kind : DiskInodeKind) : Prop :=
  ∃ r d', drun ((G.handle dir).createInode G.fs name kind) [] d = .ok (r, d') ∧
    ((r ≠ none ∧ drun ((G.handle dir).find G.fs name) [] d' = .ok (r, d')) ∨ (r = none ∧ d' = d))

/-- Inode `dir` is a directory of a file system in order. -/
structure InOrder (G : Geometry) (d : Disk) (dir : ℕ) : Prop where
  core : Core G (G.slot d) d
  decodes : (G.image d).Decodes
  lt : dir < G.slots
  live : G.live d dir = true
  directory : (G.node d dir).kind = .directory

/-- There are an inode and the blocks for one more entry. -/
structure Available (G : Geometry) (d : Disk) (dir : ℕ) : Prop where
  inode : ∃ j, j < G.slots ∧ G.live d j = false
  blocks : G.Room d dir (G.slot d dir).appended

theorem InOrder.entries_decode (h : InOrder G d dir) : ∀ e ∈ entries (G.node d dir).data, e.name?.isSome := by
  have hdec := (h.decodes dir (by rw [image_node h.lt]; exact h.directory)).2
  rwa [image_node h.lt] at hdec

theorem Created.listed (h : Created G d d' dir new name kind) (ho : InOrder G d dir) :
    (G.image d).Listed (G.image d') dir new name kind := by
  rw [h.image]
  exact Image.listed_createInode ho.decodes ((image_live ho.lt).trans ho.live)
    (by rw [image_node ho.lt]; exact ho.directory) ((image_live h.lt).trans h.fresh) name kind

/-- **A created node is found.** -/
theorem Created.found (h : Created G d d' dir new name kind) (ho : InOrder G d dir)
    (hnone : lookup name (entries (G.node d dir).data) = none) (hnul : Char.ofNat 0 ∉ name.toList) :
    drun ((G.handle dir).find G.fs name) [] d' = .ok (some (G.handle new), d') := by
  have hlisted := h.listed ho
  have hentries := hlisted.entries_dir
  have hkind := hlisted.kind_dir
  rw [image_node ho.lt, image_node ho.lt] at hentries
  rw [image_node ho.lt] at hkind
  have hlook : lookup name (entries (G.node d' dir).data) = some new := by
    rw [hentries, lookup_append, hnone, Option.none_or,
      lookup_make h.fits (Nat.lt_of_lt_of_le h.lt G.slots_le), if_pos (cutNul_of_nulFree hnul)]
  have hdec : ∀ e ∈ entries (G.node d' dir).data, e.name?.isSome := by
    rw [hentries]
    intro e he
    rcases List.mem_append.mp he with he | he
    · exact ho.entries_decode e he
    · rw [List.mem_singleton.mp he]
      exact isSome_make h.fits new
  have hwp := wp_mono (find_op (h.core.inodeOk ho.lt (aside_slot ho.lt)) name) (fun _ _ hr => hr)
    fun _ hno => hno ⟨hkind, hdec⟩
  obtain ⟨r, d₁, hrun, hd, -, hr⟩ := wp_returns hwp
  rw [hlook] at hr
  subst hd hr
  exact hrun

/-- A directory that has got an entry was not as large as a file can be. -/
theorem Created.small (h : Created G d d' dir new name kind) (ho : InOrder G d dir) :
    (G.slot d dir).appended ≤ maxFileSize := by
  have hentries := congrArg List.length (h.listed ho).entries_dir
  rw [image_node ho.lt, image_node ho.lt, List.length_append, length_entries, length_entries] at hentries
  have hold : (G.node d dir).data.length = (G.slot d dir).size := length_data
  have hnew : (G.node d' dir).data.length = (G.slot d' dir).size := length_data
  have hsize := size_le_of_leafCount (h.core.top dir ho.lt)
  rw [hold, hnew] at hentries
  rw [DiskInode.appended, direntSize]
  simp only [List.length_singleton] at hentries
  omega

/-- **Which names `create_inode` can deal with.** -/
theorem creates_or_refuses_iff (ho : InOrder G d dir) (hav : Available G d dir)
    (hnul : Char.ofNat 0 ∉ name.toList) (kind : DiskInodeKind) :
    CreatesOrRefuses G d dir name kind ↔
      lookup name (entries (G.node d dir).data) ≠ none ∨
        ((strBytes name).length ≤ nameLengthLimit + 1 ∧ (G.slot d dir).appended ≤ maxFileSize) := by
  have hop := createInode_op ho.core ho.lt ho.live name kind
  constructor
  · rintro ⟨r, d', hrun, -⟩
    obtain ⟨-, hcases⟩ := wp_result hop hrun
    rcases hcases with ⟨hsome, -, -⟩ | ⟨-, new, -, hc⟩
    · exact Or.inl hsome
    · exact Or.inr ⟨hc.fits, hc.small ho⟩
  · intro hcond
    have hok : CreateOk G d dir name := by
      refine ⟨ho.directory, ho.entries_decode, fun hnone => ⟨?_, hav.inode⟩⟩
      obtain ⟨hfits, hsmall⟩ := hcond.resolve_left fun hno => hno hnone
      exact ⟨hfits, hsmall, hav.blocks⟩
    obtain ⟨r, d', hrun, -, hcases⟩ := wp_returns (wp_mono hop (fun _ _ h => h) fun _ hno => hno hok)
    refine ⟨r, d', hrun, ?_⟩
    rcases hcases with ⟨-, hr, hd⟩ | ⟨hnone, new, hr, hc⟩
    · exact Or.inr ⟨hr, hd⟩
    · subst hr
      exact Or.inl ⟨Option.some_ne_none _, hc.found ho hnone hnul⟩

/-! ### The panic -/

theorem lookup_long (hlong : nameLengthLimit + 1 < (strBytes name).length) (es : List DirEntry) :
    lookup name es = none := by
  rw [lookup, Option.map_eq_none_iff, List.find?_eq_none]
  intro e _ he
  have hbytes := DirEntry.name?_eq_some.mp (of_decide_eq_true he)
  have hle : e.nameBytes.length ≤ e.name.length := (List.takeWhile_sublist _).length_le
  rw [hbytes, e.name_length] at hle
  omega

/-- **A name that does not fit** is a panic in `DirEntry::new`, with the inode taken and the directory
grown. -/
theorem createInode_long (ho : InOrder G d dir) (hav : Available G d dir)
    (hsmall : (G.slot d dir).appended ≤ maxFileSize)
    (hlong : nameLengthLimit + 1 < (strBytes name).length) (kind : DiskInodeKind) :
    drun ((G.handle dir).createInode G.fs name kind) [] d = .error (.panic .index) := by
  refine wp_faults ?_
  have hok := ho.core.inodeOk ho.lt (aside_slot ho.lt)
  have hdir : (G.slot d dir).isDir = true := by
    rw [DiskInode.isDir, show (G.slot d dir).kind = .directory from ho.directory]
    rfl
  have hread : dwp ((G.handle dir).readDiskInode fun dir => do
      Prog.assert dir.isDir Panic.assertion
      findInodeId name dir) [] d (fun r d' => d' = d ∧ r = none) fun e => e = .panic .index := by
    refine wp_readSlot (wp_bind'.mpr (wp_assert hdir ?_))
    refine wp_mono (findInodeId_spec hok (aside_slot ho.lt).bitmapFree.room name) ?_ ?_
    · rintro r d' ⟨hd, -, hr⟩
      exact ⟨hd, by rw [hr, lookup_long hlong]⟩
    · exact fun _ hno => absurd ⟨ho.directory, ho.entries_decode⟩ hno
  rw [Inode.createInode]
  refine wp_bind'.mpr (wp_mono hread ?_ fun _ h => h)
  rintro _ d₀ ⟨rfl, rfl⟩
  rw [if_neg (by decide)]
  refine wp_bind'.mpr (wp_mono (allocInode_spec (fun _ _ => List.not_mem_nil) (by decide)) ?_ ?_)
  swap
  · intro _ hall
    obtain ⟨j, hj, hjl⟩ := hav.inode
    rw [hall j hj] at hjl
    cases hjl
  rintro new d₁ ⟨hnew, hfresh, _, hm⟩
  refine wp_bind'.mpr (wp_mono (emptySlot_spec (hm.core ho.core) hnew) ?_ fun _ h => h.elim)
  intro _ d₂ he
  have hne : dir ≠ new := by
    intro heq
    have hlive := ho.live
    rw [heq, hfresh] at hlive
    cases hlive
  have hslot : G.slot d₂ dir = G.slot d₀ dir := by
    rw [he.stepped.same dir ho.lt hne, hm.slot_eq ho.lt]
  have hfree : G.free d₂ = G.free d₀ := by
    rw [Geometry.free_congr fun c hc => he.frame c hc.not_inArea, hm.free_eq]
  have hroom : G.Room d₂ dir (G.slot d₂ dir).appended := by
    rw [Geometry.Room, hslot, hfree]
    exact hav.blocks
  have hmod : (G.slot d₂ dir).appended % 2 ^ 32 = (G.slot d₂ dir).appended := by
    rw [hslot]
    exact Nat.mod_eq_of_lt (lt_of_le_of_lt hsmall maxFileSize_lt)
  refine wp_bind'.mpr (wp_stepSlot ho.lt ?_)
  rw [Inode.appendDirent]
  refine wp_bind'.mpr ?_
  show dwp (G.fs.increaseSize ((G.slot d₂ dir).appended % 2 ^ 32) _) _ _ _ _
  rw [hmod]
  refine wp_mono (grow_spec he.stepped.core ho.lt (aside_slot ho.lt) (by rw [hslot]; exact hsmall)) ?_
    fun _ hno => absurd hroom hno
  intro ino₁ d₃ _
  refine wp_bind'.mpr ?_
  rw [DirEntry.new, dif_neg (Nat.not_le.mpr hlong)]
  exact wp_panic.mpr rfl

/-! ### Names on a new file system -/

theorem Formatted.inOrder (h : Formatted G d) : InOrder G d 0 := by
  have hlive : (G.image d).live 0 = true := by rw [h.image]; rfl
  have h0 := lt_slots_of_live hlive
  refine ⟨h.core, h.sound.decodes, h0, (image_live h0).symm.trans hlive, ?_⟩
  rw [← image_node h0, h.image]
  rfl

theorem Formatted.available (h : Formatted G d) (hspace : G.dataStart < G.total) :
    Available G d 0 ∧ (G.slot d 0).appended ≤ maxFileSize := by
  have hok := h.createOk (show (strBytes "a").length ≤ nameLengthLimit + 1 by decide) hspace
  have hnone : lookup "a" (entries (G.node d 0).data) = none := by
    rw [← image_node h.inOrder.lt, h.image]
    rfl
  obtain ⟨happend, hfree⟩ := hok.append hnone
  exact ⟨⟨hfree, happend.room⟩, happend.small⟩

theorem exists_formatted : ∃ d, Formatted .efsTest d ∧ Available .efsTest d 0 ∧
    (Geometry.efsTest.slot d 0).appended ≤ maxFileSize := by
  obtain ⟨s, -, hformat, -⟩ := exists_init .efsTest (fun _ _ _ => True) fun _ => Block.zero
  exact ⟨_, hformat, hformat.available (by decide)⟩

/-- A file with a name of 29 letters. -/
theorem long_name_panics : ∃ d, Formatted .efsTest d ∧ Available .efsTest d 0 ∧
    drun ((Geometry.efsTest.handle 0).createInode Geometry.efsTest.fs "abcdefghijklmnopqrstuvwxyzabc" .file)
      [] d =
      .error (.panic .index) := by
  obtain ⟨d, hformat, hav, hsmall⟩ := exists_formatted
  exact ⟨d, hformat, hav, createInode_long hformat.inOrder hav hsmall (by decide) .file⟩

theorem creates_or_refuses_short : ∃ d, InOrder .efsTest d 0 ∧ Available .efsTest d 0 ∧
    CreatesOrRefuses .efsTest d 0 "abc" .file := by
  obtain ⟨d, hformat, hav, hsmall⟩ := exists_formatted
  refine ⟨d, hformat.inOrder, hav, ?_⟩
  exact (creates_or_refuses_iff hformat.inOrder hav (by decide) .file).mpr (Or.inr ⟨by decide, hsmall⟩)

end LemonCore.EasyFs
