import LemonCore.EasyFs.LongNames
import LemonCore.Kernel.FileCalls

/-!
# What `open_file` leaves of the directories (`kernel/src/fs/inode.rs`)

`open_file` empties the inode that it opens in two places.  With `CREATE` it does so only for a regular file;
without it, `TRUNC` alone decides.

* `Navigable`: the directories can be searched, and what they list is allocated;
* `Extends`: no entry of a directory has gone, so that every walk leads where it did (`Extends.walk`);
* `EmptiesDirectory`: the flags and the path for which a directory is emptied;
* `open_file_preserves_iff`: in all other cases, and only in those, the entries and the paths are kept.
-/

namespace LemonCore.Kernel.OpenFiles

open EasyFs Descriptors Paths Foundation.BorrowProgram

variable {G : Geometry} {m m' : Image} {d d' : Disk} {n k id dir new : ℕ} {path name c : String}
  {flags : OpenFlags} {kind : DiskInodeKind}

/-! ### Directories with more entries -/

/-- The directories have the entries that they had, and maybe more behind them. -/
def Extends (m m' : Image) : Prop := ∀ id, m.live id = true → (m.node id).kind = .directory →
  (m'.node id).kind = .directory ∧ entries (m.node id).data <+: entries (m'.node id).data

theorem Extends.refl (m : Image) : Extends m m := fun _ _ hdir => ⟨hdir, List.prefix_rfl⟩

theorem Extends.edge (h : Extends m m') (hlive : m.live id = true) (hk : edge m id c = some k) :
    edge m' id c = some k := by
  by_cases hc : c = ""
  · subst hc
    exact hk
  by_cases hdir : (m.node id).kind = .directory
  · obtain ⟨hdir', es, hes⟩ := h id hlive hdir
    rw [edge_directory hc hdir, Image.look] at hk
    rw [edge_directory hc hdir', Image.look, ← hes, lookup_append, hk, Option.some_or]
  · rw [Paths.edge, if_neg hc, if_neg hdir] at hk
    cases hk

/-- What the allocated directories list is allocated. -/
def Listing (m : Image) : Prop := ∀ id c k, m.live id = true → (m.node id).kind = .directory →
  m.look id c = some k → m.live k = true

theorem Listing.edge (h : Listing m) (hlive : m.live id = true) (hk : edge m id c = some k) :
    m.live k = true := by
  rw [Paths.edge] at hk
  split at hk
  · cases hk
    exact hlive
  split at hk
  · rename_i hdir
    exact h id c k hlive hdir hk
  · cases hk

/-- **Walks are kept**, and they stay among the allocated nodes. -/
theorem Extends.walk (h : Extends m m') (hl : Listing m) (names : List String) :
    ∀ id, m.live id = true → names.foldlM (Paths.edge m) id = some k →
      m.live k = true ∧ names.foldlM (Paths.edge m') id = some k := by
  induction names with
  | nil =>
    intro id hlive hk
    cases hk
    exact ⟨hlive, rfl⟩
  | cons c names ih =>
    intro id hlive hk
    rw [List.foldlM_cons, Option.bind_eq_bind, Option.bind_eq_some_iff] at hk
    obtain ⟨j, hj, hk⟩ := hk
    rw [List.foldlM_cons, h.edge hlive hj]
    exact ih j (hl.edge hlive hj) hk

theorem entries_clear (m : Image) (n : ℕ) : entries ((m.clear n).node n).data = [] := by
  rw [Image.clear, Image.setData, Image.node_setNode_same]
  exact entries_nil

/-- A node that is no directory with entries is emptied. -/
theorem Extends.clear (hn : (m.node n).kind = .directory → entries (m.node n).data = []) :
    Extends m (m.clear n) := by
  intro id _ hdir
  by_cases hid : id = n
  · subst hid
    rw [hn hdir]
    refine ⟨?_, List.nil_prefix⟩
    rw [Image.clear, Image.setData, Image.node_setNode_same]
    exact hdir
  · rw [Image.clear, Image.setData, Image.node_setNode_other _ hid]
    exact ⟨hdir, List.prefix_rfl⟩

theorem Extends.listed (h : m.Listed m' dir new name kind) : Extends m m' := by
  intro id hlive hdir
  by_cases hid : id = dir
  · subst hid
    rw [h.entries_dir]
    exact ⟨h.kind_dir, List.prefix_append _ _⟩
  · rw [h.other id hid (ne_of_live hlive h.fresh)]
    exact ⟨hdir, List.prefix_rfl⟩

/-! ### The calls -/

/-- The directories can be searched, and from the root on they list allocated inodes. -/
structure Navigable (G : Geometry) (d : Disk) : Prop extends WellFormed G d where
  root : (G.image d).live 0 = true
  listing : Listing (G.image d)

theorem Navigable.live (h : Navigable G d) (hn : Leads G d path n) : (G.image d).live n = true :=
  ((Extends.refl _).walk h.listing _ 0 h.root hn).1

theorem find_leads (h : WellFormed G d) (path : String) :
    dwp (Paths.find G.fs path) [] d (fun r d' => d' = d ∧
      r = ((split path).foldlM (edge (G.image d)) 0).map G.handle)
      fun _ => ThroughFile (G.image d) 0 (split path) :=
  wp_mono (findFrom_spec h (split path) 0 G.slots_pos) (fun _ _ hfound => ⟨hfound.1, hfound.2.2⟩)
    fun _ he => he.2

theorem find_finds (h : WellFormed G d) (hn : Leads G d path n) :
    drun (Paths.find G.fs path) [] d = .ok (some (G.handle n), d) := by
  obtain ⟨r, d', hrun, rfl, hr⟩ := wp_returns (wp_mono (find_leads h path) (fun _ _ hq => hq)
    fun _ he => not_throughFile_of_walk hn he)
  rw [show (split path).foldlM (edge (G.image d')) 0 = some n from hn] at hr
  subst hr
  exact hrun

theorem clear_image (h : WellFormed G d) (hn : n < G.slots) :
    dwp ((G.handle n).clear G.fs) [] d
      (fun _ d' => WellFormed G d' ∧ G.image d' = (G.image d).clear n) fun _ => False := by
  refine wp_mono (clear_op h.core hn) ?_ fun _ he => he
  rintro _ d' ⟨hst, _, hkind, hsize⟩
  have himage := hst.image_clear h.core hn hkind hsize
  refine ⟨⟨hst.core, by rw [himage]; exact h.decodes.clear, ?_⟩, himage⟩
  intro id c k hdir hk
  rw [himage] at hdir hk
  by_cases hid : id = n
  · rw [hid, Image.look, entries_clear] at hk
    cases hk
  · rw [Image.clear, Image.setData, Image.node_setNode_other _ hid] at hdir
    rw [Image.look, Image.clear, Image.setData, Image.node_setNode_other _ hid] at hk
    exact h.refers id c k hdir hk

theorem create_extends (h : WellFormed G d) (hlive : (G.image d).live dir = true) (name : String) :
    dwp ((G.handle dir).create G.fs name) [] d
      (fun _ d' => WellFormed G d' ∧ Extends (G.image d) (G.image d')) fun _ => True := by
  have hdir := lt_slots_of_live hlive
  have hlive' : G.live d dir = true := (image_live hdir).symm.trans hlive
  refine wp_mono (createInode_op h.core hdir hlive' name .file) ?_ fun _ _ => trivial
  rintro r d' ⟨hkind, hcases⟩
  rcases hcases with ⟨_, _, rfl⟩ | ⟨hnone, new, _, hc⟩
  · exact ⟨h, .refl _⟩
  have hlisted := hc.listed ⟨h.core, h.decodes, hdir, hlive', hkind⟩
  have hg : (G.image d).Grown (G.image d') dir new name .file := by
    refine ⟨hlisted, by rw [image_node hdir]; exact hnone, hc.fits, ?_, fun hno => by cases hno⟩
    exact ⟨Nat.lt_of_lt_of_le hdir G.slots_le, Nat.lt_of_lt_of_le hc.lt G.slots_le⟩
  refine ⟨⟨hc.core, by rw [hc.image]; exact h.decodes.createInode hc.fits, ?_⟩, .listed hlisted⟩
  intro id c k hid hk
  rcases hg.look_cases hid hk with ⟨hid, hk⟩ | ⟨_, hn⟩ | ⟨_, hno, _⟩
  · exact h.refers id c k hid hk
  · exact lt_of_eq_of_lt hn hc.lt
  · cases hno

theorem clearWhen_extends (h : WellFormed G d) (hn : n < G.slots) (p : Prop) [Decidable p] (o : Opened)
    (hp : p → (G.node d n).kind = .directory → entries (G.node d n).data = []) :
    dwp (if p then do
        let _ ← (G.handle n).clear G.fs
        pure (some o)
      else pure (some o)) [] d
      (fun _ d' => WellFormed G d' ∧ Extends (G.image d) (G.image d')) fun _ => False := by
  split
  · rename_i hyes
    refine wp_bind'.mpr (wp_mono (clear_image h hn) ?_ fun _ he => he)
    rintro _ d' ⟨hw, himage⟩
    refine wp_pure'.mpr ⟨hw, ?_⟩
    rw [himage]
    refine .clear ?_
    rw [image_node hn]
    exact hp hyes
  · exact wp_pure'.mpr ⟨h, .refl _⟩

/-! ### Opening -/

/-- `open_file` finds a directory with entries, and empties it. -/
structure EmptiesDirectory (G : Geometry) (d : Disk) (path : String) (flags : OpenFlags) (n : ℕ) :
    Prop where
  create : flags.contains .create = false
  trunc : flags.contains .trunc = true
  leads : Leads G d path n
  directory : (G.node d n).kind = .directory
  entries : entries (G.node d n).data ≠ []

theorem openFile_extends (h : Navigable G d) (hno : ∀ n, ¬ EmptiesDirectory G d path flags n) :
    dwp (openFile G.fs path flags) [] d
      (fun _ d' => WellFormed G d' ∧ Extends (G.image d) (G.image d')) fun _ => True := by
  have hfind : ∀ path, dwp (Paths.find G.fs path) [] d (fun r d' => d' = d ∧ ∀ i, r = some i →
      ∃ n, i = G.handle n ∧ Leads G d path n) fun _ => True := by
    intro path
    refine wp_mono (find_leads h.toWellFormed path) ?_ fun _ _ => trivial
    rintro r d' ⟨hd, hr⟩
    refine ⟨hd, fun i hi => ?_⟩
    obtain ⟨n, hn, heq⟩ := Option.map_eq_some_iff.mp (hr.symm.trans hi)
    exact ⟨n, heq.symm, hn⟩
  rw [openFile]
  split
  · refine wp_bind'.mpr (wp_mono (hfind path) ?_ fun _ he => he)
    rintro r d₁ ⟨hd, hr⟩
    subst hd
    cases r with
    | some i =>
      obtain ⟨n, hi, hleads⟩ := hr i rfl
      subst hi
      have hn := lt_slots_of_live (h.live hleads)
      refine wp_bind'.mpr (wp_readSlot (wp_pure'.mpr ?_))
      refine wp_mono (clearWhen_extends h.toWellFormed hn _ _ ?_) (fun _ _ hq => hq) fun _ _ => trivial
      -- with `CREATE` only a regular file is emptied
      intro hfile hdir
      rw [DiskInode.isFile, show (G.slot d₁ n).kind = .directory from hdir] at hfile
      exact absurd hfile (by decide)
    | none =>
      obtain ⟨parent, target⟩ := (rsplitOnce path).getD ("", path)
      refine wp_bind'.mpr (wp_mono (hfind parent) ?_ fun _ he => he)
      rintro r d₁ ⟨hd, hr⟩
      subst hd
      cases r with
      | none => exact wp_pure'.mpr ⟨h.toWellFormed, .refl _⟩
      | some i =>
        obtain ⟨n, hi, hleads⟩ := hr i rfl
        subst hi
        refine wp_bind'.mpr (wp_mono (create_extends h.toWellFormed (h.live hleads) target) ?_ fun _ he => he)
        exact fun _ d' hq => wp_pure'.mpr hq
  · rename_i hcreate
    refine wp_bind'.mpr (wp_mono (hfind path) ?_ fun _ he => he)
    rintro r d₁ ⟨hd, hr⟩
    subst hd
    cases r with
    | none => exact wp_pure'.mpr ⟨h.toWellFormed, .refl _⟩
    | some i =>
      obtain ⟨n, hi, hleads⟩ := hr i rfl
      subst hi
      have hn := lt_slots_of_live (h.live hleads)
      refine wp_mono (clearWhen_extends h.toWellFormed hn _ _ ?_) (fun _ _ hq => hq) fun _ _ => trivial
      -- without it `TRUNC` decides
      intro htrunc hdir
      by_contra hentries
      exact hno n ⟨Bool.eq_false_iff.mpr hcreate, htrunc, hleads, hdir, hentries⟩

theorem openFile_empties (h : WellFormed G d) (hn : n < G.slots)
    (he : EmptiesDirectory G d path flags n) :
    dwp (openFile G.fs path flags) [] d
      (fun _ d' => WellFormed G d' ∧ G.image d' = (G.image d).clear n) fun _ => False := by
  rw [openFile, if_neg (by rw [he.create]; decide)]
  refine wp_bind'.mpr (wp_mono (find_leads h path) ?_ fun _ => not_throughFile_of_walk he.leads)
  rintro r d₁ ⟨hd, hr⟩
  subst hd
  rw [show (split path).foldlM (edge (G.image d₁)) 0 = some n from he.leads] at hr
  subst hr
  show dwp (if flags.contains .trunc = true then _ else _) [] d₁ _ _
  rw [if_pos he.trunc]
  refine wp_bind'.mpr (wp_mono (clear_image h hn) ?_ fun _ hno => hno)
  exact fun _ d' hq => wp_pure'.mpr hq

/-- The directories as the programs see them: every entry is still there, and what a path resolved to, it
resolves to. -/
structure Preserved (G : Geometry) (d d' : Disk) : Prop where
  entries : ∀ id, (G.image d).live id = true → (G.node d id).kind = .directory →
    (G.node d' id).kind = .directory ∧ entries (G.node d id).data <+: entries (G.node d' id).data
  paths : ∀ path i, drun (Paths.find G.fs path) [] d = .ok (some i, d) →
    drun (Paths.find G.fs path) [] d' = .ok (some i, d')

theorem Preserved.of_extends (h : Navigable G d) (hw : WellFormed G d')
    (hext : Extends (G.image d) (G.image d')) : Preserved G d d' := by
  constructor
  · intro id hlive hdir
    have hid := lt_slots_of_live hlive
    have hkept := hext id hlive
    rw [image_node hid, image_node hid] at hkept
    exact hkept hdir
  · intro path i hrun
    obtain ⟨_, hr⟩ := wp_result (find_leads h.toWellFormed path) hrun
    obtain ⟨n, hn, hi⟩ := Option.map_eq_some_iff.mp hr.symm
    subst hi
    exact find_finds hw (hext.walk h.listing _ 0 h.root hn).2

/-- **When `open_file` preserves the directories**: unless it is called without `CREATE` and with `TRUNC` on a
directory that has entries. -/
theorem open_file_preserves_iff (h : Navigable G d) (path : String) (flags : OpenFlags) :
    (∀ r d', drun (openFile G.fs path flags) [] d = .ok (r, d') → Preserved G d d') ↔
      ¬ ∃ n, EmptiesDirectory G d path flags n := by
  constructor
  · rintro hall ⟨n, he⟩
    have hlive := h.live he.leads
    have hn := lt_slots_of_live hlive
    obtain ⟨r, d', hrun, _, himage⟩ := wp_returns (openFile_empties h.toWellFormed hn he)
    have hkept := ((hall r d' hrun).entries n hlive he.directory).2
    rw [← image_node (d := d') hn, himage, entries_clear] at hkept
    exact he.entries (List.prefix_nil.mp hkept)
  · intro hno r d' hrun
    obtain ⟨hw, hext⟩ := wp_result (openFile_extends h fun n he => hno ⟨n, he⟩) hrun
    exact .of_extends h hw hext

theorem Planted.navigable {hist : EasyFs.History} {inodes : List Inode}
    (h : Planted G 0 hist d inodes) : Navigable G d := by
  obtain ⟨id, hid, heq, hlive⟩ := h.sound.known _ h.root.1
  cases Geometry.handle_inj heq
  exact ⟨wellFormed h, (image_live hid).trans hlive, fun id c k _ => h.closed rfl id c k⟩

/-- The root with one file, opened with `TRUNC`: the file is no longer found. -/
theorem open_root_trunc_loses_file : ∃ (d d' : Disk) (r : Option Opened) (i : Inode),
    Navigable .efsTest d ∧ drun (openFile Geometry.efsTest.fs "/" .trunc) [] d = .ok (r, d') ∧
      drun (Paths.find Geometry.efsTest.fs "/a") [] d = .ok (some i, d) ∧
      drun (Paths.find Geometry.efsTest.fs "/a") [] d' = .ok (none, d') := by
  obtain ⟨s, hrun, _, hp⟩ := exists_child .file
  have hplanted := (hrun.mono fun _ _ _ hok => hok.1).planted (List.cons_ne_nil _ _)
  rw [hp.content_eq] at hplanted
  have hnav := Planted.navigable hplanted
  have hopen := drun_of_outcome (show outcome (openFile Geometry.efsTest.fs "/" .trunc)
    (diskAfter .efsTest (childHist .file)) = .ok (some ⟨true, false, Geometry.efsTest.handle 0⟩) by
      decide +kernel)
  have he : EmptiesDirectory .efsTest (diskAfter .efsTest (childHist .file)) "/" .trunc 0 :=
    ⟨by decide, by decide, rfl, by decide +kernel, by decide +kernel⟩
  obtain ⟨hw, _⟩ := wp_result (openFile_empties hnav.toWellFormed (Geometry.slots_pos _) he) hopen
  have hfind := drun_of_outcome (show outcome (Paths.find Geometry.efsTest.fs "/a")
    (leave (openFile Geometry.efsTest.fs "/" .trunc) (diskAfter .efsTest (childHist .file))) = .ok none by
      decide +kernel)
  obtain ⟨hsame, _⟩ := wp_result (find_leads hw "/a") hfind
  rw [hsame] at hfind
  exact ⟨_, _, _, _, hnav, hopen,
    find_finds (n := 1) hnav.toWellFormed (by unfold Leads; decide +kernel), hfind⟩

/-- A file that is opened with `TRUNC` is cleared, and all entries are there. -/
theorem open_file_preserves_trunc : ∃ d, Navigable .efsTest d ∧ Leads .efsTest d "/a" 1 ∧ ∀ r d',
    drun (openFile Geometry.efsTest.fs "/a" .trunc) [] d = .ok (r, d') → Preserved .efsTest d d' := by
  obtain ⟨s, hrun, _, hp⟩ := exists_child .file
  have hplanted := (hrun.mono fun _ _ _ hok => hok.1).planted (List.cons_ne_nil _ _)
  rw [hp.content_eq] at hplanted
  have hnav := Planted.navigable hplanted
  have hleads : Leads .efsTest (diskAfter .efsTest (childHist .file)) "/a" 1 := by
    unfold Leads
    decide +kernel
  refine ⟨_, hnav, hleads, (open_file_preserves_iff hnav "/a" .trunc).mpr ?_⟩
  rintro ⟨n, he⟩
  cases hleads.symm.trans he.leads
  exact absurd he.directory (by decide +kernel)

end LemonCore.Kernel.OpenFiles
