import LemonCore.Kernel.FileCalls

/-!
# Open files and unlinked inodes (`kernel/src/syscall/fs.rs`, `kernel/src/fs/inode.rs`)

An `OSInode` keeps the position of a disk inode.  `sys_unlink` frees the inode without looking for open
files, and the number of a free inode is taken for the next file that is created.

* `Step`: any number of processes open, read, write, unlink and create files, and close and copy their
  descriptors.  A task that waits for the device keeps the file system locked, so each call is one step; a
  call that panics is no step;
* `System.file`: which file a handle refers to: the inode number, and a generation that counts how often
  the number has been allocated;
* `open_file_keeps_file`: as long as no file is unlinked while it is open, an open file refers to the file
  that it was opened for;
* `stale_handle_reads_other_file`: otherwise it can come to refer to another one.

Left out: what is copied to user memory; and `fork`, which creates the files of the child in `/proc`, and
the end of a process, which deletes them.  The processes are there when a run starts.
-/

namespace LemonCore.Kernel.OpenFiles

open EasyFs Descriptors Paths Foundation.BorrowProgram Foundation.SlotTable
open EasyFs.Geometry (efsTest)

variable {G : Geometry} {d d' : Disk} {n : ℕ} {path : String}

/-! ### The system -/

/-- The processes with their tables of open files, the block cache, and the offset of each `OSInode`.  Two
ghosts tell files apart: an inode number is allocated for one file after the other, and `generation` counts
them; `origin` is the file that an `OSInode` was opened for. -/
structure System where
  cache : CacheState
  table : Descriptors.System
  offset : ℕ → ℕ
  generation : ℕ → ℕ
  origin : ℕ → ℕ × ℕ

/-- The logical content of the disk. -/
abbrev System.disk (s : System) : Disk := s.cache.content

/-- The file that a handle refers to at the moment: the inode number, and which of its files it is. -/
def System.file (G : Geometry) (s : System) (inode : Inode) : ℕ × ℕ :=
  (inode.inodeId G.fs, s.generation (inode.inodeId G.fs))

/-- The file system has been left as in `c`; inode numbers that are allocated now and were not before have
a new file. -/
def System.turn (G : Geometry) (s : System) (c : CacheState) : System :=
  { s with
    cache := c
    generation := fun n =>
      if (G.image s.disk).live n = false ∧ (G.image c.content).live n = true then s.generation n + 1
      else s.generation n }

/-- An `OSInode` for the handle has been made and entered into a table. -/
def System.enter (G : Geometry) (s : System) (inode : Inode) (table : Descriptors.System) : System :=
  { s with
    table := table
    offset := Function.update s.offset s.table.nextFile 0
    origin := Function.update s.origin s.table.nextFile (s.file G inode) }

inductive Action where
  | open (p : ℕ) (path : String) (bits : ℕ)
  | read (p fd : ℕ) (slices : List (List UInt8))
  | write (p fd : ℕ) (slices : List (List UInt8))
  | unlink (p : ℕ) (path : String) (flags : ℕ)
  | mkdir (p : ℕ) (path : String)
  | table (call : Descriptors.Call)
  deriving DecidableEq, Repr

inductive Result where
  | code (n : ℤ)
  | bytes (n : ℕ) (slices : List (List UInt8))
  | table (reply : Descriptors.Reply)
  deriving DecidableEq, Repr

/-- The path that a call is about; `translated_str` ends it at its first NUL. -/
structure FullPath (s : System) (p : ℕ) (path full : String) : Prop where
  resolved : ∃ proc, s.table.procs p = some proc ∧ full = getFullPath proc.cwd path
  nulFree : Char.ofNat 0 ∉ full.toList

/-- The calls that change the table of the caller and nothing else. -/
def TableCall : Descriptors.Call → Prop
  | .open .. | .fork _ => False
  | .dup .. | .dup2 .. | .close .. | .pipe _ => True

/-- One call of process `p`. -/
inductive Step (G : Geometry) (heap : ℕ) : System → Action → Result → System → Prop
  | openOk {s p path full bits flags opened c proc t fd} : FullPath s p path full →
      s.table.procs p = some proc → OpenFlags.fromBits bits = some flags →
      exec cacheMachine (openFile G.fs full flags) s.cache = .ok (some opened, c) →
      install heap proc.fdTable (.osInode s.table.nextFile opened) = some (t, fd) →
      Step G heap s (.open p path bits) (.code fd)
        ((s.turn G c).enter G opened.inode (s.table.put p proc t 1))
  | openFail {s p path full bits flags c} : FullPath s p path full →
      OpenFlags.fromBits bits = some flags →
      exec cacheMachine (openFile G.fs full flags) s.cache = .ok (none, c) →
      Step G heap s (.open p path bits) (.code (-1)) (s.turn G c)
  | read {s p proc fd slices id opened total offset slices' c} : s.table.procs p = some proc →
      sysRead proc.fdTable fd = .forward (.osInode id opened) →
      exec cacheMachine (readSlices opened.inode (s.offset id) slices) s.cache =
        .ok ((total, offset, slices'), c) →
      Step G heap s (.read p fd slices) (.bytes total slices')
        { s.turn G c with offset := Function.update s.offset id offset }
  | write {s p proc fd slices id opened total offset c} : s.table.procs p = some proc →
      sysWrite proc.fdTable fd = .forward (.osInode id opened) →
      exec cacheMachine (writeSlices G.fs opened.inode (s.offset id) slices) s.cache =
        .ok ((total, offset), c) →
      Step G heap s (.write p fd slices) (.code total)
        { s.turn G c with offset := Function.update s.offset id offset }
  | unlink {s p path full flags code c} : FullPath s p path full →
      exec cacheMachine (sysUnlink G.fs full flags) s.cache = .ok (code, c) →
      Step G heap s (.unlink p path flags) (.code code) (s.turn G c)
  | mkdir {s p path full code c} : FullPath s p path full →
      exec cacheMachine (sysMkdir G.fs full) s.cache = .ok (code, c) →
      Step G heap s (.mkdir p path) (.code code) (s.turn G c)
  | table {s call reply t} : TableCall call → Descriptors.Step G.fs heap s.cache s.table call reply t →
      Step G heap s (.table call) (.table reply) { s with table := t }

/-- The calls of a run and what they returned, the latest first. -/
abbrev History : Type := List (Action × Result)

/-- The runs from a state.  `ok` says which call may come next. -/
inductive Run (G : Geometry) (heap : ℕ) (ok : System → Action → Prop) (s₀ : System) :
    History → System → Prop
  | init : Run G heap ok s₀ [] s₀
  | step {hist s action result s'} : Run G heap ok s₀ hist s → ok s action →
      Step G heap s action result s' → Run G heap ok s₀ ((action, result) :: hist) s'

/-- A system that starts: the file system is in order, and no file is open. -/
structure Started (G : Geometry) (s : System) : Prop where
  presents : Presents s.cache [] s.disk
  orderly : Orderly G s.disk
  closed : ∀ id opened, ¬ s.table.Holds (.osInode id opened)

/-- The calls that are made: no unlinked file is open, and its entry is one that `delete` removes; buffers
to write are not empty, and no file gets larger than `INDIRECT3_BOUND` blocks. -/
def Careful (G : Geometry) (s : System) : Action → Prop
  | .unlink p path _ => ∀ full, FullPath s p path full → ∀ dir target k,
      Unlinks G s.disk full dir target k → target ≠ "" ∧
        (entries (G.node s.disk dir).data).length ≤ 433 ∧
        ∀ id opened, s.table.Holds (.osInode id opened) → opened.inode ≠ G.handle k
  | .write p fd slices => (∀ slice ∈ slices, slice ≠ []) ∧ ∀ proc id opened,
      s.table.procs p = some proc → sysWrite proc.fdTable fd = .forward (.osInode id opened) →
        s.offset id + slices.flatten.length ≤ maxFileSize
  | _ => True

/-! ### The invariant -/

variable {s s' s₀ : System} {heap : ℕ} {action : Action} {result : Result} {hist : History}

/-- The system after the kernel has started. -/
def System.boot (c : CacheState) : System where
  cache := c
  table := .initial
  offset := fun _ => 0
  generation := fun _ => 0
  origin := fun _ => (0, 0)

variable {c : CacheState} {fd p : ℕ} {full : String} {file : File} {proc : Process}

theorem System.started_boot (hp : Presents c [] c.content) (ho : Orderly G c.content) :
    Started G (.boot c) := by
  refine ⟨hp, ho, ?_⟩
  rintro id opened ⟨p, proc, fd, hproc, hfd⟩
  have hp0 : (if p = 0 then some (⟨"/", [some .stdin, some .stdout, some .stdout]⟩ : Process) else none) =
    some proc := hproc
  split at hp0
  · cases hp0
    rcases fd with _ | _ | _ | fd <;> cases hfd
  · cases hp0

/-- Every open file refers to the file that it was opened for, which is allocated. -/
structure Faithful (G : Geometry) (s : System) : Prop where
  presents : Presents s.cache [] s.disk
  orderly : Orderly G s.disk
  held : ∀ id opened, s.table.Holds (.osInode id opened) → id < s.table.nextFile ∧
    ∃ n, opened.inode = G.handle n ∧ (G.image s.disk).live n = true ∧ s.file G opened.inode = s.origin id

theorem Started.faithful (h : Started G s) : Faithful G s :=
  ⟨h.presents, h.orderly, fun id opened hh => absurd hh (h.closed id opened)⟩

theorem generation_turn (h : (G.image s.disk).live n = true) :
    (s.turn G c).generation n = s.generation n := by
  rw [System.turn]
  exact if_neg fun hno => absurd (h.symm.trans hno.1) (by simp)

/-- **A turn of the file system** that frees no inode of an open file. -/
theorem Faithful.turn (h : Faithful G s) (hp : Presents c [] c.content)
    (ho : Orderly G c.content)
    (hlive : ∀ n, (G.image s.disk).live n = true →
      (∃ id opened, s.table.Holds (.osInode id opened) ∧ opened.inode = G.handle n) →
      (G.image c.content).live n = true) : Faithful G (s.turn G c) := by
  refine ⟨hp, ho, fun id opened hh => ?_⟩
  obtain ⟨hid, n, hn, hl, hfile⟩ := h.held id opened hh
  refine ⟨hid, n, hn, hlive n hl ⟨id, opened, hh, hn⟩, ?_⟩
  have hgen : (s.turn G c).generation n = s.generation n := generation_turn hl
  rw [System.file, hn, Geometry.inodeId_handle] at hfile ⊢
  rw [hgen]
  exact hfile

/-- A new `OSInode` is faithful. -/
theorem Faithful.enter {inode : Inode} {table : Descriptors.System} (h : Faithful G s)
    (hinode : inode = G.handle n) (hlive : (G.image s.disk).live n = true)
    (hnext : s.table.nextFile < table.nextFile)
    (hholds : ∀ id opened, table.Holds (.osInode id opened) →
      s.table.Holds (.osInode id opened) ∨ id = s.table.nextFile ∧ opened.inode = inode) :
    Faithful G (s.enter G inode table) := by
  refine ⟨h.presents, h.orderly, fun id opened hh => ?_⟩
  rcases hholds id opened hh with hold | ⟨hid, hopened⟩
  · obtain ⟨hid, n, hn, hl, hfile⟩ := h.held id opened hold
    refine ⟨Nat.lt_trans hid hnext, n, hn, hl, ?_⟩
    show s.file G opened.inode = Function.update s.origin s.table.nextFile _ id
    rw [Function.update_of_ne (Nat.ne_of_lt hid), hfile]
  · subst hid
    refine ⟨hnext, n, hopened.trans hinode, hlive, ?_⟩
    show s.file G opened.inode = Function.update s.origin s.table.nextFile (s.file G inode) s.table.nextFile
    rw [Function.update_self, hopened]

theorem Faithful.congr {table : Descriptors.System} (h : Faithful G s) (offset : ℕ → ℕ)
    (hnext : s.table.nextFile ≤ table.nextFile)
    (hholds : ∀ id opened, table.Holds (.osInode id opened) → s.table.Holds (.osInode id opened)) :
    Faithful G { s with table := table, offset := offset } := by
  refine ⟨h.presents, h.orderly, fun id opened hh => ?_⟩
  obtain ⟨hid, hfile⟩ := h.held id opened (hholds id opened hh)
  exact ⟨Nat.lt_of_lt_of_le hid hnext, hfile⟩

theorem result_of_exec {α : Type} {p : DiskProg α} {a : α} {Q : α → Disk → Prop}
    {E : Fault Panic → Prop} (hp : Presents s.cache [] s.disk) (hspec : dwp p [] s.disk Q E)
    (hexec : exec cacheMachine p s.cache = .ok (a, c)) : Presents c [] c.content ∧ Q a c.content := by
  obtain ⟨d', hrun, hp'⟩ := exec_content hp hexec
  rw [hp'.content_eq]
  exact ⟨hp', wp_result hspec hrun⟩

theorem Faithful.kept (h : Faithful G s) (hp : Presents c [] c.content)
    (hk : Kept G s.disk c.content) : Faithful G (s.turn G c) :=
  h.turn hp hk.orderly fun n hl _ => hk.live n hl

theorem FullPath.clean {path : String} (h : FullPath s p path full) : Clean (split full) := by
  obtain ⟨proc, _, hfull⟩ := h.resolved
  rw [hfull]
  exact clean_getFullPath _ _

theorem slotAt_of_forward {t : FdTable} {check : File → Bool}
    (h : (if t.length ≤ fd then Reply.code (-1)
      else
        match t[fd]?.join with
        | some file => if check file then .forward file else .code (-1)
        | none => .code (-1)) = .forward file) : slotAt t fd = some file := by
  split at h
  · cases h
  split at h
  · rename_i file' hfile
    split at h
    · cases h
      exact hfile
    · cases h
  · cases h

theorem holds_of_sysRead (hp : s.table.procs p = some proc)
    (h : sysRead proc.fdTable fd = .forward file) : s.table.Holds file :=
  ⟨p, proc, fd, hp, slotAt_of_forward h⟩

theorem holds_of_sysWrite (hp : s.table.procs p = some proc)
    (h : sysWrite proc.fdTable fd = .forward file) : s.table.Holds file :=
  ⟨p, proc, fd, hp, slotAt_of_forward h⟩

/-- **Every careful call keeps the open files faithful.** -/
theorem Faithful.step (h : Faithful G s) (hok : Careful G s action)
    (hstep : Step G heap s action result s') : Faithful G s' := by
  cases hstep with
  | @openOk p path full bits flags opened c proc t fd hfull hproc _ hexec hinstall =>
    obtain ⟨hp, hkept, hnew⟩ := result_of_exec h.presents
      (openFile_keeps h.orderly hfull.clean hfull.nulFree flags) hexec
    obtain ⟨n, hn, hl⟩ := hnew opened rfl
    refine (h.kept hp hkept).enter hn hl (Nat.lt_succ_self _) ?_
    intro id opened' hh
    rcases holds_of_update hh (install_spec hinstall).2 fun fd hfd => ⟨p, proc, fd, hproc, hfd⟩ with
      hold | hnew
    · exact Or.inl hold
    · cases hnew
      exact Or.inr ⟨rfl, rfl⟩
  | openFail hfull _ hexec =>
    obtain ⟨hp, hkept, _⟩ := result_of_exec h.presents
      (openFile_keeps h.orderly hfull.clean hfull.nulFree _) hexec
    exact h.kept hp hkept
  | @read p proc fd slices id opened total offset slices' c hproc hread hexec =>
    obtain ⟨_, n, hn, hl, _⟩ := h.held id opened (holds_of_sysRead hproc hread)
    rw [hn] at hexec
    obtain ⟨hp, hd, _⟩ := result_of_exec h.presents
      (readSlices_spec h.orderly.kempt.sound.core (lt_slots_of_live hl) slices (s.offset id)) hexec
    have hkept : Kept G s.disk c.content := by
      rw [hd]
      exact .refl h.orderly
    exact (h.kept hp hkept).congr _ (Nat.le_refl _) fun _ _ hh => hh
  | @write p proc fd slices id opened total offset c hproc hwrite hexec =>
    obtain ⟨_, n, hn, hl, _⟩ := h.held id opened (holds_of_sysWrite hproc hwrite)
    obtain ⟨hne, hmax⟩ := hok
    rw [hn] at hexec
    obtain ⟨hp, hw⟩ := result_of_exec h.presents (writeSlices_wroteOnly slices (s.offset id) s.disk
      h.orderly hl hne (hmax proc id opened hproc hwrite)) hexec
    exact (h.kept hp hw.toKept).congr _ (Nat.le_refl _) fun _ _ hh => hh
  | @unlink p path full flags code c hfull hexec =>
    have hcare := hok full hfull
    obtain ⟨hp, hcases⟩ := result_of_exec h.presents (sysUnlink_frees h.orderly hfull.clean flags
      fun dir target k hu => ⟨(hcare dir target k hu).1, (hcare dir target k hu).2.1⟩) hexec
    rcases hcases with hkept | ⟨dir, target, k, hu, hfreed⟩
    · exact h.kept hp hkept
    · refine h.turn hp hfreed.orderly ?_
      rintro n hl ⟨id, opened, hh, hn⟩
      refine hfreed.live n ?_ hl
      intro heq
      rw [heq] at hn
      exact (hcare dir target k hu).2.2 id opened hh hn
  | mkdir hfull hexec =>
    obtain ⟨hp, hkept⟩ := result_of_exec h.presents
      (sysMkdir_keeps h.orderly hfull.clean hfull.nulFree) hexec
    exact h.kept hp hkept
  | @table call reply t hno hcall =>
    refine h.congr s.offset ?_ ?_
    · cases hcall with
      | openFail => exact Nat.le_refl _
      | _ => exact Nat.le_add_right _ _
    · intro id opened hh
      rcases hcall.holds hh with hold | ⟨p, path, bits, _, _, _, _, hopen, _⟩
      · exact hold
      · subst hopen
        exact hno.elim

theorem Run.faithful (h : Run G heap (Careful G) s₀ hist s) (h₀ : Started G s₀) : Faithful G s := by
  induction h with
  | init => exact h₀.faithful
  | step _ hok hstep ih => exact ih.step hok hstep

/-- **Open files keep their file.**  In a run in which no file is unlinked while it is open, an open file
refers to the file that it was opened for.  A read through it returns bytes of this file and changes
nothing, and a write through it changes no other node. -/
theorem open_file_keeps_file (h : Run G heap (Careful G) s₀ hist s) (h₀ : Started G s₀) {id : ℕ}
    {opened : Opened} (hh : s.table.Holds (.osInode id opened)) :
    ∃ n, opened.inode = G.handle n ∧ (G.image s.disk).live n = true ∧
      s.file G opened.inode = s.origin id ∧
      (∀ p proc fd slices total slices' s', s.table.procs p = some proc →
        sysRead proc.fdTable fd = .forward (.osInode id opened) →
        Step G heap s (.read p fd slices) (.bytes total slices') s' →
        s'.disk = s.disk ∧
          ∃ offset, (total, offset, slices') = sliceBytes (G.node s.disk n).data (s.offset id) slices) ∧
      ∀ p proc fd slices result s', s.table.procs p = some proc →
        sysWrite proc.fdTable fd = .forward (.osInode id opened) → Careful G s (.write p fd slices) →
        Step G heap s (.write p fd slices) result s' →
        ∀ j, j ≠ n → (G.image s'.disk).node j = (G.image s.disk).node j := by
  have hf := h.faithful h₀
  obtain ⟨_, n, hn, hl, hfile⟩ := hf.held id opened hh
  refine ⟨n, hn, hl, hfile, ?_, ?_⟩
  · intro p proc fd slices total slices' s' hproc hread hstep
    cases hstep with
    | @read _ proc' _ _ id' opened' _ offset _ c hproc' hread' hexec =>
      rw [hproc] at hproc'
      cases hproc'
      rw [hread] at hread'
      cases hread'
      rw [hn] at hexec
      obtain ⟨_, hd, hr⟩ := result_of_exec hf.presents
        (readSlices_spec hf.orderly.kempt.sound.core (lt_slots_of_live hl) slices (s.offset id)) hexec
      exact ⟨hd, offset, hr⟩
  · rintro p proc fd slices result s' hproc hwrite ⟨hne, hmax⟩ hstep
    cases hstep with
    | @write _ proc' _ _ id' opened' _ offset c hproc' hwrite' hexec =>
      rw [hproc] at hproc'
      cases hproc'
      rw [hwrite] at hwrite'
      cases hwrite'
      rw [hn] at hexec
      obtain ⟨_, hw⟩ := result_of_exec hf.presents (writeSlices_wroteOnly slices (s.offset id) s.disk
        hf.orderly hl hne (hmax proc id opened hproc hwrite)) hexec
      exact hw.node

/-! ### A handle that outlives its file -/

theorem fullPath_of_root (hp : s.table.procs p = some proc)
    (hcwd : proc.cwd = "/") (hfull : full = getFullPath "/" path) (hnul : Char.ofNat 0 ∉ full.toList) :
    FullPath s p path full :=
  ⟨⟨proc, hp, by rw [hcwd]; exact hfull⟩, hnul⟩

/-- What the calls of a run find on the disk: `/a` is created and unlinked; then `/b` is created, which
gets the same inode number, and a byte is written into it. -/
structure Reused (G : Geometry) (c₀ c₁ c₂ c₃ c₄ c₅ : CacheState) : Prop where
  booted : Presents c₀ [] c₀.content ∧ Orderly G c₀.content
  opened : exec cacheMachine (openFile G.fs "/a" ⟨514⟩) c₀ = .ok (some ⟨true, true, G.handle 1⟩, c₁)
  unlinked : exec cacheMachine (sysUnlink G.fs "/a" 0) c₁ = .ok (0, c₂)
  reopened : exec cacheMachine (openFile G.fs "/b" ⟨514⟩) c₂ = .ok (some ⟨true, true, G.handle 1⟩, c₃)
  written : exec cacheMachine (writeSlices G.fs (G.handle 1) 0 [[7]]) c₃ = .ok ((1, 1), c₄)
  read : exec cacheMachine (readSlices (G.handle 1) 0 [[0]]) c₄ = .ok ((1, 1, [[7]]), c₅)
  live : (G.image c₀.content).live 1 = false ∧ (G.image c₁.content).live 1 = true ∧
    (G.image c₂.content).live 1 = false ∧ (G.image c₃.content).live 1 = true

/-- A new file system whose root has its dot entries. -/
def rootDisk : Disk :=
  leave ((Call.setDefaultDirent (efsTest.handle 0) 0).prog efsTest.fs) (newDisk 4096 1)

theorem orderly_rootDisk : Orderly .efsTest rootDisk := by
  have hformat := formatted_newDisk .efsTest
  have hout : outcome ((Call.setDefaultDirent (efsTest.handle 0) 0).prog efsTest.fs)
      (newDisk 4096 1) = .ok .unit := by decide +kernel
  have hlive : (efsTest.image (newDisk 4096 1)).live 0 = true := by decide +kernel
  exact hformat.orderly.setDefaultDirent hlive (by decide +kernel) (Geometry.slots_pos _)
    (drun_of_outcome hout)

/-- The disk after each of the calls. -/
def createdDisk : Disk := leave (openFile efsTest.fs "/a" ⟨514⟩) rootDisk

def unlinkedDisk : Disk := leave (sysUnlink efsTest.fs "/a" 0) createdDisk

def reusedDisk : Disk := leave (openFile efsTest.fs "/b" ⟨514⟩) unlinkedDisk

def writtenDisk : Disk :=
  leave (writeSlices efsTest.fs (efsTest.handle 1) 0 [[7]]) reusedDisk

theorem reused_outcomes :
    outcome (openFile efsTest.fs "/a" ⟨514⟩) rootDisk =
      .ok (some ⟨true, true, efsTest.handle 1⟩) ∧
    outcome (sysUnlink efsTest.fs "/a" 0) createdDisk = .ok 0 ∧
    outcome (openFile efsTest.fs "/b" ⟨514⟩) unlinkedDisk =
      .ok (some ⟨true, true, efsTest.handle 1⟩) ∧
    outcome (writeSlices efsTest.fs (efsTest.handle 1) 0 [[7]]) reusedDisk = .ok (1, 1) ∧
    outcome (readSlices (efsTest.handle 1) 0 [[0]]) writtenDisk = .ok (1, 1, [[7]]) ∧
    (efsTest.image rootDisk).live 1 = false ∧ (efsTest.image createdDisk).live 1 = true ∧
    (efsTest.image unlinkedDisk).live 1 = false ∧ (efsTest.image reusedDisk).live 1 = true := by
  decide +kernel

theorem exists_reused : ∃ c₀ c₁ c₂ c₃ c₄ c₅, Reused .efsTest c₀ c₁ c₂ c₃ c₄ c₅ := by
  obtain ⟨hopen, hunlink, hreopen, hwrite, hread, hlive⟩ := reused_outcomes
  have hp₀ := presents_init rootDisk
  obtain ⟨c₁, hexec₁, hp₁⟩ := exec_of_outcome hp₀ hopen
  obtain ⟨c₂, hexec₂, hp₂⟩ := exec_of_outcome hp₁ hunlink
  obtain ⟨c₃, hexec₃, hp₃⟩ := exec_of_outcome hp₂ hreopen
  obtain ⟨c₄, hexec₄, hp₄⟩ := exec_of_outcome hp₃ hwrite
  obtain ⟨c₅, hexec₅, _⟩ := exec_of_outcome hp₄ hread
  refine ⟨_, c₁, c₂, c₃, c₄, c₅, ?_, hexec₁, hexec₂, hexec₃, hexec₄, hexec₅, ?_⟩
  · rw [hp₀.content_eq]
    exact ⟨hp₀, orderly_rootDisk⟩
  · rw [hp₀.content_eq, hp₁.content_eq, hp₂.content_eq, hp₃.content_eq]
    exact hlive

/-- The table of the first process with `/a` open, and with `/b` open as well. -/
def tableA (inode : Inode) : FdTable :=
  [some .stdin, some .stdout, some .stdout, some (.osInode 0 ⟨true, true, inode⟩)]

def tableB (inode : Inode) : FdTable := tableA inode ++ [some (.osInode 1 ⟨true, true, inode⟩)]

theorem generation_turn_new (h : (G.image s.disk).live n = false)
    (h' : (G.image c.content).live n = true) : (s.turn G c).generation n = s.generation n + 1 := by
  rw [System.turn]
  exact if_pos ⟨h, h'⟩

theorem generation_turn_freed (h' : (G.image c.content).live n = false) :
    (s.turn G c).generation n = s.generation n := by
  rw [System.turn]
  exact if_neg fun hno => absurd (h'.symm.trans hno.2) (by simp)

theorem file_handle (s : System) (n : ℕ) : s.file G (G.handle n) = (n, s.generation n) := by
  rw [System.file, Geometry.inodeId_handle]

theorem open_step {t t' : FdTable}
    (hproc : s.table.procs 0 = some ⟨"/", t⟩) (hfull : full = getFullPath "/" path)
    (hnul : Char.ofNat 0 ∉ full.toList)
    (hexec : exec cacheMachine (openFile G.fs full ⟨514⟩) s.cache =
      .ok (some ⟨true, true, G.handle n⟩, c))
    (hinstall : install 16 t (.osInode s.table.nextFile ⟨true, true, G.handle n⟩) = some (t', fd)) :
    ∃ s', Step G 16 s (.open 0 path 514) (.code fd) s' ∧ s'.cache = c ∧
      s'.table.procs 0 = some ⟨"/", t'⟩ ∧ s'.table.nextFile = s.table.nextFile + 1 ∧
      s'.generation = (s.turn G c).generation ∧
      s'.offset = Function.update s.offset s.table.nextFile 0 ∧
      s'.origin = Function.update s.origin s.table.nextFile (n, (s.turn G c).generation n) := by
  have hstep := Step.openOk (fullPath_of_root hproc rfl hfull hnul) hproc
    (show OpenFlags.fromBits 514 = some ⟨514⟩ from rfl) hexec hinstall
  refine ⟨_, hstep, rfl, ?_, rfl, rfl, rfl, ?_⟩
  · show Function.update s.table.procs 0 (some ⟨"/", t'⟩) 0 = _
    rw [Function.update_self]
  · show Function.update s.origin s.table.nextFile ((s.turn G c).file G (G.handle n)) = _
    rw [file_handle]

/-- The handle of `/a` reads what has been written to `/b`. -/
theorem Reused.stale {c₀ c₁ c₂ c₃ c₄ c₅ : CacheState} (h : Reused G c₀ c₁ c₂ c₃ c₄ c₅) :
    ∃ s s' proc opened,
    Run G 16 (fun _ _ => True) (.boot c₀) [(.write 0 4 [[7]], .code 1), (.open 0 "/b" 514, .code 4),
      (.unlink 0 "/a" 0, .code 0), (.open 0 "/a" 514, .code 3)] s ∧
    s.table.procs 0 = some proc ∧ slotAt proc.fdTable 3 = some (.osInode 0 opened) ∧
    slotAt proc.fdTable 4 = some (.osInode 1 opened) ∧ s.origin 0 = (1, 1) ∧ s.origin 1 = (1, 2) ∧
    Step G 16 s (.read 0 3 [[0]]) (.bytes 1 [[7]]) s' := by
  obtain ⟨hlive₀, hlive₁, hlive₂, hlive₃⟩ := h.live
  obtain ⟨s₁, step₁, hc₁, hproc₁, hnext₁, hgen₁, hoff₁, horigin₁⟩ := open_step
    (show (System.boot c₀).table.procs 0 = some ⟨"/", [some .stdin, some .stdout, some .stdout]⟩ from rfl)
    (show "/a" = getFullPath "/" "/a" by decide) (by decide) h.opened
    (show _ = some (tableA (G.handle 1), 3) from rfl)
  have hone : s₁.generation 1 = 1 := by
    rw [hgen₁]
    exact generation_turn_new hlive₀ hlive₁
  have step₂ : Step G 16 s₁ (.unlink 0 "/a" 0) (.code 0) (s₁.turn G c₂) :=
    .unlink (fullPath_of_root hproc₁ rfl (show "/a" = getFullPath "/" "/a" by decide) (by decide))
      (by rw [hc₁]; exact h.unlinked)
  have hone₂ : (s₁.turn G c₂).generation 1 = 1 := by
    rw [generation_turn_freed hlive₂, hone]
  have hnext : (s₁.turn G c₂).table.nextFile = 1 := hnext₁
  obtain ⟨s₃, step₃, hc₃, hproc₃, hnext₃, hgen₃, hoff₃, horigin₃⟩ := open_step
    (show (s₁.turn G c₂).table.procs 0 = some ⟨"/", tableA (G.handle 1)⟩ from hproc₁)
    (show "/b" = getFullPath "/" "/b" by decide) (by decide) h.reopened
    (show _ = some (tableB (G.handle 1), 4) by rw [hnext]; rfl)
  have htwo : ((s₁.turn G c₂).turn G c₃).generation 1 = 2 := by
    have hlive : (G.image (s₁.turn G c₂).disk).live 1 = false := hlive₂
    rw [generation_turn_new hlive hlive₃, hone₂]
  rw [hnext, htwo] at horigin₃
  rw [hnext] at hoff₃
  have hoffA : s₃.offset 0 = 0 := by
    rw [hoff₃, Function.update_of_ne (by decide)]
    show s₁.offset 0 = 0
    rw [hoff₁]
    rfl
  have hoffB : s₃.offset 1 = 0 := by
    rw [hoff₃, Function.update_self]
  have step₄ : Step G 16 s₃ (.write 0 4 [[7]]) (.code 1) _ :=
    .write hproc₃ (show _ = Descriptors.Reply.forward (.osInode 1 ⟨true, true, G.handle 1⟩) from rfl)
      (by rw [hoffB, hc₃]; exact h.written)
  have hoff₄ : Function.update s₃.offset 1 1 0 = 0 := by
    rw [Function.update_of_ne (by decide), hoffA]
  have step₅ : Step G 16 { s₃.turn G c₄ with offset := Function.update s₃.offset 1 1 } (.read 0 3 [[0]])
      (.bytes 1 [[7]]) _ :=
    .read hproc₃ (show _ = Descriptors.Reply.forward (.osInode 0 ⟨true, true, G.handle 1⟩) from rfl)
      (show exec cacheMachine (readSlices (G.handle 1) (Function.update s₃.offset 1 1 0) [[0]]) c₄ = _ by
        rw [hoff₄]
        exact h.read)
  refine ⟨_, _, ⟨"/", tableB (G.handle 1)⟩, ⟨true, true, G.handle 1⟩,
    .step (.step (.step (.step .init trivial step₁) trivial step₂) trivial step₃) trivial step₄,
    hproc₃, rfl, rfl, ?_, ?_, step₅⟩
  · show s₃.origin 0 = (1, 1)
    rw [horigin₃, Function.update_of_ne (by decide)]
    show s₁.origin 0 = (1, 1)
    rw [horigin₁, ← hgen₁, hone]
    rfl
  · show s₃.origin 1 = (1, 2)
    rw [horigin₃, Function.update_self]

/-- **A handle reads another file.**  `/a` is opened as descriptor 3 and unlinked; then `/b` is created and
opened as descriptor 4, and the byte 7 is written through it.  The two are different files, which had
inode number 1 one after the other, and reading descriptor 3 returns the 7. -/
theorem stale_handle_reads_other_file : ∃ s₀ s s' proc opened,
    Started .efsTest s₀ ∧
    Run .efsTest 16 (fun _ _ => True) s₀ [(.write 0 4 [[7]], .code 1), (.open 0 "/b" 514, .code 4),
      (.unlink 0 "/a" 0, .code 0), (.open 0 "/a" 514, .code 3)] s ∧
    s.table.procs 0 = some proc ∧ slotAt proc.fdTable 3 = some (.osInode 0 opened) ∧
    slotAt proc.fdTable 4 = some (.osInode 1 opened) ∧ s.origin 0 = (1, 1) ∧ s.origin 1 = (1, 2) ∧
    Step .efsTest 16 s (.read 0 3 [[0]]) (.bytes 1 [[7]]) s' := by
  obtain ⟨c₀, c₁, c₂, c₃, c₄, c₅, h⟩ := exists_reused
  obtain ⟨s, s', proc, opened, hrest⟩ := h.stale
  exact ⟨.boot c₀, s, s', proc, opened, System.started_boot h.booted.1 h.booted.2, hrest⟩

/-- The first process opens `/a`. -/
theorem open_file_keeps_file_first : ∃ s₀ hist s opened, Started .efsTest s₀ ∧
    Run .efsTest 16 (Careful .efsTest) s₀ hist s ∧ s.table.Holds (.osInode 0 opened) ∧
    s.file .efsTest opened.inode = s.origin 0 := by
  obtain ⟨c₀, c₁, c₂, c₃, c₄, c₅, h⟩ := exists_reused
  obtain ⟨s₁, step₁, _, hproc₁, _⟩ := open_step
    (show (System.boot c₀).table.procs 0 = some ⟨"/", [some .stdin, some .stdout, some .stdout]⟩ from rfl)
    (show "/a" = getFullPath "/" "/a" by decide) (by decide) h.opened
    (show _ = some (tableA (efsTest.handle 1), 3) from rfl)
  have hcareful : Careful .efsTest (.boot c₀) (.open 0 "/a" 514) := trivial
  have hrun : Run .efsTest 16 (Careful .efsTest) (.boot c₀) _ s₁ := .step .init hcareful step₁
  have hstarted : Started .efsTest (.boot c₀) := System.started_boot h.booted.1 h.booted.2
  have hh : s₁.table.Holds (.osInode 0 ⟨true, true, efsTest.handle 1⟩) :=
    ⟨0, _, 3, hproc₁, rfl⟩
  obtain ⟨n, _, _, hfile, _⟩ := open_file_keeps_file hrun hstarted hh
  exact ⟨_, _, s₁, _, hstarted, hrun, hh, hfile⟩

end LemonCore.Kernel.OpenFiles
