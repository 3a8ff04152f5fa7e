import LemonCore.Kernel.Paths
import LemonCore.Foundation.SlotTable

/-!
# File descriptors (`kernel/src/syscall/fs.rs`, `kernel/src/fs/mod.rs`, `kernel/src/task/pcb.rs`)

Each process has a table of open files, a growable vector with holes.  `open`, `dup`, `dup2`, `close` and
`pipe` work on the table of the caller, and `fork` copies it.

* `Step`: what the calls do.  Other calls change the file system in between, so that `open` may find it in
  any state; a call that panics is no step;
* `Returns`: when a call returns;
* `MapStep`: what the calls are to do to the partial map from descriptors to open files;
* `fd_table_refines`: a call returns and the tables refine the maps exactly if `Returns` holds and the call is
  no `dup2` from a closed descriptor inside the table;
* `access_modes`: descriptors carry the requested access mode as long as no `open` asks for `WRONLY` alone.

The kernel heap bounds the length of a table; `heap` is the bound.  Left out: what is written to user memory,
and the files in `/proc`.
-/

namespace LemonCore.Kernel.Descriptors

open EasyFs Foundation.BorrowProgram Foundation.SlotTable

/-! ### Opening a file -/

/-- `OpenFlags`. -/
structure OpenFlags where
  bits : ℕ
  deriving DecidableEq, Repr

namespace OpenFlags

def rdonly : OpenFlags := ⟨0⟩
def wronly : OpenFlags := ⟨1⟩
def rdwr : OpenFlags := ⟨1 <<< 1⟩
def create : OpenFlags := ⟨1 <<< 9⟩
def trunc : OpenFlags := ⟨1 <<< 10⟩

/-- All flags there are. -/
def all : ℕ := rdonly.bits ||| wronly.bits ||| rdwr.bits ||| create.bits ||| trunc.bits

/-- `OpenFlags::from_bits`. -/
def fromBits (bits : ℕ) : Option OpenFlags := if bits ||| all = all then some ⟨bits⟩ else none

def contains (flags other : OpenFlags) : Bool := flags.bits &&& other.bits = other.bits

end OpenFlags

/-- `path.rsplit_once('/')`. -/
def rsplitOnce (path : String) : Option (String × String) :=
  let cs := path.toList.reverse
  match cs.dropWhile (· ≠ '/') with
  | [] => none
  | _ :: parent => some (.ofList parent.reverse, .ofList (cs.takeWhile (· ≠ '/')).reverse)

/-- What `open_file` makes an `OSInode` of. -/
structure Opened where
  readable : Bool
  writable : Bool
  inode : Inode
  deriving DecidableEq, Repr

/-- `open_file`. -/
def openFile (fs : EasyFileSystem) (path : String) (flags : OpenFlags) : DiskProg (Option Opened) :=
  let readable := flags.contains .rdonly || flags.contains .rdwr
  let writable := flags.contains .wronly || flags.contains .rdwr
  if flags.contains .create then do
    match ← Paths.find fs path with
    | some inode => do
      if ← inode.isFile then inode.clear fs
      pure (some ⟨readable, writable, inode⟩)
    | none => do
      let (parentPath, target) := (rsplitOnce path).getD ("", path)
      match ← Paths.find fs parentPath with
      | none => pure none
      | some parentInode => do
        let inode ← parentInode.create fs target
        pure (inode.map fun inode => ⟨readable, writable, inode⟩)
  else do
    match ← Paths.find fs path with
    | none => pure none
    | some inode => do
      if flags.contains .trunc then inode.clear fs
      pure (some ⟨readable, writable, inode⟩)

/-! ### Tables -/

/-- An open file (`Arc<dyn File>`).  `id` tells apart files that were opened one after the other. -/
inductive File where
  | stdin
  | stdout
  | osInode (id : ℕ) (opened : Opened)
  | pipeRead (id : ℕ)
  | pipeWrite (id : ℕ)
  deriving DecidableEq, Repr

def File.isReadable : File → Bool
  | .stdin | .pipeRead _ => true
  | .stdout | .pipeWrite _ => false
  | .osInode _ opened => opened.readable

def File.isWritable : File → Bool
  | .stdin | .pipeRead _ => false
  | .stdout | .pipeWrite _ => true
  | .osInode _ opened => opened.writable

abbrev FdTable : Type := List (Option File)

/-- `fd_table.resize(n, None)`, on a heap with room for `heap` entries. -/
def resize (heap : ℕ) (t : FdTable) (n : ℕ) : Option FdTable :=
  if n ≤ t.length then some (t.take n)
  else if n ≤ heap then some (t ++ List.replicate (n - t.length) none) else none

/-- `alloc_fd`. -/
def allocFd (heap : ℕ) (t : FdTable) : Option (FdTable × ℕ) :=
  if (alloc t).1.length ≤ max heap t.length then some (alloc t) else none

/-- What a call returns: a number, the two descriptors that `sys_pipe` stores, or what the method of the
file returns to which `sys_read` and `sys_write` pass the buffer. -/
inductive Reply where
  | code (n : ℤ)
  | pipe (readFd writeFd : ℕ)
  | forward (file : File)
  deriving DecidableEq, Repr

/-- A new open file for the lowest free descriptor. -/
def install (heap : ℕ) (t : FdTable) (file : File) : Option (FdTable × ℕ) := do
  let (t, fd) ← allocFd heap t
  pure (t.set fd (some file), fd)

def sysDup (heap : ℕ) (t : FdTable) (fd : ℕ) : Option (Reply × FdTable) :=
  match t[fd]? with
  | some (some file) => do
    let (t, newFd) ← install heap t file
    pure (.code newFd, t)
  | _ => some (.code (-1), t)

def sysDup2 (heap : ℕ) (t : FdTable) (oldFd newFd : ℕ) : Option (Reply × FdTable) :=
  if t.length ≤ oldFd then some (.code (-1), t)
  else
    (if t.length ≤ newFd then resize heap t ((newFd + 1) % 2 ^ 64) else some t).bind fun t =>
      match t[oldFd]? with
      | none => none
      | some file => if newFd < t.length then some (.code 0, t.set newFd file) else none

def sysClose (t : FdTable) (fd : ℕ) : Reply × FdTable :=
  if t.length ≤ fd then (.code (-1), t)
  else
    match t[fd]?.join with
    | some _ => (.code 0, t.set fd none)
    | none => (.code (-1), t.set fd none)

/-- `sys_pipe`, with the two ends that `pipe::make` makes. -/
def sysPipe (heap : ℕ) (t : FdTable) (pipeRead pipeWrite : File) : Option (Reply × FdTable) := do
  let (t, readFd) ← install heap t pipeRead
  let (t, writeFd) ← install heap t pipeWrite
  pure (.pipe readFd writeFd, t)

/-- The checks of `sys_read`. -/
def sysRead (t : FdTable) (fd : ℕ) : Reply :=
  if t.length ≤ fd then .code (-1)
  else
    match t[fd]?.join with
    | some file => if file.isReadable then .forward file else .code (-1)
    | none => .code (-1)

/-- The checks of `sys_write`. -/
def sysWrite (t : FdTable) (fd : ℕ) : Reply :=
  if t.length ≤ fd then .code (-1)
  else
    match t[fd]?.join with
    | some file => if file.isWritable then .forward file else .code (-1)
    | none => .code (-1)

/-! ### The system -/

structure Process where
  cwd : String
  fdTable : FdTable

structure System where
  procs : ℕ → Option Process
  nextFile : ℕ

inductive Call where
  | open (p : ℕ) (path : String) (flags : ℕ)
  | dup (p fd : ℕ)
  | dup2 (p oldFd newFd : ℕ)
  | close (p fd : ℕ)
  | pipe (p : ℕ)
  | fork (p : ℕ)
  deriving DecidableEq, Repr

/-- Process `p`, which was `proc`, has table `t` now, and `files` new files were made. -/
def System.put (s : System) (p : ℕ) (proc : Process) (t : FdTable) (files : ℕ) : System where
  procs := Function.update s.procs p (some { proc with fdTable := t })
  nextFile := s.nextFile + files

/-- One call of process `p`, which finds the file system as in `c`. -/
inductive Step (fs : EasyFileSystem) (heap : ℕ) (c : CacheState) : System → Call → Reply → System → Prop
  | openOk {s p proc path bits flags c' opened t fd} : s.procs p = some proc →
      OpenFlags.fromBits bits = some flags →
      exec cacheMachine (openFile fs (Paths.getFullPath proc.cwd path) flags) c =
        .ok (some opened, c') →
      install heap proc.fdTable (.osInode s.nextFile opened) = some (t, fd) →
      Step fs heap c s (.open p path bits) (.code fd) (s.put p proc t 1)
  | openFail {s p proc path bits flags c'} : s.procs p = some proc →
      OpenFlags.fromBits bits = some flags →
      exec cacheMachine (openFile fs (Paths.getFullPath proc.cwd path) flags) c = .ok (none, c') →
      Step fs heap c s (.open p path bits) (.code (-1)) s
  | dup {s p proc fd reply t} : s.procs p = some proc →
      sysDup heap proc.fdTable fd = some (reply, t) →
      Step fs heap c s (.dup p fd) reply (s.put p proc t 0)
  | dup2 {s p proc oldFd newFd reply t} : s.procs p = some proc →
      sysDup2 heap proc.fdTable oldFd newFd = some (reply, t) →
      Step fs heap c s (.dup2 p oldFd newFd) reply (s.put p proc t 0)
  | close {s p proc fd} : s.procs p = some proc →
      Step fs heap c s (.close p fd) (sysClose proc.fdTable fd).1
        (s.put p proc (sysClose proc.fdTable fd).2 0)
  | pipe {s p proc reply t} : s.procs p = some proc →
      sysPipe heap proc.fdTable (.pipeRead s.nextFile) (.pipeWrite s.nextFile) = some (reply, t) →
      Step fs heap c s (.pipe p) reply (s.put p proc t 1)
  | fork {s p proc} {child : ℕ} : s.procs p = some proc → s.procs child = none →
      Step fs heap c s (.fork p) (.code child) (s.put child proc proc.fdTable 0)

/-- The calls of a run and what they returned, the latest first. -/
abbrev History : Type := List (Call × Reply)

/-- The runs from a state.  `ok` says which call may come next. -/
inductive Run (fs : EasyFileSystem) (heap : ℕ) (ok : System → Call → Prop) (s₀ : System) :
    History → System → Prop
  | init : Run fs heap ok s₀ [] s₀
  | step {hist s c call reply s'} : Run fs heap ok s₀ hist s → ok s call →
      Step fs heap c s call reply s' → Run fs heap ok s₀ ((call, reply) :: hist) s'

/-! ### Partial maps -/

/-- What the descriptors of each process refer to. -/
abbrev FdMaps : Type := ℕ → Option (ℕ → Option File)

def System.maps (s : System) : FdMaps := fun p => (s.procs p).map fun proc => slotAt proc.fdTable

/-- What a call of a process with the map `m` is to do. -/
def MapStep (maps : FdMaps) (call : Call) (reply : Reply) (maps' : FdMaps) : Prop :=
  match call with
  | .open p _ _ => ∃ m, maps p = some m ∧
      ((reply = .code (-1) ∧ maps' = maps) ∨
      ∃ fd id opened, LowestFree m fd ∧ reply = .code fd ∧
        maps' = Function.update maps p (some (Function.update m fd (some (.osInode id opened)))))
  | .dup p fd => ∃ m, maps p = some m ∧
      ((m fd = none ∧ reply = .code (-1) ∧ maps' = maps) ∨
      ∃ file newFd, m fd = some file ∧ LowestFree m newFd ∧ reply = .code newFd ∧
        maps' = Function.update maps p (some (Function.update m newFd (some file))))
  | .dup2 p oldFd newFd => ∃ m, maps p = some m ∧
      ((m oldFd = none ∧ reply = .code (-1) ∧ maps' = maps) ∨
      ∃ file, m oldFd = some file ∧ reply = .code 0 ∧
        maps' = Function.update maps p (some (Function.update m newFd (some file))))
  | .close p fd => ∃ m, maps p = some m ∧
      ((m fd = none ∧ reply = .code (-1) ∧ maps' = maps) ∨
      (m fd ≠ none ∧ reply = .code 0 ∧
        maps' = Function.update maps p (some (Function.update m fd none))))
  | .pipe p => ∃ m readFd writeFd id, maps p = some m ∧ LowestFree m readFd ∧
      LowestFree (Function.update m readFd (some (.pipeRead id))) writeFd ∧
      reply = .pipe readFd writeFd ∧
      maps' = Function.update maps p (some (Function.update (Function.update m readFd
        (some (.pipeRead id))) writeFd (some (.pipeWrite id))))
  | .fork p => ∃ m child, maps p = some m ∧ maps child = none ∧ reply = .code child ∧
      maps' = Function.update maps child (some m)

/-- Runs of the maps. -/
inductive MapRun (maps₀ : FdMaps) : History → FdMaps → Prop
  | init : MapRun maps₀ [] maps₀
  | step {hist maps call reply maps'} : MapRun maps₀ hist maps → MapStep maps call reply maps' →
      MapRun maps₀ ((call, reply) :: hist) maps'

/-- The call is a `dup2` from a closed descriptor inside the table. -/
def DupsClosed (s : System) (call : Call) : Prop :=
  ∃ p proc oldFd newFd, call = .dup2 p oldFd newFd ∧ s.procs p = some proc ∧
    oldFd < proc.fdTable.length ∧ slotAt proc.fdTable oldFd = none

/-- The table has room for `n` more files. -/
def Fits (heap : ℕ) (t : FdTable) (n : ℕ) : Prop := t.length + (n - holes t) ≤ max heap t.length

/-- The call returns: the flags are defined and the path can be searched; the table can be made as long as
it has to be, and its new length is a `usize`. -/
def Returns (fs : EasyFileSystem) (heap : ℕ) (c : CacheState) (s : System) : Call → Prop
  | .open p path bits => ∃ proc flags r c', s.procs p = some proc ∧ OpenFlags.fromBits bits = some flags ∧
      exec cacheMachine (openFile fs (Paths.getFullPath proc.cwd path) flags) c = .ok (r, c') ∧
      (r ≠ none → Fits heap proc.fdTable 1)
  | .dup p fd => ∃ proc, s.procs p = some proc ∧
      (slotAt proc.fdTable fd ≠ none → Fits heap proc.fdTable 1)
  | .dup2 p oldFd newFd => ∃ proc, s.procs p = some proc ∧ (oldFd < proc.fdTable.length →
      newFd < proc.fdTable.length ∨ newFd + 1 < 2 ^ 64 ∧ newFd + 1 ≤ heap)
  | .close p _ => ∃ proc, s.procs p = some proc
  | .pipe p => ∃ proc, s.procs p = some proc ∧ Fits heap proc.fdTable 2
  | .fork p => ∃ proc child, s.procs p = some proc ∧ s.procs child = none

/-! ### One call -/

variable {fs : EasyFileSystem} {heap : ℕ} {c : CacheState} {s s' : System} {p fd oldFd newFd files : ℕ}
  {proc : Process} {t t' : FdTable} {file : File} {call : Call} {reply : Reply}

theorem maps_of_proc (h : s.procs p = some proc) : s.maps p = some (slotAt proc.fdTable) := by
  rw [System.maps, h]
  rfl

theorem maps_put : (s.put p proc t files).maps = Function.update s.maps p (some (slotAt t)) := by
  funext q
  by_cases hq : q = p
  · subst hq
    show (Function.update s.procs q _ q).map _ = _
    rw [Function.update_self, Function.update_self]
    rfl
  · show (Function.update s.procs p _ q).map _ = _
    rw [Function.update_of_ne hq, Function.update_of_ne hq]
    rfl

theorem maps_put_same (h : s.procs p = some proc) (ht : slotAt t = slotAt proc.fdTable) :
    (s.put p proc t files).maps = s.maps := by
  rw [maps_put, ht, ← maps_of_proc h, Function.update_eq_self]

theorem install_spec (h : install heap t file = some (t', fd)) :
    LowestFree (slotAt t) fd ∧ slotAt t' = Function.update (slotAt t) fd (some file) := by
  obtain ⟨hmap, hlow, hlt⟩ := alloc_spec t
  rw [install, allocFd] at h
  generalize alloc t = r at h hmap hlow hlt
  split at h
  · cases h
    refine ⟨hlow, ?_⟩
    rw [slotAt_set hlt, hmap]
  · cases h

theorem slotAt_resize (hge : t.length ≤ newFd)
    (h : resize heap t ((newFd + 1) % 2 ^ 64) = some t') (hlt : newFd < t'.length) :
    slotAt t' = slotAt t := by
  rw [resize] at h
  split at h
  · -- the new length has wrapped around
    rename_i hle
    cases h
    rw [List.length_take] at hlt
    omega
  split at h
  · cases h
    exact slotAt_pad t _
  · cases h

theorem sysDup2_spec (hold : oldFd < t.length) (h : sysDup2 heap t oldFd newFd = some (reply, t')) :
    reply = .code 0 ∧ slotAt t' = Function.update (slotAt t) newFd (slotAt t oldFd) := by
  rw [sysDup2, if_neg (Nat.not_le.mpr hold), Option.bind_eq_some_iff] at h
  obtain ⟨t₁, ht₁, h⟩ := h
  -- the table may have grown, but the map is the same
  have hmap : newFd < t₁.length → slotAt t₁ = slotAt t := by
    intro hnew
    split at ht₁
    · rename_i hge
      exact slotAt_resize hge ht₁ hnew
    · cases ht₁
      rfl
  split at h
  · cases h
  rename_i file hfile
  split at h
  · rename_i hnew
    cases h
    refine ⟨rfl, ?_⟩
    have hold₁ : slotAt t oldFd = file := by
      rw [← hmap hnew, slotAt, hfile]
      rfl
    rw [slotAt_set hnew, hmap hnew, hold₁]
  · cases h

theorem sysDup2_cases (h : sysDup2 heap t oldFd newFd = some (reply, t')) :
    (t.length ≤ oldFd ∧ reply = .code (-1) ∧ t' = t) ∨
    (oldFd < t.length ∧ reply = .code 0 ∧
      slotAt t' = Function.update (slotAt t) newFd (slotAt t oldFd)) := by
  rcases Nat.lt_or_ge oldFd t.length with hlt | hge
  · exact Or.inr ⟨hlt, sysDup2_spec hlt h⟩
  · rw [sysDup2, if_pos hge] at h
    cases h
    exact Or.inl ⟨hge, rfl, rfl⟩

theorem sysDup_spec (h : sysDup heap t fd = some (reply, t')) :
    (slotAt t fd = none ∧ reply = .code (-1) ∧ t' = t) ∨
    ∃ file newFd, slotAt t fd = some file ∧ LowestFree (slotAt t) newFd ∧ reply = .code newFd ∧
      slotAt t' = Function.update (slotAt t) newFd (some file) := by
  rw [sysDup] at h
  split at h
  · rename_i file hfile
    rw [Option.bind_eq_bind, Option.bind_eq_some_iff] at h
    obtain ⟨⟨t₁, newFd⟩, hinstall, h⟩ := h
    cases h
    obtain ⟨hlow, hmap⟩ := install_spec hinstall
    exact Or.inr ⟨file, newFd, by rw [slotAt, hfile]; rfl, hlow, rfl, hmap⟩
  · rename_i hnone
    cases h
    refine Or.inl ⟨?_, rfl, rfl⟩
    cases hfile : slotAt t fd with
    | none => rfl
    | some file => exact absurd (Option.join_eq_some_iff.mp hfile) (hnone file)

theorem sysClose_spec (t : FdTable) (fd : ℕ) :
    (slotAt t fd = none ∧ (sysClose t fd).1 = .code (-1) ∧ slotAt (sysClose t fd).2 = slotAt t) ∨
    (slotAt t fd ≠ none ∧ (sysClose t fd).1 = .code 0 ∧
      slotAt (sysClose t fd).2 = Function.update (slotAt t) fd none) := by
  rw [sysClose]
  split
  · rename_i hge
    exact Or.inl ⟨slotAt_of_ge hge, rfl, rfl⟩
  rename_i hlt
  rw [Nat.not_le] at hlt
  split
  · rename_i file hfile
    have hopen : slotAt t fd = some file := hfile
    exact Or.inr ⟨by rw [hopen]; simp, rfl, slotAt_set hlt none⟩
  · rename_i hnone
    have hfree : slotAt t fd = none := hnone
    refine Or.inl ⟨hfree, rfl, ?_⟩
    rw [slotAt_set hlt, ← hfree, Function.update_eq_self]

theorem sysPipe_spec {pipeRead pipeWrite : File}
    (h : sysPipe heap t pipeRead pipeWrite = some (reply, t')) :
    ∃ readFd writeFd, LowestFree (slotAt t) readFd ∧
      LowestFree (Function.update (slotAt t) readFd (some pipeRead)) writeFd ∧
      reply = .pipe readFd writeFd ∧
      slotAt t' = Function.update (Function.update (slotAt t) readFd (some pipeRead)) writeFd
        (some pipeWrite) := by
  rw [sysPipe, Option.bind_eq_bind, Option.bind_eq_some_iff] at h
  obtain ⟨⟨t₁, readFd⟩, hread, h⟩ := h
  obtain ⟨⟨t₂, writeFd⟩, hwrite, h⟩ := Option.bind_eq_some_iff.mp h
  cases h
  obtain ⟨hlow, hmap⟩ := install_spec hread
  obtain ⟨hlow', hmap'⟩ := install_spec hwrite
  rw [hmap] at hlow' hmap'
  exact ⟨readFd, writeFd, hlow, hlow', rfl, hmap'⟩

/-- The calls other than a `dup2` from a closed descriptor do what they are to do. -/
theorem Step.mapStep (h : Step fs heap c s call reply s') (hok : ¬ DupsClosed s call) :
    MapStep s.maps call reply s'.maps := by
  cases h with
  | openOk hp _ _ hinstall =>
    obtain ⟨hlow, hmap⟩ := install_spec hinstall
    exact ⟨_, maps_of_proc hp, Or.inr ⟨_, _, _, hlow, rfl, by rw [maps_put, hmap]⟩⟩
  | openFail hp _ _ => exact ⟨_, maps_of_proc hp, Or.inl ⟨rfl, rfl⟩⟩
  | dup hp hdup =>
    refine ⟨_, maps_of_proc hp, ?_⟩
    rcases sysDup_spec hdup with ⟨hnone, hreply, ht⟩ | ⟨file, newFd, hfile, hlow, hreply, hmap⟩
    · exact Or.inl ⟨hnone, hreply, maps_put_same hp (by rw [ht])⟩
    · exact Or.inr ⟨file, newFd, hfile, hlow, hreply, by rw [maps_put, hmap]⟩
  | dup2 hp hdup =>
    refine ⟨_, maps_of_proc hp, ?_⟩
    rcases sysDup2_cases hdup with ⟨hge, hreply, ht⟩ | ⟨hlt, hreply, hmap⟩
    · exact Or.inl ⟨slotAt_of_ge hge, hreply, maps_put_same hp (by rw [ht])⟩
    · have hopen : ∃ file, slotAt _ _ = some file :=
        Option.ne_none_iff_exists'.mp fun hold => hok ⟨_, _, _, _, rfl, hp, hlt, hold⟩
      obtain ⟨file, hfile⟩ := hopen
      exact Or.inr ⟨file, hfile, hreply, by rw [maps_put, hmap, hfile]⟩
  | close hp =>
    refine ⟨_, maps_of_proc hp, ?_⟩
    rcases sysClose_spec _ _ with ⟨hnone, hreply, hmap⟩ | ⟨hopen, hreply, hmap⟩
    · exact Or.inl ⟨hnone, hreply, maps_put_same hp hmap⟩
    · exact Or.inr ⟨hopen, hreply, by rw [maps_put, hmap]⟩
  | pipe hp hpipe =>
    obtain ⟨readFd, writeFd, hlow, hlow', hreply, hmap⟩ := sysPipe_spec hpipe
    exact ⟨_, readFd, writeFd, _, maps_of_proc hp, hlow, hlow', hreply, by rw [maps_put, hmap]⟩
  | fork hp hchild =>
    refine ⟨_, _, maps_of_proc hp, ?_, rfl, maps_put⟩
    rw [System.maps, hchild]
    rfl

theorem Step.not_mapStep (h : Step fs heap c s call reply s') (hbad : DupsClosed s call) :
    ¬ MapStep s.maps call reply s'.maps := by
  obtain ⟨p, proc, oldFd, newFd, hcall, hp, hlt, hclosed⟩ := hbad
  subst hcall
  cases h with
  | dup2 hp' hdup =>
    cases hp.symm.trans hp'
    obtain ⟨hreply, _⟩ := sysDup2_spec hlt hdup
    subst hreply
    rintro ⟨m, hm, hcases⟩
    cases (maps_of_proc hp).symm.trans hm
    rcases hcases with ⟨_, hreply, _⟩ | ⟨file, hopen, _⟩
    · exact absurd hreply (by decide)
    · exact absurd (hclosed.symm.trans hopen) (by simp)

/-! ### Calls that return -/

theorem install_fits (h : Fits heap t 1) (file : File) : ∃ t' fd, install heap t file = some (t', fd) ∧
    t'.length = t.length + (1 - holes t) ∧ holes t' = holes t - 1 := by
  have hlen := length_alloc t
  rw [Fits] at h
  refine ⟨(alloc t).1.set (alloc t).2 (some file), (alloc t).2, ?_, ?_, holes_fill t file⟩
  · rw [install, allocFd, hlen, if_pos h]
    rfl
  · rw [List.length_set, hlen]

theorem install_full (h : ¬ Fits heap t 1) (file : File) : install heap t file = none := by
  rw [Fits] at h
  rw [install, allocFd, length_alloc t, if_neg h]
  rfl

theorem sysDup_returns (heap : ℕ) (t : FdTable) (fd : ℕ) :
    (∃ reply t', sysDup heap t fd = some (reply, t')) ↔ (slotAt t fd ≠ none → Fits heap t 1) := by
  cases hfile : slotAt t fd with
  | none =>
    refine iff_of_true ⟨.code (-1), t, ?_⟩ fun hno => absurd rfl hno
    rw [sysDup]
    split
    · rename_i file hget
      rw [slotAt, hget] at hfile
      cases hfile
    · rfl
  | some file =>
    have hget : t[fd]? = some (some file) := Option.join_eq_some_iff.mp hfile
    rw [sysDup, hget]
    by_cases hfits : Fits heap t 1
    · obtain ⟨t', newFd, hinstall, _⟩ := install_fits hfits file
      exact iff_of_true ⟨.code newFd, t', by simp only [hinstall]; rfl⟩ fun _ => hfits
    · refine iff_of_false ?_ fun h => hfits (h (by simp))
      rintro ⟨reply, t', h⟩
      simp only [install_full hfits file] at h
      cases h

theorem sysPipe_returns (heap : ℕ) (t : FdTable) (r w : File) :
    (∃ reply t', sysPipe heap t r w = some (reply, t')) ↔ Fits heap t 2 := by
  rw [sysPipe]
  by_cases h₁ : Fits heap t 1
  · obtain ⟨t₁, readFd, hinstall, hlen, hholes⟩ := install_fits h₁ r
    rw [hinstall]
    have hfits : Fits heap t 2 ↔ Fits heap t₁ 1 := by
      rw [Fits] at h₁ ⊢
      rw [Fits, hlen, hholes]
      omega
    by_cases h₂ : Fits heap t₁ 1
    · obtain ⟨t₂, writeFd, hinstall₂, _⟩ := install_fits h₂ w
      refine iff_of_true ⟨.pipe readFd writeFd, t₂, ?_⟩ (hfits.mpr h₂)
      simp only [Option.bind_eq_bind, Option.bind_some, hinstall₂]
      rfl
    · refine iff_of_false ?_ fun h => h₂ (hfits.mp h)
      rintro ⟨reply, t', h⟩
      simp only [Option.bind_eq_bind, Option.bind_some, install_full h₂ w] at h
      cases h
  · refine iff_of_false ?_ fun h => h₁ ?_
    · rintro ⟨reply, t', h⟩
      rw [install_full h₁ r] at h
      cases h
    · rw [Fits] at h ⊢
      omega

theorem sysDup2_returns (heap : ℕ) (t : FdTable) (oldFd newFd : ℕ) :
    (∃ reply t', sysDup2 heap t oldFd newFd = some (reply, t')) ↔
      (oldFd < t.length → newFd < t.length ∨ newFd + 1 < 2 ^ 64 ∧ newFd + 1 ≤ heap) := by
  rw [sysDup2]
  by_cases hold : t.length ≤ oldFd
  · rw [if_pos hold]
    exact iff_of_true ⟨_, _, rfl⟩ fun h => absurd h (Nat.not_lt.mpr hold)
  have hlt : oldFd < t.length := Nat.not_le.mp hold
  rw [if_neg hold]
  by_cases hnew : newFd < t.length
  · rw [if_neg (Nat.not_le.mpr hnew), Option.bind_some, List.getElem?_eq_getElem hlt]
    simp only [if_pos hnew]
    exact iff_of_true ⟨_, _, rfl⟩ fun _ => Or.inl hnew
  rw [if_pos (Nat.not_lt.mp hnew)]
  by_cases hfits : newFd + 1 < 2 ^ 64 ∧ newFd + 1 ≤ heap
  · have hlong : ¬ newFd + 1 ≤ t.length := by omega
    rw [Nat.mod_eq_of_lt hfits.1, resize, if_neg hlong, if_pos hfits.2, Option.bind_some,
      List.getElem?_append_left hlt, List.getElem?_eq_getElem hlt]
    have hnew' : newFd < (t ++ List.replicate (newFd + 1 - t.length) none).length := by
      rw [List.length_append, List.length_replicate]
      omega
    simp only [if_pos hnew']
    exact iff_of_true ⟨_, _, rfl⟩ fun _ => Or.inr hfits
  · refine iff_of_false ?_ fun h => (h hlt).elim hnew hfits
    rintro ⟨reply, t', h⟩
    obtain ⟨t₁, ht₁, h⟩ := Option.bind_eq_some_iff.mp h
    -- the table is as long as `new_fd + 1` was taken to be
    have hshort : ¬ newFd < t₁.length := by
      rw [resize] at ht₁
      split at ht₁
      · cases ht₁
        rw [List.length_take]
        omega
      split at ht₁
      · cases ht₁
        rw [List.length_append, List.length_replicate]
        omega
      · cases ht₁
    split at h
    · cases h
    · rw [if_neg hshort] at h
      cases h

theorem step_returns_iff (fs : EasyFileSystem) (heap : ℕ) (c : CacheState) (s : System) (call : Call) :
    (∃ reply s', Step fs heap c s call reply s') ↔ Returns fs heap c s call := by
  constructor
  · rintro ⟨reply, s', h⟩
    cases h with
    | openOk hp hflags hexec hinstall =>
      refine ⟨_, _, _, _, hp, hflags, hexec, fun _ => ?_⟩
      by_contra hfull
      rw [install_full hfull] at hinstall
      cases hinstall
    | openFail hp hflags hexec => exact ⟨_, _, _, _, hp, hflags, hexec, fun hno => absurd rfl hno⟩
    | dup hp hdup => exact ⟨_, hp, (sysDup_returns _ _ _).mp ⟨_, _, hdup⟩⟩
    | dup2 hp hdup => exact ⟨_, hp, (sysDup2_returns _ _ _ _).mp ⟨_, _, hdup⟩⟩
    | close hp => exact ⟨_, hp⟩
    | pipe hp hpipe => exact ⟨_, hp, (sysPipe_returns _ _ _ _).mp ⟨_, _, hpipe⟩⟩
    | fork hp hchild => exact ⟨_, _, hp, hchild⟩
  · intro h
    cases call with
    | «open» p path bits =>
      obtain ⟨proc, flags, r, c', hp, hflags, hexec, hfits⟩ := h
      cases r with
      | none => exact ⟨_, _, .openFail hp hflags hexec⟩
      | some opened =>
        obtain ⟨t, fd, hinstall, _⟩ := install_fits (hfits (by simp)) (.osInode s.nextFile opened)
        exact ⟨_, _, .openOk hp hflags hexec hinstall⟩
    | dup p fd =>
      obtain ⟨proc, hp, hfits⟩ := h
      obtain ⟨reply, t, hdup⟩ := (sysDup_returns _ _ _).mpr hfits
      exact ⟨_, _, .dup hp hdup⟩
    | dup2 p oldFd newFd =>
      obtain ⟨proc, hp, hfits⟩ := h
      obtain ⟨reply, t, hdup⟩ := (sysDup2_returns _ _ _ _).mpr hfits
      exact ⟨_, _, .dup2 hp hdup⟩
    | close p fd => exact ⟨_, _, .close h.choose_spec⟩
    | pipe p =>
      obtain ⟨proc, hp, hfits⟩ := h
      obtain ⟨reply, t, hpipe⟩ := (sysPipe_returns _ _ _ _).mpr hfits
      exact ⟨_, _, .pipe hp hpipe⟩
    | fork p =>
      obtain ⟨proc, child, hp, hchild⟩ := h
      exact ⟨_, _, .fork hp hchild⟩

/-- **Descriptor tables.**  A call returns and does to the partial maps what it is to do exactly when there
is room for what it adds, its flags are defined, its path can be searched, and it is no `dup2` from a closed
descriptor inside the table; so the runs without such calls, from any tables, are runs of the maps. -/
theorem fd_table_refines (fs : EasyFileSystem) (heap : ℕ) :
    (∀ c s call, ((∃ reply s', Step fs heap c s call reply s') ∧
        ∀ reply s', Step fs heap c s call reply s' → MapStep s.maps call reply s'.maps) ↔
      Returns fs heap c s call ∧ ¬ DupsClosed s call) ∧
    ∀ s₀ hist s, Run fs heap (fun s call => ¬ DupsClosed s call) s₀ hist s →
      MapRun s₀.maps hist s.maps := by
  refine ⟨?_, ?_⟩
  · intro c s call
    rw [step_returns_iff]
    refine and_congr_right fun hreturns => ⟨fun hall hbad => ?_, fun hok _ _ h => h.mapStep hok⟩
    obtain ⟨reply, s', h⟩ := (step_returns_iff fs heap c s call).mpr hreturns
    exact h.not_mapStep hbad (hall reply s' h)
  · intro s₀ hist s h
    induction h with
    | init => exact .init
    | step _ hok hstep ih => exact .step ih (hstep.mapStep hok)

/-- The first process, with its standard files. -/
def System.initial : System where
  procs := fun p => if p = 0 then some ⟨"/", [some .stdin, some .stdout, some .stdout]⟩ else none
  nextFile := 0

/-- `dup2(0, 5)` lengthens the table, and `dup(5)` takes the hole before it. -/
theorem fd_table_refines_dup2 : ∃ s, Run Geometry.efsTest.fs 16 (fun s call => ¬ DupsClosed s call) .initial
      [(.dup 0 5, .code 3), (.dup2 0 0 5, .code 0)] s ∧
    MapRun System.initial.maps [(.dup 0 5, .code 3), (.dup2 0 0 5, .code 0)] s.maps := by
  have hopen : ¬ DupsClosed .initial (.dup2 0 0 5) := by
    rintro ⟨p, proc, oldFd, newFd, hcall, hp, _, hclosed⟩
    cases hcall
    cases hp
    cases hclosed
  have hdup2 : Step Geometry.efsTest.fs 16 (.init fun _ => .zero) .initial (.dup2 0 0 5) (.code 0)
      (System.initial.put 0 ⟨"/", [some .stdin, some .stdout, some .stdout]⟩
        [some .stdin, some .stdout, some .stdout, none, none, some .stdin] 0) := .dup2 rfl rfl
  have hdup : ∀ s, ¬ DupsClosed s (.dup 0 5) := by
    rintro s ⟨p, proc, oldFd, newFd, hcall, _⟩
    cases hcall
  have hrun : Run Geometry.efsTest.fs 16 (fun s call => ¬ DupsClosed s call) .initial
      [(.dup 0 5, .code 3), (.dup2 0 0 5, .code 0)] _ :=
    .step (c := .init fun _ => .zero) (.step .init hopen hdup2) (hdup _) (.dup rfl rfl)
  exact ⟨_, hrun, (fd_table_refines Geometry.efsTest.fs 16).2 _ _ _ hrun⟩

/-- After `close(1)`, `dup2(1, 2)` returns 0 and closes descriptor 2. -/
theorem dup2_closes : ∃ s s' proc proc',
    Run Geometry.efsTest.fs 16 (fun _ _ => True) .initial [(.close 0 1, .code 0)] s ∧
    Step Geometry.efsTest.fs 16 (.init fun _ => .zero) s (.dup2 0 1 2) (.code 0) s' ∧
    s.procs 0 = some proc ∧ slotAt proc.fdTable 1 = none ∧ slotAt proc.fdTable 2 = some .stdout ∧
    s'.procs 0 = some proc' ∧ slotAt proc'.fdTable 2 = none := by
  have hproc : System.initial.procs 0 = some ⟨"/", [some .stdin, some .stdout, some .stdout]⟩ := rfl
  have hclose : Step Geometry.efsTest.fs 16 (.init fun _ => .zero) .initial (.close 0 1) (.code 0)
      (System.initial.put 0 ⟨"/", [some .stdin, some .stdout, some .stdout]⟩
        [some .stdin, none, some .stdout] 0) := Step.close hproc
  exact ⟨_, _, _, _, .step .init trivial hclose, .dup2 rfl rfl, rfl, rfl, rfl, rfl, rfl⟩

/-! ### Access modes -/

namespace OpenFlags

/-- The flags ask for reading: `RDWR`, or `RDONLY`, which is the absence of `WRONLY`. -/
def AsksRead (flags : OpenFlags) : Prop := flags.contains .rdwr ∨ ¬ flags.contains .wronly

def AsksWrite (flags : OpenFlags) : Prop := flags.contains .wronly ∨ flags.contains .rdwr

theorem contains_rdonly (flags : OpenFlags) : flags.contains .rdonly = true :=
  decide_eq_true (Nat.and_zero _)

end OpenFlags

theorem openFile_modes {path : String} {flags : OpenFlags} {opened : Opened} {c c' : CacheState}
    (h : exec cacheMachine (openFile fs path flags) c = .ok (some opened, c')) :
    opened.readable = true ∧ (opened.writable = true ↔ flags.AsksWrite) := by
  have hmodes : ∀ inode : Inode, some opened = some (⟨flags.contains .rdonly || flags.contains .rdwr,
      flags.contains .wronly || flags.contains .rdwr, inode⟩ : Opened) →
      opened.readable = true ∧ (opened.writable = true ↔ flags.AsksWrite) := by
    intro inode heq
    cases heq
    refine ⟨?_, ?_⟩
    · show (flags.contains .rdonly || flags.contains .rdwr) = true
      rw [OpenFlags.contains_rdonly, Bool.true_or]
    · show (flags.contains .wronly || flags.contains .rdwr) = true ↔ _
      rw [Bool.or_eq_true]
      rfl
  rw [openFile] at h
  split at h
  · obtain ⟨r, c₁, _, h⟩ := exec_bind_ok h
    cases r with
    | some inode =>
      obtain ⟨file, c₂, _, h⟩ := exec_bind_ok h
      split at h
      · obtain ⟨_, c₃, _, h⟩ := exec_bind_ok h
        cases h
        exact hmodes inode rfl
      · cases h
        exact hmodes inode rfl
    | none =>
      obtain ⟨parent, c₂, _, h⟩ := exec_bind_ok h
      cases parent with
      | none => cases h
      | some parent =>
        obtain ⟨created, c₃, _, h⟩ := exec_bind_ok h
        cases created with
        | none => cases h
        | some inode =>
          cases h
          exact hmodes inode rfl
  · obtain ⟨r, c₁, _, h⟩ := exec_bind_ok h
    cases r with
    | none => cases h
    | some inode =>
      dsimp only at h
      split at h
      · obtain ⟨_, c₃, _, h⟩ := exec_bind_ok h
        cases h
        exact hmodes inode rfl
      · cases h
        exact hmodes inode rfl

/-- How many open files the calls have made. -/
def filesMade : History → ℕ
  | [] => 0
  | (.open _ _ _, .code (.ofNat _)) :: hist => filesMade hist + 1
  | (.pipe _, _) :: hist => filesMade hist + 1
  | _ :: hist => filesMade hist

/-- File `id` was made by an `open` with these flags. -/
inductive OpenedWith : History → ℕ → ℕ → Prop
  | here {before p path bits} {fd : ℕ} :
      OpenedWith ((.open p path bits, .code fd) :: before) (filesMade before) bits
  | there {e hist id bits} : OpenedWith hist id bits → OpenedWith (e :: hist) id bits

variable {hist : History} {ok : System → Call → Prop} {id bits : ℕ} {opened : Opened}

theorem filesMade_cons_le (e : Call × Reply) (hist : History) :
    filesMade hist ≤ filesMade (e :: hist) := by
  rw [filesMade.eq_def (e :: hist)]
  split
  · rename_i heq
    cases heq
  · rename_i heq
    cases heq
    exact Nat.le_succ _
  · rename_i heq
    cases heq
    exact Nat.le_succ _
  · rename_i heq
    cases heq
    exact Nat.le_refl _

theorem OpenedWith.lt (h : OpenedWith hist id bits) : id < filesMade hist := by
  induction h with
  | here => exact Nat.lt_succ_self _
  | there _ ih => exact Nat.lt_of_lt_of_le ih (filesMade_cons_le _ _)

/-- One `open` made the file. -/
theorem OpenedWith.unique {bits' : ℕ} (h : OpenedWith hist id bits) (h' : OpenedWith hist id bits') :
    bits = bits' := by
  induction h with
  | here =>
    cases h' with
    | here => rfl
    | there h' => exact absurd h'.lt (Nat.lt_irrefl _)
  | there h ih =>
    cases h' with
    | here => exact absurd h.lt (Nat.lt_irrefl _)
    | there h' => exact ih h'

/-- Some descriptor refers to the file. -/
def System.Holds (s : System) (file : File) : Prop :=
  ∃ p proc fd, s.procs p = some proc ∧ slotAt proc.fdTable fd = some file

theorem holds_put (h : (s.put p proc t files).Holds file) :
    s.Holds file ∨ ∃ fd, slotAt t fd = some file := by
  obtain ⟨q, proc', fd, hq, hfd⟩ := h
  have hput : Function.update s.procs p (some { proc with fdTable := t }) q = some proc' := hq
  by_cases hqp : q = p
  · rw [hqp, Function.update_self] at hput
    cases hput
    exact Or.inr ⟨fd, hfd⟩
  · rw [Function.update_of_ne hqp] at hput
    exact Or.inl ⟨q, proc', fd, hput, hfd⟩

/-- After a change to the table of a process, a file that is not the new one was there before. -/
theorem holds_of_update {m : ℕ → Option File} {new : Option File}
    (h : (s.put p proc t files).Holds file) (ht : slotAt t = Function.update m fd new)
    (hm : ∀ fd, m fd = some file → s.Holds file) : s.Holds file ∨ new = some file := by
  rcases holds_put h with h | ⟨fd', hfd'⟩
  · exact Or.inl h
  · rw [ht] at hfd'
    by_cases heq : fd' = fd
    · rw [heq, Function.update_self] at hfd'
      exact Or.inr hfd'
    · rw [Function.update_of_ne heq] at hfd'
      exact Or.inl (hm fd' hfd')

theorem holds_of_same (h : (s.put p proc t files).Holds file) (ht : slotAt t = slotAt proc.fdTable)
    (hp : s.procs p = some proc) : s.Holds file := by
  rcases holds_put h with h | ⟨fd, hfd⟩
  · exact h
  · rw [ht] at hfd
    exact ⟨p, proc, fd, hp, hfd⟩

/-- Where the files of opened inodes come from. -/
theorem Step.holds (h : Step fs heap c s call reply s') (hh : s'.Holds (.osInode id opened)) :
    s.Holds (.osInode id opened) ∨
    ∃ p path bits flags full c', ∃ fd : ℕ, call = .open p path bits ∧ reply = .code fd ∧
      id = s.nextFile ∧ OpenFlags.fromBits bits = some flags ∧
      exec cacheMachine (openFile fs full flags) c = .ok (some opened, c') := by
  have hself : ∀ {p proc fd}, s.procs p = some proc →
      slotAt proc.fdTable fd = some (.osInode id opened) → s.Holds (.osInode id opened) :=
    fun hp hfd => ⟨_, _, _, hp, hfd⟩
  cases h with
  | openOk hp hflags hexec hinstall =>
    rcases holds_of_update hh (install_spec hinstall).2 fun _ => hself hp with hold | hnew
    · exact Or.inl hold
    · cases hnew
      exact Or.inr ⟨_, _, _, _, _, _, _, rfl, rfl, rfl, hflags, hexec⟩
  | openFail _ _ _ => exact Or.inl hh
  | dup hp hdup =>
    rcases sysDup_spec hdup with ⟨_, _, ht⟩ | ⟨file, newFd, hfile, _, _, hmap⟩
    · exact Or.inl (holds_of_same hh (congrArg slotAt ht) hp)
    · rcases holds_of_update hh hmap fun _ => hself hp with hold | hnew
      · exact Or.inl hold
      · exact Or.inl (hself hp (hfile.trans hnew))
  | dup2 hp hdup =>
    rcases sysDup2_cases hdup with ⟨_, _, ht⟩ | ⟨_, _, hmap⟩
    · exact Or.inl (holds_of_same hh (congrArg slotAt ht) hp)
    · rcases holds_of_update hh hmap fun _ => hself hp with hold | hnew
      · exact Or.inl hold
      · exact Or.inl (hself hp hnew)
  | close hp =>
    rcases sysClose_spec _ _ with ⟨_, _, hmap⟩ | ⟨_, _, hmap⟩
    · exact Or.inl (holds_of_same hh hmap hp)
    · rcases holds_of_update hh hmap fun _ => hself hp with hold | hnew
      · exact Or.inl hold
      · cases hnew
  | pipe hp hpipe =>
    obtain ⟨readFd, writeFd, _, _, _, hmap⟩ := sysPipe_spec hpipe
    refine (holds_of_update hh hmap ?_).elim Or.inl fun hnew => by cases hnew
    intro fd hfd
    by_cases hread : fd = readFd
    · rw [hread, Function.update_self] at hfd
      cases hfd
    · rw [Function.update_of_ne hread] at hfd
      exact hself hp hfd
  | fork hp _ =>
    rcases holds_put hh with hold | ⟨fd, hfd⟩
    · exact Or.inl hold
    · exact Or.inl (hself hp hfd)

theorem Step.nextFile (h : Step fs heap c s call reply s') (hn : s.nextFile = filesMade hist) :
    s'.nextFile = filesMade ((call, reply) :: hist) := by
  cases h with
  | openOk _ _ _ _ => exact congrArg (· + 1) hn
  | openFail _ _ _ => exact hn
  | dup _ _ => exact hn
  | dup2 _ _ => exact hn
  | close _ => exact hn
  | pipe _ _ => exact congrArg (· + 1) hn
  | fork _ _ => exact hn

/-- Every file behind a descriptor was made by an `open`, and has the modes that `open_file` found. -/
theorem Run.modes (h : Run fs heap ok .initial hist s) : s.nextFile = filesMade hist ∧
    ∀ id opened, s.Holds (.osInode id opened) → ∃ bits flags, OpenedWith hist id bits ∧
      OpenFlags.fromBits bits = some flags ∧ opened.readable = true ∧
      (opened.writable = true ↔ flags.AsksWrite) := by
  induction h with
  | init =>
    refine ⟨rfl, ?_⟩
    rintro id opened ⟨p, proc, fd, hp, hfd⟩
    have hproc : (if p = 0 then some (⟨"/", [some .stdin, some .stdout, some .stdout]⟩ : Process)
        else none) = some proc := hp
    split at hproc
    · cases hproc
      rcases fd with _ | _ | _ | fd <;> cases hfd
    · cases hproc
  | @step hist s c call reply s' _ _ hstep ih =>
    obtain ⟨hnext, hmodes⟩ := ih
    refine ⟨hstep.nextFile hnext, ?_⟩
    intro id opened hh
    rcases hstep.holds hh with hold | hnew
    · obtain ⟨bits, flags, hopened, hrest⟩ := hmodes id opened hold
      exact ⟨bits, flags, .there hopened, hrest⟩
    · obtain ⟨p, path, bits, flags, full, c', fd, hcall, hreply, hid, hflags, hexec⟩ := hnew
      subst hcall hreply
      refine ⟨bits, flags, ?_, hflags, openFile_modes hexec⟩
      rw [hid, hnext]
      exact .here

theorem sysRead_open (h : slotAt t fd = some file) :
    sysRead t fd = if file.isReadable then .forward file else .code (-1) := by
  rw [sysRead, if_neg (Nat.not_le.mpr (lt_of_slotAt h))]
  rw [slotAt] at h
  rw [h]

theorem sysWrite_open (h : slotAt t fd = some file) :
    sysWrite t fd = if file.isWritable then .forward file else .code (-1) := by
  rw [sysWrite, if_neg (Nat.not_le.mpr (lt_of_slotAt h))]
  rw [slotAt] at h
  rw [h]

/-- The descriptor carries the access mode that the flags ask for, and reading and writing are refused
unless they ask for it. -/
structure HasMode (t : FdTable) (fd : ℕ) (opened : Opened) (flags : OpenFlags) : Prop where
  readable : opened.readable = true ↔ flags.AsksRead
  writable : opened.writable = true ↔ flags.AsksWrite
  read : sysRead t fd = .code (-1) ↔ ¬ flags.AsksRead
  write : sysWrite t fd = .code (-1) ↔ ¬ flags.AsksWrite

/-- **Access modes.**  In every run, the file behind a descriptor was made by one `open`; the descriptor
carries the access mode that this `open` asked for exactly when it did ask for reading.  (`RDONLY` has no
bits, so that `open_file` takes every file to be readable.) -/
theorem access_modes (h : Run fs heap ok .initial hist s) (hp : s.procs p = some proc)
    (hfd : slotAt proc.fdTable fd = some (.osInode id opened)) :
    ∃ bits flags, OpenedWith hist id bits ∧ (∀ bits', OpenedWith hist id bits' → bits' = bits) ∧
      OpenFlags.fromBits bits = some flags ∧
      (HasMode proc.fdTable fd opened flags ↔ flags.AsksRead) := by
  obtain ⟨bits, flags, hopened, hflags, hread, hwrite⟩ := h.modes.2 id opened ⟨p, proc, fd, hp, hfd⟩
  refine ⟨bits, flags, hopened, fun bits' h' => h'.unique hopened, hflags, ?_, ?_⟩
  · exact fun hmode => hmode.readable.mp hread
  · intro hasks
    refine ⟨iff_of_true hread hasks, hwrite, ?_, ?_⟩
    · rw [sysRead_open hfd, File.isReadable, if_pos hread]
      exact iff_of_false (by simp) (not_not_intro hasks)
    · rw [sysWrite_open hfd, File.isWritable]
      by_cases hw : opened.writable = true
      · rw [if_pos hw]
        exact iff_of_false (by simp) (not_not_intro (hwrite.mp hw))
      · rw [if_neg hw]
        exact iff_of_true rfl fun hasks => hw (hwrite.mpr hasks)

/-! ### A file that is opened for writing only -/

theorem openFile_existing {c : CacheState} {path : String} {flags : OpenFlags} {inode : Inode}
    (h : Paths.Reaches c (Paths.find fs path) inode) (hcreate : flags.contains .create = false)
    (htrunc : flags.contains .trunc = false) :
    ∃ c', exec cacheMachine (openFile fs path flags) c =
      .ok (some ⟨true, flags.contains .wronly || flags.contains .rdwr, inode⟩, c') := by
  obtain ⟨c', hexec⟩ := h
  refine ⟨c', ?_⟩
  rw [openFile, hcreate, htrunc, OpenFlags.contains_rdonly, Bool.true_or]
  refine (exec_bind cacheMachine _ _ c).trans ?_
  rw [hexec]
  rfl

theorem exists_file : ∃ c inode,
    Paths.Reaches c (Paths.find Geometry.efsTest.fs (Paths.getFullPath "/" "a")) inode := by
  obtain ⟨s, _, _, hp⟩ := exists_child .file
  exact ⟨s.cache, Geometry.efsTest.handle 1, Paths.reaches_of_outcome hp (by decide +kernel)⟩

theorem exists_open (bits : ℕ) {flags : OpenFlags} (hflags : OpenFlags.fromBits bits = some flags)
    (hcreate : flags.contains .create = false) (htrunc : flags.contains .trunc = false) :
    ∃ s proc opened, Run Geometry.efsTest.fs 16 (fun _ _ => True) .initial
        [(.open 0 "a" bits, .code 3)] s ∧
      s.procs 0 = some proc ∧ slotAt proc.fdTable 3 = some (.osInode 0 opened) ∧
      opened.readable = true := by
  obtain ⟨c, inode, hfile⟩ := exists_file
  obtain ⟨c', hexec⟩ := openFile_existing hfile hcreate htrunc
  exact ⟨_, _, _, .step .init trivial (.openOk rfl hflags hexec rfl), rfl, rfl, rfl⟩

theorem access_modes_rdonly : ∃ hist s proc opened bits flags,
    Run Geometry.efsTest.fs 16 (fun _ _ => True) .initial hist s ∧ s.procs 0 = some proc ∧
    OpenedWith hist 0 bits ∧ OpenFlags.fromBits bits = some flags ∧
    (HasMode proc.fdTable 3 opened flags ↔ flags.AsksRead) := by
  have hrdonly : OpenFlags.fromBits 0 = some .rdonly := rfl
  obtain ⟨s, proc, opened, hrun, hp, hfd, _⟩ := exists_open 0 hrdonly rfl rfl
  obtain ⟨bits, flags, hopened, _, hflags, hmode⟩ := access_modes hrun hp hfd
  exact ⟨_, s, proc, opened, bits, flags, hrun, hp, hopened, hflags, hmode⟩

/-- A file opened with `WRONLY` is read. -/
theorem wronly_read : ∃ s proc file, Run Geometry.efsTest.fs 16 (fun _ _ => True) .initial
      [(.open 0 "a" OpenFlags.wronly.bits, .code 3)] s ∧
    ¬ OpenFlags.wronly.AsksRead ∧ s.procs 0 = some proc ∧ sysRead proc.fdTable 3 = .forward file := by
  have hwronly : OpenFlags.fromBits OpenFlags.wronly.bits = some .wronly := rfl
  obtain ⟨s, proc, opened, hrun, hp, hfd, hread⟩ := exists_open _ hwronly rfl rfl
  refine ⟨s, proc, .osInode 0 opened, hrun, ?_, hp, ?_⟩
  · rintro (h | h)
    · exact absurd h (by decide)
    · exact h rfl
  · rw [sysRead_open hfd, File.isReadable, if_pos hread]

end LemonCore.Kernel.Descriptors
