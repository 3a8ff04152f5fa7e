import LemonCore.EasyFs.BlockCache
import LemonCore.EasyFs.Vfs

/-!
# Reading and writing files, with the locks on the way to the device

`sys_read` and `sys_write` on a file pass through `OSInode` (`kernel/src/fs/inode.rs`), `Inode`
(`easy-fs/src/vfs.rs`), the block cache (`easy-fs/src/block_cache.rs`) and the driver
(`kernel/src/drivers/block/virtio_blk.rs`).  Each layer takes its own lock and keeps it while it calls the
next one.  The kernel is not preempted; a task gives up the hart only in the driver, and only when
`DEV_NON_BLOCKING_ACCESS` is set.

The operations of `easy-fs` are the programs of `EasyFs`, here run piece by piece.

* `Lock`: the guard of an `OSInode`, the spin locks of the file system, of the cache manager and of each
  cached block;
* `Kont`: what is left to do when the program at hand returns;
* `micro`: the next piece of a task in the kernel;
* `Step`, `Run`: tasks that read and write files in any interleaving.
-/

namespace LemonCore.Kernel.FileAccess

open EasyFs Foundation.BorrowProgram

abbrev Task := ℕ

inductive Lock where
  /-- the guard of an `OSInode` -/
  | file (h : ℕ)
  /-- `Arc<Mutex<EasyFileSystem>>` -/
  | fs
  /-- `BLOCK_CACHE_MANAGER` -/
  | manager
  /-- `Arc<Mutex<BlockCache>>` -/
  | block (p : ℕ)
  deriving DecidableEq, Repr

/-- `OSInodeInner`. -/
structure OSInode where
  offset : ℕ
  inode : Inode
  deriving DecidableEq, Repr

structure FileState where
  cache : CacheState
  /-- which task holds a lock -/
  locks : Lock → Option Task
  files : ℕ → OSInode

namespace FileState

variable (s : FileState)

def lock (t : Task) (l : Lock) : FileState := { s with locks := Function.update s.locks l (some t) }

def unlock (l : Lock) : FileState := { s with locks := Function.update s.locks l none }

/-- `inner.offset += n`. -/
def advance (h n : ℕ) : FileState :=
  { s with files := Function.update s.files h { s.files h with offset := (s.files h).offset + n } }

end FileState

/-! ### Programs in pieces -/

/-- What returns to whom: a borrowed block is given back and the program goes on, or a call of `read_at` or
`write_at` returns to the loop over the slices of the user buffer. -/
inductive Kont : Type → Type 1 where
  | readAt (h : ℕ) (rest : List (List UInt8)) (total : ℕ) : Kont (ℕ × List UInt8)
  | writeAt (h : ℕ) (slice : List UInt8) (rest : List (List UInt8)) (total : ℕ) : Kont ℕ
  | endRead {γ α : Type} (p : ℕ) (k : γ → DiskProg α) (rest : Kont α) : Kont γ
  | endModify {γ α : Type} (p : ℕ) (k : γ → DiskProg α) (rest : Kont α) : Kont (Block × γ)

/-- What is done with a block that was asked for. -/
inductive Borrow (α : Type) : Type 1 where
  | read {γ : Type} (body : Block → DiskProg γ) (k : γ → DiskProg α)
  | modify {γ : Type} (body : Block → DiskProg (Block × γ)) (k : γ → DiskProg α)

/-- Where a task is in the kernel. -/
inductive Code : Type 1 where
  /-- the loop of `OSInode::read`, with the slices that are left -/
  | read (h : ℕ) (slices : List (List UInt8)) (total : ℕ)
  | write (h : ℕ) (slices : List (List UInt8)) (total : ℕ)
  | prog {α : Type} (p : DiskProg α) (k : Kont α)
  /-- in `BlockCacheManager::get`: another block was written back to make room for block `b` -/
  | evicted {α : Type} (b : ℕ) (use : Borrow α) (k : Kont α)
  /-- in `BlockCacheManager::get`: the device has read block `b` -/
  | loaded {α : Type} (b : ℕ) (use : Borrow α) (k : Kont α)
  /-- about to lock a cached block -/
  | locking {α : Type} (p : ℕ) (use : Borrow α) (k : Kont α)
  /-- the loop of `sync_all`, with the cached blocks that are left -/
  | syncing {α : Type} (ptrs : List ℕ) (next : DiskProg α) (k : Kont α)
  /-- in the loop of `sync_all`: cached block `p` was written back -/
  | synced {α : Type} (p : ℕ) (ptrs : List ℕ) (next : DiskProg α) (k : Kont α)

inductive Outcome : Type 1 where
  | next (s : FileState) (c : Code)
  /-- `read_block` or `write_block` of the driver; the task goes on at `c` afterwards -/
  | access (s : FileState) (c : Code)
  /-- the lock is taken -/
  | spin (l : Lock)
  | panic
  /-- the system call returns -/
  | done (s : FileState)

/-- Dropping a handle of a cached block; the last one writes the block back. -/
def dropHandle (s : FileState) (p : ℕ) (c : Code) : Outcome :=
  let rest := { s.cache with handles := s.cache.handles.erase p }
  if rest.strongCount p = 0 ∧ (s.cache.heap p).modified = true then
    .access { s with cache := s.cache.release p } c
  else .next { s with cache := s.cache.release p } c

/-- A program returns a value to what called it. -/
def Kont.resume (s : FileState) : {α : Type} → Kont α → α → Outcome
  | _, .readAt h rest total, (n, _) =>
    if n = 0 then .next (s.unlock .fs) (.read h [] total)
    else .next ((s.unlock .fs).advance h n) (.read h rest (total + n))
  | _, .writeAt h slice rest total, n =>
    if n = slice.length then .next ((s.unlock .fs).advance h n) (.write h rest (total + n))
    else .panic
  | _, .endRead p k rest, g => dropHandle (s.unlock (.block p)) p (.prog (k g) rest)
  | _, .endModify p k rest, (x, g) =>
    dropHandle ({ s with cache := s.cache.modify p fun _ => x }.unlock (.block p)) p (.prog (k g) rest)

/-- `block_cache::get`, up to the device. -/
def getBlock (s : FileState) (t : Task) (b : ℕ) {α : Type} (use : Borrow α) (k : Kont α) : Outcome :=
  if s.locks .manager ≠ none then .spin .manager
  else
    match s.cache.queue.find? fun e => e.1 = b with
    | some e =>
      .next { s with cache := { s.cache with handles := e.2 :: s.cache.handles } } (.locking e.2 use k)
    | none =>
      if s.cache.queue.length = blockCacheSize then
        match s.cache.victim with
        | some i =>
          let s' := { s.lock t .manager with cache := s.cache.evict i }
          -- dropping the evicted block writes it back
          if (s.cache.heap (s.cache.queue.getD i (0, 0)).2).modified then .access s' (.evicted b use k)
          else .access s' (.loaded b use k)
        | none => .panic
      else .access (s.lock t .manager) (.loaded b use k)

/-- The body of a borrow, once the cached block is locked. -/
def Borrow.enter (s : FileState) (t : Task) (p : ℕ) {α : Type} (k : Kont α) : Borrow α → Outcome
  | .read body k' => .next (s.lock t (.block p)) (.prog (body (s.cache.read p)) (.endRead p k' k))
  | .modify body k' => .next (s.lock t (.block p)) (.prog (body (s.cache.read p)) (.endModify p k' k))

/-- The next piece of what a task does. -/
def micro (efs : EasyFileSystem) (s : FileState) (t : Task) : Code → Outcome
  | .read h [] _ => .done (s.unlock (.file h))
  | .read h (slice :: rest) total =>
    if s.locks .fs ≠ none then .spin .fs
    else .next (s.lock t .fs)
      (.prog ((s.files h).inode.readAt (s.files h).offset slice) (.readAt h rest total))
  | .write h [] _ => .done (s.unlock (.file h))
  | .write h (slice :: rest) total =>
    if s.locks .fs ≠ none then .spin .fs
    else .next (s.lock t .fs)
      (.prog ((s.files h).inode.writeAt efs (s.files h).offset slice) (.writeAt h slice rest total))
  | .prog (.pure a) k => k.resume s a
  | .prog (.panic _) _ => .panic
  | .prog (.read b body k') k => getBlock s t b (.read body k') k
  | .prog (.modify b body k') k => getBlock s t b (.modify body k') k
  | .prog (.sync p) k =>
    if s.locks .manager ≠ none then .spin .manager
    else .next (s.lock t .manager) (.syncing (s.cache.queue.map Prod.snd) p k)
  | .evicted b use k => .access s (.loaded b use k)
  | .loaded b use k =>
    .next ({ s with cache := (s.cache.load b).2 }.unlock .manager) (.locking (s.cache.load b).1 use k)
  | .locking p use k =>
    if s.locks (.block p) ≠ none then .spin (.block p) else use.enter s t p k
  | .syncing [] next k => .next (s.unlock .manager) (.prog next k)
  | .syncing (p :: ptrs) next k =>
    if s.locks (.block p) ≠ none then .spin (.block p)
    else if (s.cache.heap p).modified then
      .access ({ s with cache := s.cache.sync p }.lock t (.block p)) (.synced p ptrs next k)
    else .next s (.syncing ptrs next k)
  | .synced p ptrs next k => .next (s.unlock (.block p)) (.syncing ptrs next k)

/-! ### Tasks -/

inductive FileCall where
  | read (h : ℕ) (slices : List (List UInt8))
  | write (h : ℕ) (slices : List (List UInt8))
  deriving DecidableEq, Repr

def FileCall.handle : FileCall → ℕ
  | .read h _ => h
  | .write h _ => h

def FileCall.code : FileCall → Code
  | .read h slices => .read h slices 0
  | .write h slices => .write h slices 0

inductive Mode : Type 1 where
  | user
  | kernel (c : Code)
  /-- blocked in the driver until the device interrupt -/
  | waiting (c : Code)
  /-- woken by the device interrupt -/
  | ready (c : Code)

structure System : Type 1 where
  /-- `DEV_NON_BLOCKING_ACCESS` -/
  nonBlocking : Bool
  files : FileState
  tasks : Task → Mode
  current : Option Task

/-- All tasks in user mode, no lock taken. -/
def System.start (nonBlocking : Bool) (cache : CacheState) (files : ℕ → OSInode) : System where
  nonBlocking := nonBlocking
  files := ⟨cache, fun _ => none, files⟩
  tasks := fun _ => .user
  current := none

/-- One step; file calls are made only when they meet `ok`.  A guard that is taken makes the call panic,
a lock that is taken makes it spin: neither is followed by a step of the task. -/
inductive Step (efs : EasyFileSystem) (ok : System → FileCall → Prop) (s : System) : System → Prop where
  | dispatch {t : Task} (hcur : s.current = none) (ht : s.tasks t = .user) :
      Step efs ok s { s with current := some t }
  | resume {t : Task} {c : Code} (hcur : s.current = none) (ht : s.tasks t = .ready c) :
      Step efs ok s { s with current := some t, tasks := Function.update s.tasks t (.kernel c) }
  | yield {t : Task} (hcur : s.current = some t) (ht : s.tasks t = .user) :
      Step efs ok s { s with current := none }
  | call {t : Task} (call : FileCall) (hcur : s.current = some t) (ht : s.tasks t = .user)
      (hok : ok s call) (hfree : s.files.locks (.file call.handle) = none) :
      Step efs ok s { s with
        files := s.files.lock t (.file call.handle)
        tasks := Function.update s.tasks t (.kernel call.code) }
  | next {t : Task} {c c' : Code} {files : FileState} (hcur : s.current = some t)
      (ht : s.tasks t = .kernel c) (hmicro : micro efs s.files t c = .next files c') :
      Step efs ok s { s with files := files, tasks := Function.update s.tasks t (.kernel c') }
  | access {t : Task} {c c' : Code} {files : FileState} (hcur : s.current = some t)
      (ht : s.tasks t = .kernel c) (hmicro : micro efs s.files t c = .access files c')
      (hmode : s.nonBlocking = false) :
      Step efs ok s { s with files := files, tasks := Function.update s.tasks t (.kernel c') }
  | block {t : Task} {c c' : Code} {files : FileState} (hcur : s.current = some t)
      (ht : s.tasks t = .kernel c) (hmicro : micro efs s.files t c = .access files c')
      (hmode : s.nonBlocking = true) :
      Step efs ok s { s with
        files := files, tasks := Function.update s.tasks t (.waiting c'), current := none }
  | interrupt {t : Task} {c : Code} (ht : s.tasks t = .waiting c) :
      Step efs ok s { s with tasks := Function.update s.tasks t (.ready c) }
  | done {t : Task} {c : Code} {files : FileState} (hcur : s.current = some t)
      (ht : s.tasks t = .kernel c) (hmicro : micro efs s.files t c = .done files) :
      Step efs ok s { s with files := files, tasks := Function.update s.tasks t .user }

inductive Run (efs : EasyFileSystem) (ok : System → FileCall → Prop) (s₀ : System) : System → Prop where
  | start : Run efs ok s₀ s₀
  | step {s s' : System} (h : Run efs ok s₀ s) (hstep : Step efs ok s s') : Run efs ok s₀ s'

end LemonCore.Kernel.FileAccess
