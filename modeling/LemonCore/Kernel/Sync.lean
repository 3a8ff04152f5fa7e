import Mathlib
import LemonCore.Kernel.PipeBuffer

/-!
# The objects tasks wait on (`kernel/src/sync/`, `kernel/src/fs/pipe.rs`)

Mutexes of both kinds, semaphores, condition variables and pipes, each with the code that runs inside one
`exclusive_access` of it.  A section does not switch tasks: it says what is to happen when the access is
released.  `none` is a panic.
-/

namespace LemonCore.Kernel

/-- A thread; `Arc<TaskControlBlock>` in the code. -/
abbrev Task := ℕ

/-! ### Mutexes -/

/-- `dyn Mutex`. -/
inductive Mutex where
  | spin (locked : Bool)
  | blocking (locked : Bool) (waitQueue : List Task)
  deriving DecidableEq, Repr

/-- What `lock` does when it leaves its critical section. -/
inductive LockOutcome where
  /-- the lock is taken, `lock` returns -/
  | returned
  /-- `suspend_current_and_run_next`, then try again -/
  | suspended
  /-- `block_current_and_run_next`, then return -/
  | blocked
  deriving DecidableEq, Repr

namespace Mutex

/-- `Spin::new` and `Blocking::new`. -/
def new (isBlocking : Bool) : Mutex := if isBlocking then blocking false [] else spin false

def locked : Mutex → Bool
  | spin locked => locked
  | blocking locked _ => locked

def waitQueue : Mutex → List Task
  | spin _ => []
  | blocking _ waitQueue => waitQueue

/-- The critical section of `Spin::lock` and of `Blocking::lock`. -/
def lock (current : Option Task) : Mutex → Option (LockOutcome × Mutex)
  | spin true => some (.suspended, spin true)
  | spin false => some (.returned, spin true)
  | blocking true waitQueue => do
    let task ← current
    some (.blocked, blocking true (waitQueue ++ [task]))
  | blocking false waitQueue => some (.returned, blocking true waitQueue)

/-- `Spin::unlock` and `Blocking::unlock`, with the task to wake up. -/
def unlock : Mutex → Option (Option Task × Mutex)
  | spin _ => some (none, spin false)
  | blocking false _ => none
  | blocking true (task :: waitQueue) => some (some task, blocking true waitQueue)
  | blocking true [] => some (none, blocking false [])

@[simp] theorem locked_new (isBlocking : Bool) : (new isBlocking).locked = false := by
  cases isBlocking <;> rfl

@[simp] theorem waitQueue_new (isBlocking : Bool) : (new isBlocking).waitQueue = [] := by
  cases isBlocking <;> rfl

theorem lock_cases {current : Option Task} {mutex mutex' : Mutex} {outcome : LockOutcome}
    (h : mutex.lock current = some (outcome, mutex')) :
    (outcome = .returned ∧ mutex.locked = false ∧ mutex'.locked = true ∧
      mutex'.waitQueue = mutex.waitQueue) ∨
    (outcome = .suspended ∧ mutex' = mutex) ∨
    (∃ task, outcome = .blocked ∧ current = some task ∧ mutex.locked = true ∧ mutex'.locked = true ∧
      mutex'.waitQueue = mutex.waitQueue ++ [task]) := by
  cases mutex with
  | spin isLocked =>
    cases isLocked with
    | false =>
      cases h
      exact Or.inl ⟨rfl, rfl, rfl, rfl⟩
    | true =>
      cases h
      exact Or.inr (Or.inl ⟨rfl, rfl⟩)
  | blocking isLocked queue =>
    cases isLocked with
    | false =>
      cases h
      exact Or.inl ⟨rfl, rfl, rfl, rfl⟩
    | true =>
      cases current with
      | none => cases h
      | some task =>
        cases h
        exact Or.inr (Or.inr ⟨task, rfl, rfl, rfl, rfl, rfl⟩)

/-- What `unlock` can do: hand the lock to the first waiting task, or free it. -/
theorem unlock_cases {mutex mutex' : Mutex} {woken : Option Task}
    (h : mutex.unlock = some (woken, mutex')) :
    (woken = none ∧ mutex.waitQueue = [] ∧ mutex'.locked = false ∧ mutex'.waitQueue = []) ∨
    (∃ task, woken = some task ∧ mutex.waitQueue = task :: mutex'.waitQueue ∧ mutex.locked = true ∧
      mutex'.locked = true) := by
  cases mutex with
  | spin isLocked =>
    cases h
    exact Or.inl ⟨rfl, rfl, rfl, rfl⟩
  | blocking isLocked queue =>
    cases isLocked with
    | false => cases h
    | true =>
      cases queue with
      | nil =>
        cases h
        exact Or.inl ⟨rfl, rfl, rfl, rfl⟩
      | cons task queue =>
        cases h
        exact Or.inr ⟨task, rfl, rfl, rfl, rfl⟩

end Mutex

/-! ### Semaphores -/

/-- The value of an `isize` computation: the kernel is built without overflow checks, so it wraps. -/
def wrapIsize (x : ℤ) : ℤ := Int.bmod x (2 ^ 64)

/-- `isize::MAX`. -/
def isizeMax : ℤ := 2 ^ 63 - 1

structure Semaphore where
  count : ℤ
  waitQueue : List Task
  deriving DecidableEq, Repr

namespace Semaphore

/-- `Semaphore::new`; the argument is cast to `isize`. -/
def new (resCount : ℕ) : Semaphore := ⟨wrapIsize resCount, []⟩

/-- `Semaphore::up`, with the task to wake up. -/
def up (s : Semaphore) : Option Task × Semaphore :=
  let count := wrapIsize (s.count + 1)
  if count ≤ 0 then
    match s.waitQueue with
    | task :: waitQueue => (some task, ⟨count, waitQueue⟩)
    | [] => (none, ⟨count, []⟩)
  else (none, ⟨count, s.waitQueue⟩)

/-- The critical section of `Semaphore::down`; `true`: the task blocks. -/
def down (current : Option Task) (s : Semaphore) : Option (Bool × Semaphore) :=
  let count := wrapIsize (s.count - 1)
  if count < 0 then do
    let task ← current
    some (true, ⟨count, s.waitQueue ++ [task]⟩)
  else some (false, ⟨count, s.waitQueue⟩)

theorem up_queue (s : Semaphore) :
    ((s.up).1 = none ∧ (s.up).2.waitQueue = s.waitQueue) ∨
    (∃ task, (s.up).1 = some task ∧ s.waitQueue = task :: (s.up).2.waitQueue) := by
  rw [up]
  by_cases hcount : wrapIsize (s.count + 1) ≤ 0
  · rw [if_pos hcount]
    cases hq : s.waitQueue with
    | nil => exact Or.inl ⟨rfl, rfl⟩
    | cons task queue => exact Or.inr ⟨task, rfl, rfl⟩
  · rw [if_neg hcount]
    exact Or.inl ⟨rfl, rfl⟩

theorem down_cases {current : Option Task} {s s' : Semaphore} {blocks : Bool}
    (h : s.down current = some (blocks, s')) :
    s'.count = wrapIsize (s.count - 1) ∧
    ((blocks = false ∧ 0 ≤ s'.count ∧ s'.waitQueue = s.waitQueue) ∨
     (∃ task, blocks = true ∧ current = some task ∧ s'.count < 0 ∧
      s'.waitQueue = s.waitQueue ++ [task])) := by
  rw [down] at h
  by_cases hcount : wrapIsize (s.count - 1) < 0
  · simp only [if_pos hcount] at h
    cases current with
    | none => cases h
    | some task =>
      cases h
      exact ⟨rfl, Or.inr ⟨task, rfl, rfl, hcount, rfl⟩⟩
  · simp only [if_neg hcount] at h
    cases h
    exact ⟨rfl, Or.inl ⟨rfl, not_lt.mp hcount, rfl⟩⟩

end Semaphore

/-! ### Condition variables -/

structure Condvar where
  waitQueue : List Task
  deriving DecidableEq, Repr

namespace Condvar

/-- `Condvar::signal`, with the task to wake up. -/
def signal (c : Condvar) : Option Task × Condvar :=
  match c.waitQueue with
  | task :: waitQueue => (some task, ⟨waitQueue⟩)
  | [] => (none, ⟨[]⟩)

/-- The session of `Condvar::wait_with_mutex` that queues the current task. -/
def enqueue (current : Option Task) (c : Condvar) : Option Condvar := do
  let task ← current
  some ⟨c.waitQueue ++ [task]⟩

theorem signal_cases (c : Condvar) :
    ((c.signal).1 = none ∧ c.waitQueue = [] ∧ (c.signal).2.waitQueue = []) ∨
    (∃ task, (c.signal).1 = some task ∧ c.waitQueue = task :: (c.signal).2.waitQueue) := by
  rw [signal]
  cases c.waitQueue with
  | nil => exact Or.inl ⟨rfl, rfl, rfl⟩
  | cons task queue => exact Or.inr ⟨task, rfl, rfl⟩

end Condvar

/-! ### Pipes -/

/-- A pipe: its ring buffer and the strong references to its write end.  These are the entries of file
descriptor tables (`writeFds`) and the clones that a `sys_write` in progress holds (`writing`). -/
structure Pipe where
  ring : PipeRingBuffer
  writeFds : ℕ
  writing : List Task

namespace Pipe

/-- `pipe::make`, with the write end in one descriptor table. -/
def make : Pipe := ⟨.new, 1, []⟩

/-- The strong count of the write end. -/
def writeEnds (p : Pipe) : ℕ := p.writeFds + p.writing.length

/-- `all_write_ends_closed`. -/
def allWriteEndsClosed (p : Pipe) : Bool := p.writeEnds = 0

end Pipe

end LemonCore.Kernel
