import LemonCore.Kernel.Sync

/-!
# The scheduling core as a machine (`kernel/src/task/`, `kernel/src/timer.rs`)

One hart runs one task at a time.  Kernel code is a sequence of critical sections, each inside an
`exclusive_access` that masks interrupts; between two of them a timer interrupt may run `check_timer`,
and nothing else.  The hart changes tasks only in `schedule` and in the idle loop `run_tasks`.

* `KernelState`: the data of the kernel; `Pc`: the section a task is about to run;
* `exec`: one section of a system call;
* `Step`: what can happen next, and `Run`: a run with the history of its events.

A task in user mode may make any system call at any time, restricted only by the parameter `ok` of a run.
A timer trap from user mode is an interrupt followed by `yield`.
-/

namespace LemonCore.Kernel

inductive Status where
  | ready
  | running
  | blocked
  deriving DecidableEq, Repr

structure KernelState where
  /-- `Processor::current` -/
  current : Option Task
  readyQueue : List Task
  status : Task → Status
  /-- the heap of `TimeCondVar`s: when to wake whom -/
  timers : List (ℕ × Task)
  /-- what `get_time_ms` reads -/
  timeMs : ℕ
  mutexes : ℕ → Mutex
  semaphores : ℕ → Semaphore
  condvars : ℕ → Condvar
  pipes : ℕ → Pipe

/-- The system calls that may make a task wait, and those that end such a wait. -/
inductive Call where
  | yield
  | sleep (ms : ℕ)
  | mutexLock (m : ℕ)
  | mutexUnlock (m : ℕ)
  | semaphoreUp (s : ℕ)
  | semaphoreDown (s : ℕ)
  | condvarSignal (c : ℕ)
  | condvarWait (c m : ℕ)
  | pipeRead (p want : ℕ)
  | pipeWrite (p want : ℕ)
  /-- one more descriptor of the write end: `sys_dup`, or the table copied by a fork -/
  | dupWriteEnd (p : ℕ)
  | closeWriteEnd (p : ℕ)
  deriving DecidableEq, Repr

/-- Who called `lock`: the system call, or `wait_with_mutex` at its end. -/
inductive LockCaller where
  | syscall
  | wait (c : ℕ)
  deriving DecidableEq, Repr

/-- The points at which a task that gave up the hart goes on. -/
inductive Resume where
  | user
  | lock (m : ℕ) (caller : LockCaller)
  | lockReturn (m : ℕ) (caller : LockCaller)
  | downReturn (s : ℕ)
  | pipeRead (p want done : ℕ)
  | pipeWrite (p want done : ℕ)
  deriving DecidableEq, Repr

/-- The next section of the task on the hart. -/
inductive Pc where
  | resume (point : Resume)
  | unlock (m : ℕ)
  | up (s : ℕ)
  | down (s : ℕ)
  | signal (c : ℕ)
  | waitUnlock (c m : ℕ)
  | waitEnqueue (c m : ℕ)
  | sleep (ms : ℕ)
  | sleepCurrent (expireMs : ℕ)
  | addTimer (expireMs : ℕ) (task : Task)
  | pipeWriteStart (p want : ℕ)
  | pipeWriteEnd (p : ℕ)
  | dupWriteEnd (p : ℕ)
  | closeWriteEnd (p : ℕ)
  -- `suspend_current_and_run_next`
  | suspendTake (point : Resume)
  | suspendStatus (task : Task) (point : Resume)
  | suspendAdd (task : Task) (point : Resume)
  -- `block_current_and_run_next`
  | blockTake (point : Resume)
  | blockStatus (task : Task) (point : Resume)
  -- `schedule`: the switch to the idle loop
  | schedule (task : Task) (point : Resume)
  deriving DecidableEq, Repr

/-- Where a system call starts. -/
def Call.entry : Call → Pc
  | yield => .suspendTake .user
  | sleep ms => .sleep ms
  | mutexLock m => .resume (.lock m .syscall)
  | mutexUnlock m => .unlock m
  | semaphoreUp s => .up s
  | semaphoreDown s => .down s
  | condvarSignal c => .signal c
  | condvarWait c m => .waitUnlock c m
  | pipeRead p want => .resume (.pipeRead p want 0)
  | pipeWrite p want => .pipeWriteStart p want
  | dupWriteEnd p => .dupWriteEnd p
  | closeWriteEnd p => .closeWriteEnd p

/-- What a history records, each with the task that did it. -/
inductive Event where
  | called (call : Call)
  | lockBlocked (m : ℕ)
  | lockReturned (m : ℕ) (waited : Bool)
  | unlocked (m : ℕ) (woken : Option Task)
  | downPassed (s : ℕ)
  | downBlocked (s : ℕ)
  | downReturned (s : ℕ)
  | upped (s : ℕ) (woken : Option Task)
  | waitReleased (c m : ℕ)
  | waitReturned (c m : ℕ)
  | signalled (c : ℕ) (woken : Option Task)
  | put (p : ℕ) (bytes : List UInt8)
  | got (p : ℕ) (bytes : List UInt8)
  | readReturned (p want n : ℕ)
  | writeReturned (p want n : ℕ)
  | writeEndOpened (p : ℕ)
  | writeEndClosed (p : ℕ)
  deriving DecidableEq, Repr

abbrev History := List (Task × Event)

/-! ### One section -/

namespace KernelState

variable (k : KernelState)

def setMutex (m : ℕ) (mutex : Mutex) : KernelState := { k with mutexes := Function.update k.mutexes m mutex }

def setSemaphore (s : ℕ) (semaphore : Semaphore) : KernelState :=
  { k with semaphores := Function.update k.semaphores s semaphore }

def setCondvar (c : ℕ) (condvar : Condvar) : KernelState :=
  { k with condvars := Function.update k.condvars c condvar }

def setPipe (p : ℕ) (pipe : Pipe) : KernelState := { k with pipes := Function.update k.pipes p pipe }

def setStatus (task : Task) (status : Status) : KernelState :=
  { k with status := Function.update k.status task status }

/-- `manager::add`. -/
def add (task : Task) : KernelState := { k with readyQueue := k.readyQueue ++ [task] }

/-- `manager::wakeup`, of the task that an operation popped from a wait queue, if any. -/
def wakeup : Option Task → KernelState
  | some task => (k.setStatus task .ready).add task
  | none => k

/-- `timer::add_timer`. -/
def addTimer (expireMs : ℕ) (task : Task) : KernelState :=
  { k with timers := k.timers ++ [(expireMs, task)] }

end KernelState

/-- `lock` returns, and with it `wait_with_mutex` if that called it. -/
def lockReturns (m : ℕ) (waited : Bool) : LockCaller → List Event
  | .syscall => [.lockReturned m waited]
  | .wait c => [.lockReturned m waited, .waitReturned c m]

/-- One iteration of the loop of `Pipe::read`. -/
def execPipeRead (p want done : ℕ) (k : KernelState) : KernelState × Pc × List Event :=
  let pipe := k.pipes p
  let available := pipe.ring.availableToRead
  if available = 0 then
    if pipe.allWriteEndsClosed then (k, .resume .user, [.readReturned p want done])
    else (k, .suspendTake (.pipeRead p want done), [])
  else
    let (bytes, ring, done, returns) := PipeRingBuffer.drain available want done pipe.ring
    let k := k.setPipe p { pipe with ring := ring }
    if returns then (k, .resume .user, [.got p bytes, .readReturned p want done])
    else (k, .resume (.pipeRead p want done), [.got p bytes])

/-- One iteration of the loop of `Pipe::write`; `buf` is the buffer of the user. -/
def execPipeWrite (buf : ℕ → UInt8) (p want done : ℕ) (k : KernelState) : KernelState × Pc × List Event :=
  let pipe := k.pipes p
  let available := pipe.ring.availableToWrite
  if available = 0 then (k, .suspendTake (.pipeWrite p want done), [])
  else
    let (bytes, ring, done, returns) := PipeRingBuffer.fill buf available want done pipe.ring
    let k := k.setPipe p { pipe with ring := ring }
    if returns then (k, .pipeWriteEnd p, [.put p bytes, .writeReturned p want done])
    else (k, .resume (.pipeWrite p want done), [.put p bytes])

/-- The section at `pc`: the kernel after it, where the task goes on, and what is recorded.  `none` is a
panic; in user mode and at the switch there is no section. -/
def exec (buf : ℕ → UInt8) (k : KernelState) : Pc → Option (KernelState × Pc × List Event)
  | .resume .user => none
  | .resume (.lock m caller) => do
    let (outcome, mutex) ← (k.mutexes m).lock k.current
    let k := k.setMutex m mutex
    match outcome with
    | .returned => some (k, .resume .user, lockReturns m false caller)
    | .suspended => some (k, .suspendTake (.lock m caller), [])
    | .blocked => some (k, .blockTake (.lockReturn m caller), [.lockBlocked m])
  | .resume (.lockReturn m caller) => some (k, .resume .user, lockReturns m true caller)
  | .resume (.downReturn s) => some (k, .resume .user, [.downReturned s])
  | .resume (.pipeRead p want done) => some (execPipeRead p want done k)
  | .resume (.pipeWrite p want done) => some (execPipeWrite buf p want done k)
  | .unlock m => do
    let (woken, mutex) ← (k.mutexes m).unlock
    some ((k.setMutex m mutex).wakeup woken, .resume .user, [.unlocked m woken])
  | .up s =>
    let (woken, semaphore) := (k.semaphores s).up
    some ((k.setSemaphore s semaphore).wakeup woken, .resume .user, [.upped s woken])
  | .down s => do
    let (blocks, semaphore) ← (k.semaphores s).down k.current
    let k := k.setSemaphore s semaphore
    if blocks then some (k, .blockTake (.downReturn s), [.downBlocked s])
    else some (k, .resume .user, [.downPassed s])
  | .signal c =>
    let (woken, condvar) := (k.condvars c).signal
    some ((k.setCondvar c condvar).wakeup woken, .resume .user, [.signalled c woken])
  | .waitUnlock c m => do
    let (woken, mutex) ← (k.mutexes m).unlock
    some ((k.setMutex m mutex).wakeup woken, .waitEnqueue c m,
      [.unlocked m woken, .waitReleased c m])
  | .waitEnqueue c m => do
    let condvar ← (k.condvars c).enqueue k.current
    some (k.setCondvar c condvar, .blockTake (.lock m (.wait c)), [])
  | .sleep ms => some (k, .sleepCurrent ((k.timeMs + ms) % 2 ^ 64), [])
  | .sleepCurrent expireMs => do
    let task ← k.current
    some (k, .addTimer expireMs task, [])
  | .addTimer expireMs task => some (k.addTimer expireMs task, .blockTake .user, [])
  | .pipeWriteStart p want => do
    let task ← k.current
    let pipe := k.pipes p
    if pipe.writeFds = 0 then some (k, .resume .user, [])
    else some (k.setPipe p { pipe with writing := task :: pipe.writing },
      .resume (.pipeWrite p want 0), [.writeEndOpened p])
  | .pipeWriteEnd p => do
    let task ← k.current
    let pipe := k.pipes p
    some (k.setPipe p { pipe with writing := pipe.writing.erase task }, .resume .user,
      [.writeEndClosed p])
  | .dupWriteEnd p =>
    let pipe := k.pipes p
    if pipe.writeFds = 0 then some (k, .resume .user, [])
    else some (k.setPipe p { pipe with writeFds := pipe.writeFds + 1 }, .resume .user,
      [.writeEndOpened p])
  | .closeWriteEnd p =>
    let pipe := k.pipes p
    if pipe.writeFds = 0 then some (k, .resume .user, [])
    else some (k.setPipe p { pipe with writeFds := pipe.writeFds - 1 }, .resume .user,
      [.writeEndClosed p])
  | .suspendTake point => do
    let task ← k.current
    some ({ k with current := none }, .suspendStatus task point, [])
  | .suspendStatus task point => some (k.setStatus task .ready, .suspendAdd task point, [])
  | .suspendAdd task point => some (k.add task, .schedule task point, [])
  | .blockTake point => do
    let task ← k.current
    some ({ k with current := none }, .blockStatus task point, [])
  | .blockStatus task point => some (k.setStatus task .blocked, .schedule task point, [])
  | .schedule _ _ => none

/-! ### The timer -/

/-- `check_timer`: as long as the earliest timer has expired, its task is woken and the timer removed.
Which of several timers of one time the heap yields first is left open. -/
inductive CheckTimer : KernelState → KernelState → Prop where
  | done {k : KernelState} (h : ∀ timer ∈ k.timers, k.timeMs < timer.1) : CheckTimer k k
  | pop {k k' : KernelState} {before after : List (ℕ × Task)} {expireMs : ℕ} {task : Task}
      (htimers : k.timers = before ++ (expireMs, task) :: after)
      (hearliest : ∀ timer ∈ k.timers, expireMs ≤ timer.1) (hexpired : expireMs ≤ k.timeMs)
      (rest : CheckTimer ({ k with timers := before ++ after }.wakeup (some task)) k') : CheckTimer k k'

/-! ### The machine -/

/-- What the hart does: it is in the idle loop, has fetched a task there, or runs a task. -/
inductive Cpu where
  | idle
  | fetched (task : Task)
  | running (task : Task) (pc : Pc)
  deriving DecidableEq, Repr

structure System where
  kernel : KernelState
  cpu : Cpu
  /-- the `task_cx` of each task that is not on the hart -/
  saved : Task → Resume

/-- What can happen next, given what happened so far. -/
inductive Step (ok : History → Task → Call → Prop) (hist : History) (s : System) :
    History → System → Prop where
  | call {t : Task} {c : Call} (hcpu : s.cpu = .running t (.resume .user)) (hok : ok hist t c) :
      Step ok hist s [(t, .called c)] { s with cpu := .running t c.entry }
  | exec {t : Task} {pc pc' : Pc} {k' : KernelState} {events : List Event} (buf : ℕ → UInt8)
      (hcpu : s.cpu = .running t pc) (hexec : exec buf s.kernel pc = some (k', pc', events)) :
      Step ok hist s (events.map (Prod.mk t)) { s with kernel := k', cpu := .running t pc' }
  | switch {t task : Task} {point : Resume} (hcpu : s.cpu = .running t (.schedule task point)) :
      Step ok hist s [] { s with cpu := .idle, saved := Function.update s.saved task point }
  | fetch {task : Task} {readyQueue : List Task} (hcpu : s.cpu = .idle)
      (hready : s.kernel.readyQueue = task :: readyQueue) :
      Step ok hist s [] { s with
        kernel := { s.kernel with readyQueue := readyQueue }, cpu := .fetched task }
  | start {task : Task} (hcpu : s.cpu = .fetched task) :
      Step ok hist s [] { s with
        kernel := { s.kernel.setStatus task .running with current := some task }
        cpu := .running task (.resume (s.saved task)) }
  | interrupt {k' : KernelState} (h : CheckTimer s.kernel k') :
      Step ok hist s [] { s with kernel := k' }
  | tick (ms : ℕ) :
      Step ok hist s [] { s with kernel := { s.kernel with timeMs := s.kernel.timeMs + ms } }

/-- The start: `tasks` are ready, in user mode, and every object is new. -/
def System.boot (tasks : List Task) (isBlocking : ℕ → Bool) (resCount : ℕ → ℕ) : System where
  kernel :=
    { current := none
      readyQueue := tasks
      status := fun _ => .ready
      timers := []
      timeMs := 0
      mutexes := fun m => .new (isBlocking m)
      semaphores := fun s => .new (resCount s)
      condvars := fun _ => ⟨[]⟩
      pipes := fun _ => .make }
  cpu := .idle
  saved := fun _ => .user

/-- The runs from `s₀` whose calls meet `ok`, with their histories. -/
inductive Run (ok : History → Task → Call → Prop) (s₀ : System) : History → System → Prop where
  | start : Run ok s₀ [] s₀
  | step {hist events : History} {s s' : System} (h : Run ok s₀ hist s)
      (hstep : Step ok hist s events s') : Run ok s₀ (hist ++ events) s'

end LemonCore.Kernel
