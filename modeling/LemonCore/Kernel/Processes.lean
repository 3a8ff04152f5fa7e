import Mathlib
import LemonCore.Kernel.Ids

/-!
# Processes and threads (`kernel/src/task/`, `kernel/src/syscall/{process,thread}.rs`)

System calls that create, end and collect processes and threads.  The kernel does not switch tasks inside
one of them, so each is one step.  What else the threads of a process do matters only for where they wait:
in the ready queue, on a timer, for a device, or in a wait queue of one of the mutexes, semaphores and
condition variables of their own process, which no other process can reach.

Control blocks are named by numbers that are never used twice (in the code: by reference), so that a reused
`pid` or `tid` can be told from the process or thread that had it before.

* `fork`, `exit`, `waitpid`, `threadCreate`, `waittid`: the code; `none` is a panic or the shutdown;
* `step`: one step of the machine, `Run`: a run with the history of its events.

Left out: address spaces, files and signals.  `exec` changes none of the data here, and is no step.
-/

namespace LemonCore.Kernel.Processes

/-- A process control block. -/
abbrev Proc := ℕ

/-- A task control block. -/
abbrev Thread := ℕ

structure Tcb where
  process : Proc
  /-- the `tid` of its `TaskUserRes`, while it has one -/
  res : Option ℕ
  exitCode : Option ℤ
  deriving DecidableEq

structure Pcb where
  pid : ℕ
  isZombie : Bool
  exitCode : ℤ
  parent : Option Proc
  children : List Proc
  tasks : List (Option Thread)
  taskResAllocator : RecycleAllocator
  deriving DecidableEq

structure State where
  pcbs : Proc → Option Pcb
  tcbs : Thread → Option Tcb
  nextProc : ℕ
  nextThread : ℕ
  pidAllocator : RecycleAllocator
  pid2process : ℕ → Option Proc
  current : Option Thread
  readyQueue : List Thread
  /-- the threads in the timer heap -/
  sleeping : List Thread
  /-- the threads that wait for a device -/
  device : List Thread
  /-- the threads in the wait queues of the objects of a process -/
  waiting : Proc → List Thread

/-- `DAEMON`. -/
def daemon : Proc := 0

/-- `IDLE_PID`. -/
def idlePid : ℕ := 0

inductive WaittidOutcome where
  /-- `-1`: a thread cannot wait for itself -/
  | own
  /-- `-1`: no such thread -/
  | missing
  /-- `-2`: the thread has not exited -/
  | running
  | exited (code : ℤ)
  deriving DecidableEq, Repr

/-- The `i32` that `sys_waittid` returns.  An exit code of -1 or -2 looks like one of the other cases. -/
def WaittidOutcome.result : WaittidOutcome → ℤ
  | .own => -1
  | .missing => -1
  | .running => -2
  | .exited code => code

inductive Event where
  | dispatched (t : Thread)
  | forked (p child : Proc) (pid : ℕ)
  | threadCreated (p : Proc) (tid : ℕ) (t : Thread)
  | threadExited (p : Proc) (tid : ℕ) (t : Thread) (code : ℤ)
  | processExited (p : Proc) (code : ℤ)
  | waitpidReturned (p : Proc) (pid result : ℤ)
  | reaped (p child : Proc) (pid : ℕ) (code : ℤ)
  | waittidReturned (p : Proc) (caller : Thread) (tid : ℕ) (outcome : WaittidOutcome)
  deriving DecidableEq, Repr

abbrev History := List Event

/-! ### The system calls -/

namespace State

variable (s : State)

def setPcb (p : Proc) (pcb : Pcb) : State := { s with pcbs := Function.update s.pcbs p (some pcb) }

def setTcb (t : Thread) (tcb : Tcb) : State := { s with tcbs := Function.update s.tcbs t (some tcb) }

/-- `manager::add`. -/
def add (t : Thread) : State := { s with readyQueue := s.readyQueue ++ [t] }

/-- A new control block for a thread of `p`, in the ready queue. -/
def newThread (p : Proc) (tid : ℕ) : State :=
  { (s.setTcb s.nextThread ⟨p, some tid, none⟩).add s.nextThread with nextThread := s.nextThread + 1 }

end State

/-- `Vec::resize_with(n, || None)`. -/
def resize (tasks : List (Option Thread)) (n : ℕ) : List (Option Thread) :=
  tasks.take n ++ List.replicate (n - tasks.length) none

/-- `ProcessControlBlock::fork`, called by the thread `t`. -/
def fork (s : State) (t : Thread) : Option (State × List Event) := do
  let tcb ← s.tcbs t
  let pcb ← s.pcbs tcb.process
  if pcb.tasks.length ≠ 1 then none
  else
    let (pid, pidAllocator) := s.pidAllocator.alloc
    let child := s.nextProc
    -- the user stack of the child is where the main thread of the parent has its own
    let main ← (pcb.tasks[0]?).join
    let mainTcb ← s.tcbs main
    let _ ← mainTcb.res
    let (tid, taskResAllocator) := RecycleAllocator.new.alloc
    let s' := (s.setPcb tcb.process { pcb with children := pcb.children ++ [child] }).setPcb child
      { pid := pid, isZombie := false, exitCode := 0, parent := some tcb.process, children := [],
        tasks := [some s.nextThread], taskResAllocator := taskResAllocator }
    some ({ s'.newThread child tid with
        nextProc := s.nextProc + 1
        pidAllocator := pidAllocator
        pid2process := Function.update s.pid2process pid (some child) },
      [.forked tcb.process child pid, .threadCreated child tid s.nextThread])

/-- What `ProcessControlBlock::exec`, called by the thread `t`, needs of the data here, which it leaves as
they are: one thread, and its `TaskUserRes`. -/
def exec (s : State) (t : Thread) : Option State := do
  let tcb ← s.tcbs t
  let pcb ← s.pcbs tcb.process
  if pcb.tasks.length ≠ 1 then none
  else
    let main ← (pcb.tasks[0]?).join
    let mainTcb ← s.tcbs main
    let _ ← mainTcb.res
    some s

/-- `sys_thread_create`, called by the thread `t`. -/
def threadCreate (s : State) (t : Thread) : Option (State × List Event) := do
  let tcb ← s.tcbs t
  let pcb ← s.pcbs tcb.process
  let _ ← tcb.res
  let (tid, taskResAllocator) := pcb.taskResAllocator.alloc
  let tasks := (resize pcb.tasks (tid + 1)).set tid (some s.nextThread)
  some ((s.setPcb tcb.process
      { pcb with tasks := tasks, taskResAllocator := taskResAllocator }).newThread tcb.process tid,
    [.threadCreated tcb.process tid s.nextThread])

/-- `sys_waittid`, called by the thread `t`. -/
def waittid (s : State) (t : Thread) (tid : ℕ) : Option (State × List Event) := do
  let tcb ← s.tcbs t
  let pcb ← s.pcbs tcb.process
  let own ← tcb.res
  if own = tid then some (s, [.waittidReturned tcb.process t tid .own])
  else
    match ← pcb.tasks[tid]? with
    | none => some (s, [.waittidReturned tcb.process t tid .missing])
    | some waited =>
      let waitedTcb ← s.tcbs waited
      match waitedTcb.exitCode with
      | none => some (s, [.waittidReturned tcb.process t tid .running])
      | some code =>
        some (s.setPcb tcb.process { pcb with tasks := pcb.tasks.set tid none },
          [.waittidReturned tcb.process t tid (.exited code)])

/-- The child is one that `sys_waitpid(pid, ..)` asks for. -/
def matchesPid (s : State) (pid : ℤ) (child : Proc) : Bool :=
  match s.pcbs child with
  | some pcb => pid = -1 ∨ (pid % 2 ^ 64).toNat = pcb.pid
  | none => false

def isZombie (s : State) (child : Proc) : Bool :=
  match s.pcbs child with
  | some pcb => pcb.isZombie
  | none => false

/-- The children of a process, if it exists. -/
def childrenOf (s : State) (p : Proc) : List Proc :=
  match s.pcbs p with
  | some pcb => pcb.children
  | none => []

/-- The strong references to a control block: those in lists of children and those in `PID2PCB`. -/
def strongCount (s : State) (p : Proc) : ℕ :=
  ((List.range s.nextProc).map fun q => (childrenOf s q).count p).sum +
    (List.range s.pidAllocator.current).countP fun pid => s.pid2process pid = some p

/-- `sys_waitpid`, called by the thread `t`.  The reaped control block is dropped at the end. -/
def waitpid (s : State) (t : Thread) (pid : ℤ) : Option (State × List Event) := do
  let tcb ← s.tcbs t
  let pcb ← s.pcbs tcb.process
  if pcb.children.any (matchesPid s pid) then
    match pcb.children.find? fun child => isZombie s child && matchesPid s pid child with
    | none => some (s, [.waitpidReturned tcb.process pid (-2)])
    | some child =>
      let s' := s.setPcb tcb.process { pcb with
        children := pcb.children.eraseP fun child => isZombie s child && matchesPid s pid child }
      if strongCount s' child ≠ 0 then none
      else
        let childPcb ← s.pcbs child
        let pidAllocator ← s.pidAllocator.dealloc childPcb.pid
        some ({ s' with
            pcbs := Function.update s'.pcbs child none
            pidAllocator := pidAllocator },
          [.waitpidReturned tcb.process pid childPcb.pid,
            .reaped tcb.process child childPcb.pid childPcb.exitCode])
  else some (s, [.waitpidReturned tcb.process pid (-1)])

/-- Dropping the `TaskUserRes` of a thread of `p`: its `tid` is released. -/
def deallocTid (s : State) (p : Proc) (tid : ℕ) : Option State := do
  let pcb ← s.pcbs p
  let taskResAllocator ← pcb.taskResAllocator.dealloc tid
  some (s.setPcb p { pcb with taskResAllocator := taskResAllocator })

/-- The loop of `exit_current_and_run_next` that moves the children to the daemon. -/
def adopt (s : State) : List Proc → State
  | [] => s
  | child :: rest =>
    adopt { s with pcbs := fun q =>
      (s.pcbs q).map fun pcb => { pcb with
        parent := if q = child then some daemon else pcb.parent
        children := if q = daemon then pcb.children ++ [child] else pcb.children } } rest

/-- The loop of `exit_current_and_run_next` that takes the `TaskUserRes` of every thread in the table. -/
def takeRes (s : State) : List (Option Thread) → List ℕ × State
  | [] => ([], s)
  | none :: rest => takeRes s rest
  | some t :: rest =>
    match s.tcbs t with
    | none => takeRes s rest
    | some tcb =>
      let (tids, s') := takeRes (s.setTcb t { tcb with res := none }) rest
      (tcb.res.toList ++ tids, s')

/-- The part of `exit_current_and_run_next` for the main thread of `p`. -/
def exitMain (s : State) (p : Proc) (code : ℤ) : Option State := do
  let pcb ← s.pcbs p
  if pcb.pid = idlePid then none
  else
    let _ ← s.pid2process pcb.pid
    let s := { s with pid2process := Function.update s.pid2process pcb.pid none }
    let s := s.setPcb p { pcb with isZombie := true, exitCode := code }
    let s := adopt s pcb.children
    let (tids, s) := takeRes s pcb.tasks
    let s ← tids.foldlM (fun s tid => deallocTid s p tid) s
    let pcb ← s.pcbs p
    some (s.setPcb p { pcb with children := [], tasks := pcb.tasks.take 1 })

/-- `exit_current_and_run_next`, called by the thread `t`. -/
def exit (s : State) (t : Thread) (code : ℤ) : Option (State × List Event) := do
  let tcb ← s.tcbs t
  let tid ← tcb.res
  let s := { s with current := none }
  let s := s.setTcb t { tcb with res := none, exitCode := some code }
  let s ← deallocTid s tcb.process tid
  if tid = 0 then
    let s ← exitMain s tcb.process code
    some (s, [.threadExited tcb.process tid t code, .processExited tcb.process code])
  else some (s, [.threadExited tcb.process tid t code])

/-! ### The machine -/

inductive Call where
  /-- `sys_yield`, a pipe that is empty or full, a timer trap: back to the ready queue -/
  | yield
  | sleep
  | waitDevice
  /-- wait on a mutex, semaphore or condition variable of the process -/
  | wait
  /-- wake a thread that waits on such an object -/
  | wake (t : Thread)
  | fork
  | exit (code : ℤ)
  | waitpid (pid : ℤ)
  | threadCreate
  | waittid (tid : ℕ)
  deriving DecidableEq, Repr

inductive Action where
  /-- `run_tasks` makes the first thread of the ready queue current -/
  | dispatch
  /-- `check_timer` wakes a thread -/
  | expire (t : Thread)
  /-- a device interrupt wakes a thread -/
  | deviceReady (t : Thread)
  /-- the current thread makes a system call -/
  | call (c : Call)
  deriving DecidableEq, Repr

def call (s : State) (t : Thread) : Call → Option (State × List Event)
  | .yield => some ({ s.add t with current := none }, [])
  | .sleep => some ({ s with sleeping := s.sleeping ++ [t], current := none }, [])
  | .waitDevice => some ({ s with device := s.device ++ [t], current := none }, [])
  | .wait => do
    let tcb ← s.tcbs t
    some ({ s with
      waiting := Function.update s.waiting tcb.process (s.waiting tcb.process ++ [t])
      current := none }, [])
  | .wake w => do
    let tcb ← s.tcbs t
    if w ∈ s.waiting tcb.process then
      some ({ s with
        waiting := Function.update s.waiting tcb.process ((s.waiting tcb.process).erase w)
        readyQueue := s.readyQueue ++ [w] }, [])
    else none
  | .fork => fork s t
  | .exit code => exit s t code
  | .waitpid pid => waitpid s t pid
  | .threadCreate => threadCreate s t
  | .waittid tid => waittid s t tid

def step (s : State) : Action → Option (State × List Event)
  | .dispatch =>
    match s.current, s.readyQueue with
    | none, t :: readyQueue => some ({ s with current := some t, readyQueue := readyQueue }, [.dispatched t])
    | _, _ => none
  | .expire t =>
    if t ∈ s.sleeping then
      some ({ s with sleeping := s.sleeping.erase t, readyQueue := s.readyQueue ++ [t] }, [])
    else none
  | .deviceReady t =>
    if t ∈ s.device then
      some ({ s with device := s.device.erase t, readyQueue := s.readyQueue ++ [t] }, [])
    else none
  | .call c => do
    let t ← s.current
    call s t c

/-- The start: the daemon with its main thread, which is ready. -/
def boot : State where
  pcbs := Function.update (fun _ => none) daemon (some
    { pid := RecycleAllocator.new.alloc.1, isZombie := false, exitCode := 0, parent := none,
      children := [], tasks := [some 0], taskResAllocator := RecycleAllocator.new.alloc.2 })
  tcbs := Function.update (fun _ => none) 0 (some ⟨daemon, some 0, none⟩)
  nextProc := 1
  nextThread := 1
  pidAllocator := RecycleAllocator.new.alloc.2
  pid2process := Function.update (fun _ => none) RecycleAllocator.new.alloc.1 (some daemon)
  current := none
  readyQueue := [0]
  sleeping := []
  device := []
  waiting := fun _ => []

/-- The runs whose actions all meet `ok` in the state where they are taken. -/
inductive Run (ok : State → Action → Prop) : History → State → Prop where
  | start : Run ok [.threadCreated daemon 0 0] boot
  | step {hist events : History} {s s' : State} {action : Action} (h : Run ok hist s)
      (hok : ok s action) (hstep : step s action = some (s', events)) : Run ok (hist ++ events) s'

section

variable (ok : State → Action → Prop) [∀ s action, Decidable (ok s action)]

/-- The history and the state after a list of actions, if each of them is possible and meets `ok`. -/
def play : List Action → History → State → Option (History × State)
  | [], hist, s => some (hist, s)
  | action :: actions, hist, s =>
    if ok s action then do
      let (s', events) ← step s action
      play actions (hist ++ events) s'
    else none

variable {ok}

theorem Run.play {hist' : History} {s' : State} (actions : List Action) :
    ∀ {hist : History} {s : State}, Run ok hist s → play ok actions hist s = some (hist', s') →
      Run ok hist' s' := by
  induction actions with
  | nil =>
    intro hist s hrun h
    cases h
    exact hrun
  | cons action actions ih =>
    intro hist s hrun h
    rw [Processes.play] at h
    split at h
    · rename_i hok
      obtain ⟨⟨s₁, events⟩, hstep, hrest⟩ := Option.bind_eq_some_iff.mp h
      exact ih (hrun.step hok hstep) hrest
    · cases h

variable (ok)

theorem exists_run (P : History → State → Prop) [∀ hist s, Decidable (P hist s)]
    (actions : List Action)
    (h : ((play ok actions [.threadCreated daemon 0 0] boot).any
      fun result => decide (P result.1 result.2)) = true) :
    ∃ hist s, Run ok hist s ∧ P hist s := by
  cases hplay : play ok actions [.threadCreated daemon 0 0] boot with
  | none =>
    rw [hplay] at h
    cases h
  | some result =>
    rw [hplay] at h
    exact ⟨result.1, result.2, Run.start.play actions hplay, of_decide_eq_true h⟩

end

end LemonCore.Kernel.Processes
