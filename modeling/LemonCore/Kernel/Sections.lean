import LemonCore.Kernel.Machine

/-!
# What one section can do

`Section t k pc k' pc' events` lists everything that the section at `pc` can do when the task `t` runs
it: one case for each way through the code, with what its tests found.  Every invariant of the machine is
proved from these cases (`exec_section`), never from `exec` itself.
-/

namespace LemonCore.Kernel

namespace Pc

/-- The task has been taken out of `Processor::current`. -/
def taken : Pc → Bool
  | suspendStatus _ _ | suspendAdd _ _ | blockStatus _ _ | schedule _ _ => true
  | _ => false

/-- The task that a section names is `t`. -/
def Of (t : Task) : Pc → Prop
  | addTimer _ task | suspendStatus task _ | suspendAdd task _ | blockStatus task _
  | schedule task _ => task = t
  | _ => True

end Pc

/-- What `Processor::current` holds. -/
def Cpu.current : Cpu → Option Task
  | running t pc => if pc.taken then none else some t
  | _ => none

/-- `unlock` turns `mutex` into `mutex'` and wakes `woken`. -/
inductive Unlocks (mutex : Mutex) : Option Task → Mutex → Prop where
  | free {mutex' : Mutex} (hq : mutex.waitQueue = []) (hfree : mutex'.locked = false)
      (hq' : mutex'.waitQueue = []) : Unlocks mutex none mutex'
  | hand {mutex' : Mutex} (task : Task) (hq : mutex.waitQueue = task :: mutex'.waitQueue)
      (hlocked : mutex.locked = true) (hlocked' : mutex'.locked = true) : Unlocks mutex (some task) mutex'

/-- The sections of the task `t`, by what their tests found. -/
inductive Section (t : Task) (k : KernelState) : Pc → KernelState → Pc → List Event → Prop where
  | lockTaken {m : ℕ} {caller : LockCaller} {mutex : Mutex} (hfree : (k.mutexes m).locked = false)
      (hlocked : mutex.locked = true) (hq : mutex.waitQueue = (k.mutexes m).waitQueue) :
      Section t k (.resume (.lock m caller)) (k.setMutex m mutex) (.resume .user)
        (lockReturns m false caller)
  | lockRetry {m : ℕ} {caller : LockCaller} :
      Section t k (.resume (.lock m caller)) k (.suspendTake (.lock m caller)) []
  | lockBlocked {m : ℕ} {caller : LockCaller} {mutex : Mutex} (hheld : (k.mutexes m).locked = true)
      (hlocked : mutex.locked = true) (hq : mutex.waitQueue = (k.mutexes m).waitQueue ++ [t]) :
      Section t k (.resume (.lock m caller)) (k.setMutex m mutex)
        (.blockTake (.lockReturn m caller)) [.lockBlocked m]
  | lockReturn {m : ℕ} {caller : LockCaller} :
      Section t k (.resume (.lockReturn m caller)) k (.resume .user) (lockReturns m true caller)
  | unlock {m : ℕ} {woken : Option Task} {mutex : Mutex} (h : Unlocks (k.mutexes m) woken mutex) :
      Section t k (.unlock m) ((k.setMutex m mutex).wakeup woken) (.resume .user) [.unlocked m woken]
  | waitUnlock {c m : ℕ} {woken : Option Task} {mutex : Mutex} (h : Unlocks (k.mutexes m) woken mutex) :
      Section t k (.waitUnlock c m) ((k.setMutex m mutex).wakeup woken) (.waitEnqueue c m)
        [.unlocked m woken, .waitReleased c m]
  | waitEnqueue {c m : ℕ} :
      Section t k (.waitEnqueue c m) (k.setCondvar c ⟨(k.condvars c).waitQueue ++ [t]⟩)
        (.blockTake (.lock m (.wait c))) []
  | signal {c : ℕ} :
      Section t k (.signal c) ((k.setCondvar c (k.condvars c).signal.2).wakeup (k.condvars c).signal.1)
        (.resume .user) [.signalled c (k.condvars c).signal.1]
  | up {s : ℕ} :
      Section t k (.up s) ((k.setSemaphore s (k.semaphores s).up.2).wakeup (k.semaphores s).up.1)
        (.resume .user) [.upped s (k.semaphores s).up.1]
  | downPassed {s : ℕ} {semaphore : Semaphore}
      (hcount : semaphore.count = wrapIsize ((k.semaphores s).count - 1)) (hpos : 0 ≤ semaphore.count)
      (hq : semaphore.waitQueue = (k.semaphores s).waitQueue) :
      Section t k (.down s) (k.setSemaphore s semaphore) (.resume .user) [.downPassed s]
  | downBlocked {s : ℕ} {semaphore : Semaphore}
      (hcount : semaphore.count = wrapIsize ((k.semaphores s).count - 1)) (hneg : semaphore.count < 0)
      (hq : semaphore.waitQueue = (k.semaphores s).waitQueue ++ [t]) :
      Section t k (.down s) (k.setSemaphore s semaphore) (.blockTake (.downReturn s)) [.downBlocked s]
  | downReturn {s : ℕ} : Section t k (.resume (.downReturn s)) k (.resume .user) [.downReturned s]
  | sleep {ms expireMs : ℕ} : Section t k (.sleep ms) k (.sleepCurrent expireMs) []
  | sleepCurrent {expireMs : ℕ} : Section t k (.sleepCurrent expireMs) k (.addTimer expireMs t) []
  | addTimer {expireMs : ℕ} :
      Section t k (.addTimer expireMs t) (k.addTimer expireMs t) (.blockTake .user) []
  | readWait {p want done : ℕ} (hempty : (k.pipes p).ring.availableToRead = 0)
      (hopen : (k.pipes p).writeEnds ≠ 0) :
      Section t k (.resume (.pipeRead p want done)) k (.suspendTake (.pipeRead p want done)) []
  | readEnd {p want done : ℕ} (hempty : (k.pipes p).ring.availableToRead = 0)
      (hclosed : (k.pipes p).writeEnds = 0) :
      Section t k (.resume (.pipeRead p want done)) k (.resume .user) [.readReturned p want done]
  | read {p want done : ℕ} {bytes : List UInt8} {ring : PipeRingBuffer} {done' : ℕ} {returns : Bool}
      (h : PipeRingBuffer.drain (k.pipes p).ring.availableToRead want done (k.pipes p).ring =
        (bytes, ring, done', returns)) :
      Section t k (.resume (.pipeRead p want done)) (k.setPipe p { k.pipes p with ring := ring })
        (if returns then .resume .user else .resume (.pipeRead p want done'))
        (.got p bytes :: if returns then [.readReturned p want done'] else [])
  | writeWait {p want done : ℕ} :
      Section t k (.resume (.pipeWrite p want done)) k (.suspendTake (.pipeWrite p want done)) []
  | write {p want done : ℕ} {buf : ℕ → UInt8} {bytes : List UInt8} {ring : PipeRingBuffer} {done' : ℕ}
      {returns : Bool}
      (h : PipeRingBuffer.fill buf (k.pipes p).ring.availableToWrite want done (k.pipes p).ring =
        (bytes, ring, done', returns)) :
      Section t k (.resume (.pipeWrite p want done)) (k.setPipe p { k.pipes p with ring := ring })
        (if returns then .pipeWriteEnd p else .resume (.pipeWrite p want done'))
        (.put p bytes :: if returns then [.writeReturned p want done'] else [])
  | writeStart {p want : ℕ} (hopen : (k.pipes p).writeFds ≠ 0) :
      Section t k (.pipeWriteStart p want)
        (k.setPipe p { k.pipes p with writing := t :: (k.pipes p).writing })
        (.resume (.pipeWrite p want 0)) [.writeEndOpened p]
  | writeDrop {p : ℕ} :
      Section t k (.pipeWriteEnd p)
        (k.setPipe p { k.pipes p with writing := (k.pipes p).writing.erase t }) (.resume .user)
        [.writeEndClosed p]
  | dup {p : ℕ} (hopen : (k.pipes p).writeFds ≠ 0) :
      Section t k (.dupWriteEnd p)
        (k.setPipe p { k.pipes p with writeFds := (k.pipes p).writeFds + 1 }) (.resume .user)
        [.writeEndOpened p]
  | close {p : ℕ} (hopen : (k.pipes p).writeFds ≠ 0) :
      Section t k (.closeWriteEnd p)
        (k.setPipe p { k.pipes p with writeFds := (k.pipes p).writeFds - 1 }) (.resume .user)
        [.writeEndClosed p]
  | badFd {pc : Pc} {p : ℕ} (hpc : (∃ want, pc = .pipeWriteStart p want) ∨ pc = .dupWriteEnd p ∨
      pc = .closeWriteEnd p) : Section t k pc k (.resume .user) []
  | suspendTake {point : Resume} :
      Section t k (.suspendTake point) { k with current := none } (.suspendStatus t point) []
  | suspendStatus {point : Resume} :
      Section t k (.suspendStatus t point) (k.setStatus t .ready) (.suspendAdd t point) []
  | suspendAdd {point : Resume} :
      Section t k (.suspendAdd t point) (k.add t) (.schedule t point) []
  | blockTake {point : Resume} :
      Section t k (.blockTake point) { k with current := none } (.blockStatus t point) []
  | blockStatus {point : Resume} :
      Section t k (.blockStatus t point) (k.setStatus t .blocked) (.schedule t point) []

section

variable {t : Task} {k k' : KernelState} {pc pc' : Pc} {events : List Event} {buf : ℕ → UInt8}

theorem unlocks_of_unlock {mutex mutex' : Mutex} {woken : Option Task}
    (h : mutex.unlock = some (woken, mutex')) : Unlocks mutex woken mutex' := by
  rcases Mutex.unlock_cases h with ⟨hwoken, hq, hfree, hq'⟩ | ⟨task, hwoken, hq, hlocked, hlocked'⟩
  · subst hwoken
    exact .free hq hfree hq'
  · subst hwoken
    exact .hand task hq hlocked hlocked'

private theorem section_lock {m : ℕ} {caller : LockCaller}
    (hexec : exec buf k (.resume (.lock m caller)) = some (k', pc', events))
    (hcur : k.current = some t) : Section t k (.resume (.lock m caller)) k' pc' events := by
  rw [exec] at hexec
  obtain ⟨⟨outcome, mutex⟩, hlock, hrest⟩ := Option.bind_eq_some_iff.mp hexec
  rcases Mutex.lock_cases hlock with ⟨ho, hfree, hlocked, hq⟩ | ⟨ho, hsame⟩ |
    ⟨task, ho, htask, hheld, hlocked, hq⟩
  · subst ho
    cases hrest
    exact .lockTaken hfree hlocked hq
  · subst ho hsame
    cases hrest
    have hk : k.setMutex m (k.mutexes m) = k := by
      simp [KernelState.setMutex]
    rw [hk]
    exact .lockRetry
  · rw [hcur] at htask
    cases htask
    subst ho
    cases hrest
    exact .lockBlocked hheld hlocked hq

private theorem section_pipeRead {p want done : ℕ}
    (hexec : execPipeRead p want done k = (k', pc', events)) :
    Section t k (.resume (.pipeRead p want done)) k' pc' events := by
  rw [execPipeRead] at hexec
  by_cases hempty : (k.pipes p).ring.availableToRead = 0
  · rw [if_pos hempty] at hexec
    by_cases hclosed : (k.pipes p).writeEnds = 0
    · rw [if_pos (by simpa [Pipe.allWriteEndsClosed] using hclosed)] at hexec
      cases hexec
      exact .readEnd hempty hclosed
    · rw [if_neg (by simpa [Pipe.allWriteEndsClosed] using hclosed)] at hexec
      cases hexec
      exact .readWait hempty hclosed
  · rw [if_neg hempty] at hexec
    rcases hdrain : PipeRingBuffer.drain (k.pipes p).ring.availableToRead want done (k.pipes p).ring
      with ⟨bytes, ring, done', returns⟩
    have hsec := Section.read (t := t) hdrain
    simp only [hdrain] at hexec
    cases returns with
    | true =>
      cases hexec
      exact hsec
    | false =>
      cases hexec
      exact hsec

private theorem section_pipeWrite {p want done : ℕ}
    (hexec : execPipeWrite buf p want done k = (k', pc', events)) :
    Section t k (.resume (.pipeWrite p want done)) k' pc' events := by
  rw [execPipeWrite] at hexec
  by_cases hfull : (k.pipes p).ring.availableToWrite = 0
  · rw [if_pos hfull] at hexec
    cases hexec
    exact .writeWait
  · rw [if_neg hfull] at hexec
    rcases hfill : PipeRingBuffer.fill buf (k.pipes p).ring.availableToWrite want done
      (k.pipes p).ring with ⟨bytes, ring, done', returns⟩
    have hsec := Section.write (t := t) hfill
    simp only [hfill] at hexec
    cases returns with
    | true =>
      cases hexec
      exact hsec
    | false =>
      cases hexec
      exact hsec

theorem exec_section (hexec : exec buf k pc = some (k', pc', events))
    (hcur : k.current = (Cpu.running t pc).current) (hof : pc.Of t) :
    Section t k pc k' pc' events := by
  cases pc with
  | resume point =>
    cases point with
    | user => cases hexec
    | lock m caller => exact section_lock hexec hcur
    | lockReturn m caller =>
      cases hexec
      exact .lockReturn
    | downReturn s =>
      cases hexec
      exact .downReturn
    | pipeRead p want done => exact section_pipeRead (Option.some.inj hexec)
    | pipeWrite p want done => exact section_pipeWrite (Option.some.inj hexec)
  | unlock m =>
    obtain ⟨⟨woken, mutex⟩, hunlock, hrest⟩ := Option.bind_eq_some_iff.mp hexec
    cases hrest
    exact .unlock (unlocks_of_unlock hunlock)
  | waitUnlock c m =>
    obtain ⟨⟨woken, mutex⟩, hunlock, hrest⟩ := Option.bind_eq_some_iff.mp hexec
    cases hrest
    exact .waitUnlock (unlocks_of_unlock hunlock)
  | up s =>
    cases hexec
    exact .up
  | signal c =>
    cases hexec
    exact .signal
  | down s =>
    obtain ⟨⟨blocks, semaphore⟩, hdown, hrest⟩ := Option.bind_eq_some_iff.mp hexec
    obtain ⟨hcount, ⟨hb, hpos, hq⟩ | ⟨task, hb, htask, hneg, hq⟩⟩ := Semaphore.down_cases hdown
    · subst hb
      cases hrest
      exact .downPassed hcount hpos hq
    · have hcur : k.current = some t := hcur
      rw [hcur] at htask
      cases htask
      subst hb
      cases hrest
      exact .downBlocked hcount hneg hq
  | waitEnqueue c m =>
    have hcur : k.current = some t := hcur
    rw [exec, hcur] at hexec
    cases hexec
    exact .waitEnqueue
  | sleep ms =>
    cases hexec
    exact .sleep
  | sleepCurrent expireMs =>
    have hcur : k.current = some t := hcur
    rw [exec, hcur] at hexec
    cases hexec
    exact .sleepCurrent
  | addTimer expireMs task =>
    cases hof
    cases hexec
    exact .addTimer
  | pipeWriteStart p want =>
    have hcur : k.current = some t := hcur
    by_cases hopen : (k.pipes p).writeFds = 0
    · simp only [exec, hcur, hopen, Option.bind_eq_bind, Option.bind_some, if_true] at hexec
      cases hexec
      exact .badFd (Or.inl ⟨want, rfl⟩)
    · simp only [exec, hcur, hopen, Option.bind_eq_bind, Option.bind_some, if_false] at hexec
      cases hexec
      exact .writeStart hopen
  | pipeWriteEnd p =>
    have hcur : k.current = some t := hcur
    rw [exec, hcur] at hexec
    cases hexec
    exact .writeDrop
  | dupWriteEnd p =>
    by_cases hopen : (k.pipes p).writeFds = 0
    · simp only [exec, hopen, if_true] at hexec
      cases hexec
      exact .badFd (Or.inr (Or.inl rfl))
    · simp only [exec, hopen, if_false] at hexec
      cases hexec
      exact .dup hopen
  | closeWriteEnd p =>
    by_cases hopen : (k.pipes p).writeFds = 0
    · simp only [exec, hopen, if_true] at hexec
      cases hexec
      exact .badFd (Or.inr (Or.inr rfl))
    · simp only [exec, hopen, if_false] at hexec
      cases hexec
      exact .close hopen
  | suspendTake point =>
    have hcur : k.current = some t := hcur
    rw [exec, hcur] at hexec
    cases hexec
    exact .suspendTake
  | suspendStatus task point =>
    cases hof
    cases hexec
    exact .suspendStatus
  | suspendAdd task point =>
    cases hof
    cases hexec
    exact .suspendAdd
  | blockTake point =>
    have hcur : k.current = some t := hcur
    rw [exec, hcur] at hexec
    cases hexec
    exact .blockTake
  | blockStatus task point =>
    cases hof
    cases hexec
    exact .blockStatus
  | schedule task point => cases hexec

end

/-! ### What no section and no interrupt changes -/

@[simp] theorem KernelState.mutexes_wakeup (k : KernelState) (woken : Option Task) :
    (k.wakeup woken).mutexes = k.mutexes := by
  cases woken <;> rfl

@[simp] theorem KernelState.semaphores_wakeup (k : KernelState) (woken : Option Task) :
    (k.wakeup woken).semaphores = k.semaphores := by
  cases woken <;> rfl

@[simp] theorem KernelState.condvars_wakeup (k : KernelState) (woken : Option Task) :
    (k.wakeup woken).condvars = k.condvars := by
  cases woken <;> rfl

@[simp] theorem KernelState.pipes_wakeup (k : KernelState) (woken : Option Task) :
    (k.wakeup woken).pipes = k.pipes := by
  cases woken <;> rfl

@[simp] theorem KernelState.current_wakeup (k : KernelState) (woken : Option Task) :
    (k.wakeup woken).current = k.current := by
  cases woken <;> rfl

/-- The objects that tasks wait on are the same in both states. -/
structure SameObjects (k k' : KernelState) : Prop where
  mutexes : k'.mutexes = k.mutexes
  semaphores : k'.semaphores = k.semaphores
  condvars : k'.condvars = k.condvars
  pipes : k'.pipes = k.pipes

theorem CheckTimer.sameObjects {k k' : KernelState} (h : CheckTimer k k') : SameObjects k k' := by
  induction h with
  | done _ => exact ⟨rfl, rfl, rfl, rfl⟩
  | pop _ _ _ _ ih =>
    obtain ⟨hm, hs, hc, hp⟩ := ih
    exact ⟨by simpa using hm, by simpa using hs, by simpa using hc, by simpa using hp⟩

theorem CheckTimer.current_eq {k k' : KernelState} (h : CheckTimer k k') : k'.current = k.current := by
  induction h with
  | done _ => rfl
  | pop _ _ _ _ ih => simpa using ih

end LemonCore.Kernel
