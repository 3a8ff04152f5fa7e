import LemonCore.Kernel.Sections
import LemonCore.Kernel.Scripts
import LemonCore.Foundation.QueueFamily

/-!
# Every task is in one place

A task that is not on the hart is in exactly one of the ready queue, the timer heap and the wait queues,
and there once.  The task on the hart is in none of them until the section that queues it; from then on,
up to the switch to the idle loop, it is queued like the others, and a timer interrupt may already have
moved it to the ready queue.

* `exec_queues`: what one section does to the queues;
* `Placed`: the invariant, kept by every step (`Placed.step`);
* `tasks_queued_once`: whenever the idle loop is about to fetch, every task is queued exactly once.
-/

namespace LemonCore.Kernel

open Foundation.QueueFamily

/-- The places where a task can wait for the hart. -/
inductive Place where
  | ready
  | timers
  | mutex (m : ℕ)
  | semaphore (s : ℕ)
  | condvar (c : ℕ)
  deriving DecidableEq, Repr

namespace KernelState

variable (k : KernelState)

def queue : Place → List Task
  | .ready => k.readyQueue
  | .timers => k.timers.map Prod.snd
  | .mutex m => (k.mutexes m).waitQueue
  | .semaphore s => (k.semaphores s).waitQueue
  | .condvar c => (k.condvars c).waitQueue

theorem queue_setMutex (m : ℕ) (mutex : Mutex) :
    (k.setMutex m mutex).queue = Function.update k.queue (.mutex m) mutex.waitQueue := by
  funext p
  cases p with
  | mutex m' => by_cases h : m' = m <;> simp [queue, setMutex, h]
  | _ => rfl

theorem queue_setSemaphore (s : ℕ) (semaphore : Semaphore) :
    (k.setSemaphore s semaphore).queue =
      Function.update k.queue (.semaphore s) semaphore.waitQueue := by
  funext p
  cases p with
  | semaphore s' => by_cases h : s' = s <;> simp [queue, setSemaphore, h]
  | _ => rfl

theorem queue_setCondvar (c : ℕ) (condvar : Condvar) :
    (k.setCondvar c condvar).queue = Function.update k.queue (.condvar c) condvar.waitQueue := by
  funext p
  cases p with
  | condvar c' => by_cases h : c' = c <;> simp [queue, setCondvar, h]
  | _ => rfl

@[simp] theorem queue_setPipe (p : ℕ) (pipe : Pipe) : (k.setPipe p pipe).queue = k.queue := by
  funext place
  cases place <;> rfl

@[simp] theorem queue_setStatus (t : Task) (status : Status) :
    (k.setStatus t status).queue = k.queue := by
  funext place
  cases place <;> rfl

@[simp] theorem queue_current (current : Option Task) :
    ({ k with current := current } : KernelState).queue = k.queue := by
  funext place
  cases place <;> rfl

theorem queue_add (t : Task) : (k.add t).queue = push k.queue .ready t := by
  funext p
  cases p <;> rfl

theorem queue_addTimer (expireMs : ℕ) (t : Task) :
    (k.addTimer expireMs t).queue = push k.queue .timers t := by
  funext p
  cases p with
  | timers => simp [queue, addTimer, push]
  | _ => rfl

theorem queue_wakeup (t : Task) : (k.wakeup (some t)).queue = push k.queue .ready t := by
  rw [wakeup, queue_add, queue_setStatus]

end KernelState

/-! ### The task on the hart -/

/-- The task is in a queue already. -/
def Pc.queued : Pc → Bool
  | blockTake _ | blockStatus _ _ | schedule _ _ => true
  | _ => false

namespace Cpu

/-- The task on the hart. -/
def task : Cpu → Option Task
  | idle => none
  | fetched t | running t _ => some t

/-- The task on the hart, unless it is queued already. -/
def loose : Cpu → Option Task
  | idle => none
  | fetched t => some t
  | running t pc => if pc.queued then none else some t

end Cpu

/-- What a section of the task `t` does to the queues; the flags say whether `t` is queued before and
after it. -/
inductive QueueStep (t : Task) (Q Q' : Place → List Task) : Bool → Bool → Prop where
  | same {queued : Bool} (h : Q' = Q) : QueueStep t Q Q' queued queued
  | push (p : Place) (h : Q' = push Q p t) : QueueStep t Q Q' false true
  | wake (p : Place) (task : Task) (rest : List Task) (hp : Q p = task :: rest)
      (h : Q' = Foundation.QueueFamily.push (Function.update Q p rest) .ready task) :
      QueueStep t Q Q' false false

section Queues

variable {k k' : KernelState} {pc pc' : Pc} {events : List Event} {t : Task}

-- `unlock`, `up` and `signal` all take the head of a queue, or nobody, and wake it.
theorem QueueStep.of_wake {p : Place} {Q : Place → List Task} {waitQueue : List Task}
    {woken : Option Task} {k₁ : KernelState} (hk₁ : k₁.queue = Function.update Q p waitQueue)
    (h : (woken = none ∧ waitQueue = Q p) ∨ ∃ task, woken = some task ∧ Q p = task :: waitQueue) :
    QueueStep t Q (k₁.wakeup woken).queue false false := by
  rcases h with ⟨hwoken, hq⟩ | ⟨task, hwoken, hq⟩
  · subst hwoken
    refine .same ?_
    show k₁.queue = Q
    rw [hk₁, hq, Function.update_eq_self]
  · subst hwoken
    refine .wake p task waitQueue hq ?_
    rw [KernelState.queue_wakeup, hk₁]

theorem Unlocks.queues {m : ℕ} {woken : Option Task} {mutex : Mutex}
    (h : Unlocks (k.mutexes m) woken mutex) :
    QueueStep t k.queue ((k.setMutex m mutex).wakeup woken).queue false false := by
  refine .of_wake (k.queue_setMutex m mutex) ?_
  cases h with
  | free hq _ hq' => exact Or.inl ⟨rfl, by rw [hq']; exact hq.symm⟩
  | hand task hq _ _ => exact Or.inr ⟨task, rfl, hq⟩

/-- What a section does to the queues. -/
theorem Section.queues (h : Section t k pc k' pc' events) :
    QueueStep t k.queue k'.queue pc.queued pc'.queued := by
  cases h with
  | @lockTaken m _ mutex _ _ hq =>
    refine .same ?_
    rw [KernelState.queue_setMutex, hq]
    exact Function.update_eq_self (Place.mutex m) k.queue
  | @lockBlocked m _ mutex _ _ hq =>
    refine .push (.mutex m) ?_
    rw [KernelState.queue_setMutex, hq]
    rfl
  | unlock hunlock => exact hunlock.queues
  | waitUnlock hunlock => exact hunlock.queues
  | @waitEnqueue c _ => exact .push (.condvar c) (KernelState.queue_setCondvar _ _ _)
  | @signal c =>
    refine .of_wake (k.queue_setCondvar c _) ?_
    rcases (k.condvars c).signal_cases with ⟨hwoken, hq, hq'⟩ | ⟨task, hwoken, hq⟩
    · exact Or.inl ⟨hwoken, by rw [hq']; exact hq.symm⟩
    · exact Or.inr ⟨task, hwoken, hq⟩
  | @up s => exact .of_wake (k.queue_setSemaphore s _) (k.semaphores s).up_queue
  | @downPassed s _ _ _ hq =>
    refine .same ?_
    rw [KernelState.queue_setSemaphore, hq]
    exact Function.update_eq_self (Place.semaphore s) k.queue
  | @downBlocked s _ _ _ hq =>
    refine .push (.semaphore s) ?_
    rw [KernelState.queue_setSemaphore, hq]
    rfl
  | addTimer => exact .push .timers (KernelState.queue_addTimer _ _ _)
  | @read p want done bytes ring done' returns h =>
    cases returns <;> exact .same (KernelState.queue_setPipe _ _ _)
  | @write p want done buf bytes ring done' returns h =>
    cases returns <;> exact .same (KernelState.queue_setPipe _ _ _)
  | writeStart _ => exact .same (KernelState.queue_setPipe _ _ _)
  | writeDrop => exact .same (KernelState.queue_setPipe _ _ _)
  | dup _ => exact .same (KernelState.queue_setPipe _ _ _)
  | close _ => exact .same (KernelState.queue_setPipe _ _ _)
  | badFd hpc =>
    rcases hpc with ⟨want, rfl⟩ | rfl | rfl <;> exact .same rfl
  | suspendTake => exact .same (KernelState.queue_current _ _)
  | suspendStatus => exact .same (KernelState.queue_setStatus _ _ _)
  | suspendAdd => exact .push .ready (KernelState.queue_add _ _)
  | blockTake => exact .same (KernelState.queue_current _ _)
  | blockStatus => exact .same (KernelState.queue_setStatus _ _ _)
  | _ => exact .same rfl

/-- A section keeps `current` in step with the program counter, and names no other task. -/
theorem Section.current (h : Section t k pc k' pc' events)
    (hcur : k.current = (Cpu.running t pc).current) :
    k'.current = (Cpu.running t pc').current ∧ pc'.Of t := by
  cases h with
  | @read p want done bytes ring done' returns h => cases returns <;> exact ⟨hcur, trivial⟩
  | @write p want done buf bytes ring done' returns h => cases returns <;> exact ⟨hcur, trivial⟩
  | badFd hpc =>
    rcases hpc with ⟨want, rfl⟩ | rfl | rfl <;> exact ⟨hcur, trivial⟩
  | unlock _ => exact ⟨(KernelState.current_wakeup _ _).trans hcur, trivial⟩
  | waitUnlock _ => exact ⟨(KernelState.current_wakeup _ _).trans hcur, trivial⟩
  | signal => exact ⟨(KernelState.current_wakeup _ _).trans hcur, trivial⟩
  | up => exact ⟨(KernelState.current_wakeup _ _).trans hcur, trivial⟩
  | sleepCurrent => exact ⟨hcur, rfl⟩
  | suspendTake => exact ⟨rfl, rfl⟩
  | blockTake => exact ⟨rfl, rfl⟩
  | suspendStatus => exact ⟨hcur, rfl⟩
  | suspendAdd => exact ⟨hcur, rfl⟩
  | blockStatus => exact ⟨hcur, rfl⟩
  | _ => exact ⟨hcur, trivial⟩

end Queues

/-! ### The invariant -/

variable {ok : History → Task → Call → Prop} {tasks : List Task} {hist events : History} {s s' : System}

/-- Every task is in its place. -/
structure Placed (tasks : List Task) (s : System) : Prop where
  spread : Spread s.kernel.queue fun t => t ∈ tasks ∧ s.cpu.loose ≠ some t
  current : s.kernel.current = s.cpu.current
  onHart : ∀ t, s.cpu.task = some t → t ∈ tasks
  names : ∀ t pc, s.cpu = .running t pc → pc.Of t

theorem CheckTimer.spread {k k' : KernelState} {S : Task → Prop} (h : CheckTimer k k')
    (hS : Spread k.queue S) : Spread k'.queue S := by
  induction h with
  | done _ => exact hS
  | @pop k k' before after expireMs task htimers _ _ _ ih =>
    apply ih
    have hq : k.queue .timers = before.map Prod.snd ++ task :: after.map Prod.snd := by
      simp [KernelState.queue, htimers]
    have hk : ({ k with timers := before ++ after } : KernelState).queue =
        Function.update k.queue .timers (before.map Prod.snd ++ after.map Prod.snd) := by
      funext p
      cases p with
      | timers => simp [KernelState.queue]
      | _ => rfl
    rw [KernelState.queue_wakeup, hk]
    exact hS.move hq

theorem QueueStep.spread {t : Task} {Q Q' : Place → List Task} {pc pc' : Pc}
    (h : QueueStep t Q Q' pc.queued pc'.queued) (ht : t ∈ tasks)
    (hS : Spread Q fun t' => t' ∈ tasks ∧ (Cpu.running t pc).loose ≠ some t') :
    Spread Q' fun t' => t' ∈ tasks ∧ (Cpu.running t pc').loose ≠ some t' := by
  simp only [Cpu.loose] at hS ⊢
  generalize pc.queued = b, pc'.queued = b' at *
  cases h with
  | same h =>
    rw [h]
    exact hS
  | push p h =>
    rw [h]
    refine (hS.push p (a := t) (fun hx => hx.2 rfl)).congr fun t' => ?_
    by_cases heq : t' = t
    · simp [heq, ht]
    · simp [heq, Ne.symm heq]
  | wake p task rest hp h =>
    rw [h]
    exact hS.move (l := []) hp

theorem Placed.step (hp : Placed tasks s) (h : Step ok hist s events s') : Placed tasks s' := by
  obtain ⟨hspread, hcur, hon, hof⟩ := hp
  cases h with
  | @call t c hcpu hok =>
    rw [hcpu] at hspread hcur hon
    have hq : c.entry.queued = false := by cases c <;> rfl
    have htaken : c.entry.taken = false := by cases c <;> rfl
    refine ⟨?_, ?_, hon, ?_⟩
    · simp only [Cpu.loose, hq]
      exact hspread
    · simp only [Cpu.current, htaken]
      exact hcur
    · intro t' pc' heq
      cases heq
      cases c <;> trivial
  | @exec t pc pc' k' events buf hcpu hexec =>
    have hsec := exec_section hexec (by rw [hcur, hcpu]) (hof t pc hcpu)
    rw [hcpu] at hspread hcur hon
    obtain ⟨hcur', hof'⟩ := hsec.current hcur
    refine ⟨hsec.queues.spread (hon t rfl) hspread, hcur', hon, ?_⟩
    intro t' pc'' heq
    cases heq
    exact hof'
  | @switch t task point hcpu =>
    rw [hcpu] at hspread hcur
    refine ⟨hspread, hcur, ?_, ?_⟩
    · intro t' heq
      cases heq
    · intro t' pc' heq
      cases heq
  | @fetch task readyQueue hcpu hready =>
    rw [hcpu] at hspread hcur
    have hq : s.kernel.queue .ready = [] ++ task :: readyQueue := hready
    have hk : ({ s.kernel with readyQueue := readyQueue } : KernelState).queue =
        Function.update s.kernel.queue .ready ([] ++ readyQueue) := by
      funext p
      cases p <;> rfl
    refine ⟨?_, hcur, ?_, ?_⟩
    · show Spread ({ s.kernel with readyQueue := readyQueue } : KernelState).queue _
      rw [hk]
      refine (hspread.remove hq).congr fun t => ?_
      simp [Cpu.loose, eq_comm]
    · intro t heq
      cases heq
      exact (hspread.of_mem (p := Place.ready) (by rw [hq]; simp)).1
    · intro t pc heq
      cases heq
  | @start task hcpu =>
    rw [hcpu] at hspread hon
    refine ⟨?_, rfl, hon, ?_⟩
    · show Spread ({ s.kernel.setStatus task .running with current := some task }).queue _
      rw [KernelState.queue_current, KernelState.queue_setStatus]
      exact hspread
    · intro t pc heq
      cases heq
      trivial
  | interrupt hcheck =>
    exact ⟨hcheck.spread hspread, hcheck.current_eq.trans hcur, hon, hof⟩
  | tick ms =>
    have hq : ({ s.kernel with timeMs := s.kernel.timeMs + ms } : KernelState).queue =
        s.kernel.queue := by
      funext p
      cases p <;> rfl
    refine ⟨?_, hcur, hon, hof⟩
    show Spread ({ s.kernel with timeMs := s.kernel.timeMs + ms } : KernelState).queue _
    rw [hq]
    exact hspread

theorem placed_boot (htasks : tasks.Nodup) (isBlocking : ℕ → Bool) (resCount : ℕ → ℕ) :
    Placed tasks (.boot tasks isBlocking resCount) := by
  refine ⟨?_, rfl, ?_, ?_⟩
  · refine (spread_single htasks Place.ready rfl ?_).congr fun t => ?_
    · intro q hq
      cases q with
      | ready => exact absurd rfl hq
      | timers => rfl
      | mutex m => exact Mutex.waitQueue_new (isBlocking m)
      | semaphore _ => rfl
      | condvar _ => rfl
    · simp [System.boot, Cpu.loose]
  · intro t heq
    cases heq
  · intro t pc heq
    cases heq

variable {isBlocking : ℕ → Bool} {resCount : ℕ → ℕ}

theorem Run.placed (htasks : tasks.Nodup) (h : Run ok (.boot tasks isBlocking resCount) hist s) :
    Placed tasks s := by
  induction h with
  | start => exact placed_boot htasks isBlocking resCount
  | step _ hstep ih => exact ih.step hstep

/-- **One place.**  Whatever the tasks call and whenever the timer interrupts them: when the idle loop is
about to fetch, each task is in exactly one queue, and there once.  At any time, a task that is not on the
hart is in exactly one queue, the one on the hart in at most one, and nothing else is queued. -/
theorem tasks_queued_once {ok : History → Task → Call → Prop} {tasks : List Task} {hist : History}
    {s : System} (isBlocking : ℕ → Bool) (resCount : ℕ → ℕ) (htasks : tasks.Nodup)
    (h : Run ok (.boot tasks isBlocking resCount) hist s) :
    (s.cpu = .idle → ∀ t ∈ tasks, Once s.kernel.queue t) ∧
    (∀ t ∈ tasks, s.cpu.task ≠ some t → Once s.kernel.queue t) ∧
    (∀ t, s.cpu.task = some t → t ∈ tasks ∧ (Once s.kernel.queue t ∨ Nowhere s.kernel.queue t)) ∧
    (∀ t, t ∉ tasks → Nowhere s.kernel.queue t) := by
  have hp := h.placed htasks
  have hoff : ∀ t ∈ tasks, s.cpu.task ≠ some t → Once s.kernel.queue t := by
    intro t ht hcpu
    refine hp.spread.once ⟨ht, fun hloose => hcpu ?_⟩
    cases hs : s.cpu with
    | idle =>
      rw [hs] at hloose
      cases hloose
    | fetched t' =>
      rw [hs] at hloose
      exact hloose
    | running t' pc =>
      rw [hs, Cpu.loose] at hloose
      split at hloose
      · cases hloose
      · exact hloose
  refine ⟨?_, hoff, ?_, ?_⟩
  · intro hidle t ht
    refine hoff t ht ?_
    rw [hidle]
    exact fun hx => by cases hx
  · intro t ht
    refine ⟨hp.onHart t ht, ?_⟩
    by_cases hloose : s.cpu.loose = some t
    · exact Or.inr (hp.spread.nowhere fun hx => hx.2 hloose)
    · exact Or.inl (hp.spread.once ⟨hp.onHart t ht, hloose⟩)
  · intro t ht
    exact hp.spread.nowhere fun hx => ht hx.1

/-- The task 0 sleeps for no time at all, and the timer interrupts it before it blocks. -/
def sleepRace : List Action :=
  [.fetch, .start, .call (.sleep 0), .exec [], .exec [], .exec [], .interrupt, .exec [], .exec [], .switch]

theorem tasks_queued_once_sleepRace : ∃ hist s,
    Run (fun _ _ _ => True) (.boot [0, 1] (fun _ => true) fun _ => 0) hist s ∧
    s.kernel.readyQueue = [1, 0] ∧ Once s.kernel.queue 0 ∧ Once s.kernel.queue 1 := by
  obtain ⟨hist, s, hrun, hidle, hready⟩ := exists_run (fun _ _ _ => True)
    (.boot [0, 1] (fun _ => true) fun _ => 0)
    (fun _ s => s.cpu = .idle ∧ s.kernel.readyQueue = [1, 0]) sleepRace (by decide)
  have honce := (tasks_queued_once (fun _ => true) (fun _ => 0) (by decide) hrun).1 hidle
  exact ⟨hist, s, hrun, hready, honce 0 (by decide), honce 1 (by decide)⟩

end LemonCore.Kernel
