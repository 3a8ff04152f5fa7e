import LemonCore.Kernel.Sync
import LemonCore.Foundation.SlotTable

/-!
# The system calls on mutexes, semaphores and condition variables (`kernel/src/syscall/sync.rs`)

A process has a list of mutexes, one of semaphores and one of condition variables.  Its threads name the
objects by any number they like, and call in any order.

* `exec`: a system call, up to the point where it returns or gives up the hart; `Resume.exec`: what is left
  of it when the thread runs again.  `none` is a panic;
* `Step`, `Run`: the threads of one process, fetched in any order;
* `sync_calls_proceed`: whatever the threads did before, a call returns or makes its caller wait, unless it
  unlocks a blocking mutex that is not locked: `Blocking::unlock` asserts that it is, `Spin::unlock` does
  not.

No call removes an object from its list, so that a number stands for the same object (the `Arc` that a
waiting call holds) for ever.
-/

namespace LemonCore.Kernel.SyncCalls

open Foundation.SlotTable

/-! ### The lists of a process -/

structure SyncTables where
  mutexList : List (Option Mutex)
  semaphoreList : List (Option Semaphore)
  condvarList : List (Option Condvar)
  deriving DecidableEq, Repr

/-- The number of a new object and the list with it: it goes into the first hole, or to the end. -/
def create {α : Type} (list : List (Option α)) (object : α) : ℕ × List (Option α) :=
  ((alloc list).2, (alloc list).1.set (alloc list).2 (some object))

theorem slotAt_create {α : Type} (list : List (Option α)) (object : α) :
    slotAt (create list object).2 =
      Function.update (slotAt list) (create list object).1 (some object) := by
  obtain ⟨hsame, _, hlt⟩ := alloc_spec list
  rw [create, slotAt_set hlt, hsame]

namespace SyncTables

variable (tables : SyncTables)

/-- The mutex with this number, if there is one. -/
def mutex (m : ℕ) : Option Mutex := slotAt tables.mutexList m

def semaphore (s : ℕ) : Option Semaphore := slotAt tables.semaphoreList s

def condvar (c : ℕ) : Option Condvar := slotAt tables.condvarList c

def setMutex (m : ℕ) (mutex : Mutex) : SyncTables :=
  { tables with mutexList := tables.mutexList.set m (some mutex) }

def setSemaphore (s : ℕ) (semaphore : Semaphore) : SyncTables :=
  { tables with semaphoreList := tables.semaphoreList.set s (some semaphore) }

def setCondvar (c : ℕ) (condvar : Condvar) : SyncTables :=
  { tables with condvarList := tables.condvarList.set c (some condvar) }

end SyncTables

/-! ### The calls -/

inductive Call where
  | mutexCreate (blocking : Bool)
  | mutexLock (m : ℕ)
  | mutexUnlock (m : ℕ)
  | semaphoreCreate (resCount : ℕ)
  | semaphoreUp (s : ℕ)
  | semaphoreDown (s : ℕ)
  | condvarCreate
  | condvarSignal (c : ℕ)
  | condvarWait (c m : ℕ)
  deriving DecidableEq, Repr

/-- Where a thread goes on when it gets the hart. -/
inductive Resume where
  | user
  /-- another round of `Spin::lock`, or the `lock` at the end of `wait_with_mutex` -/
  | lock (m : ℕ)
  /-- the call returns `0` -/
  | done
  deriving DecidableEq, Repr

/-- How a call leaves the hart to the user program or to another thread. -/
inductive Outcome where
  | returned (value : ℤ)
  /-- `suspend_current_and_run_next` -/
  | suspended (point : Resume)
  /-- `block_current_and_run_next` -/
  | blocked (point : Resume)
  deriving DecidableEq, Repr

structure Effect where
  outcome : Outcome
  /-- the thread that `manager::wakeup` makes ready -/
  woken : Option Task
  tables : SyncTables
  deriving DecidableEq, Repr

/-- `mutex.lock()`, where `mutex` has the number `m`. -/
def lock (current : Option Task) (tables : SyncTables) (m : ℕ) (mutex : Mutex) : Option Effect := do
  let (outcome, mutex) ← mutex.lock current
  let tables := tables.setMutex m mutex
  match outcome with
  | .returned => some ⟨.returned 0, none, tables⟩
  | .suspended => some ⟨.suspended (.lock m), none, tables⟩
  | .blocked => some ⟨.blocked .done, none, tables⟩

/-- The `match` of the calls on the entry they look up: `Some(Some(object))`, or anything else. -/
def withObject {α : Type} (tables : SyncTables) (object : Option α) (f : α → Option Effect) :
    Option Effect :=
  match object with
  | some object => f object
  | none => some ⟨.returned (-1), none, tables⟩

/-- The system calls. -/
def exec (current : Option Task) (tables : SyncTables) : Call → Option Effect
  | .mutexCreate blocking =>
    let (idx, mutexList) := create tables.mutexList (.new blocking)
    some ⟨.returned idx, none, { tables with mutexList := mutexList }⟩
  | .mutexLock m =>
    withObject tables (tables.mutex m) fun mutex => lock current tables m mutex
  | .mutexUnlock m =>
    withObject tables (tables.mutex m) fun mutex => do
      let (woken, mutex) ← mutex.unlock
      some ⟨.returned 0, woken, tables.setMutex m mutex⟩
  | .semaphoreCreate resCount =>
    let (idx, semaphoreList) := create tables.semaphoreList (.new resCount)
    some ⟨.returned idx, none, { tables with semaphoreList := semaphoreList }⟩
  | .semaphoreUp s =>
    withObject tables (tables.semaphore s) fun semaphore =>
      let (woken, semaphore) := semaphore.up
      some ⟨.returned 0, woken, tables.setSemaphore s semaphore⟩
  | .semaphoreDown s =>
    withObject tables (tables.semaphore s) fun semaphore => do
      let (blocks, semaphore) ← semaphore.down current
      some ⟨if blocks then .blocked .done else .returned 0, none, tables.setSemaphore s semaphore⟩
  | .condvarCreate =>
    let (idx, condvarList) := create tables.condvarList ⟨[]⟩
    some ⟨.returned idx, none, { tables with condvarList := condvarList }⟩
  | .condvarSignal c =>
    withObject tables (tables.condvar c) fun condvar =>
      let (woken, condvar) := condvar.signal
      some ⟨.returned 0, woken, tables.setCondvar c condvar⟩
  | .condvarWait c m =>
    withObject tables (tables.condvar c) fun condvar =>
      withObject tables (tables.mutex m) fun mutex => do
        -- `wait_with_mutex`, up to its `block_current_and_run_next`
        let (woken, mutex) ← mutex.unlock
        let condvar ← condvar.enqueue current
        some ⟨.blocked (.lock m), woken, (tables.setMutex m mutex).setCondvar c condvar⟩

/-- The rest of a call that gave up the hart. -/
def Resume.exec (current : Option Task) (tables : SyncTables) : Resume → Option Effect
  | user => none
  | lock m => (tables.mutex m).bind (SyncCalls.lock current tables m)
  | done => some ⟨.returned 0, none, tables⟩

/-! ### The threads of a process -/

structure System where
  tables : SyncTables
  /-- `Processor::current` -/
  current : Option Task
  ready : List Task
  point : Task → Resume

/-- The thread on the hart has run up to the end of an effect. -/
def System.finish (s : System) (t : Task) (effect : Effect) : System :=
  let ready := s.ready ++ effect.woken.toList
  match effect.outcome with
  | .returned _ =>
    { s with tables := effect.tables, ready := ready, point := Function.update s.point t .user }
  | .suspended point =>
    ⟨effect.tables, none, ready ++ [t], Function.update s.point t point⟩
  | .blocked point =>
    ⟨effect.tables, none, ready, Function.update s.point t point⟩

inductive Step (s : System) : System → Prop where
  | call {t : Task} {c : Call} {effect : Effect} (hcurrent : s.current = some t)
      (hpoint : s.point t = .user) (hexec : exec s.current s.tables c = some effect) :
      Step s (s.finish t effect)
  | resume {t : Task} {effect : Effect} (hcurrent : s.current = some t)
      (hexec : (s.point t).exec s.current s.tables = some effect) : Step s (s.finish t effect)
  | preempt {t : Task} (hcurrent : s.current = some t) (hpoint : s.point t = .user) :
      Step s { s with current := none, ready := s.ready ++ [t] }
  | fetch {t : Task} (hcurrent : s.current = none) (hready : t ∈ s.ready) :
      Step s { s with current := some t, ready := s.ready.erase t }

/-- A process with some threads in user mode and no objects yet. -/
def System.start (threads : List Task) : System := ⟨⟨[], [], []⟩, none, threads, fun _ => .user⟩

inductive Run : System → Prop where
  | start (threads : List Task) : Run (.start threads)
  | step {s s' : System} (h : Run s) (hstep : Step s s') : Run s'

/-! ### Mutexes stay -/

/-- Every mutex of the first lists is in the second ones. -/
def Kept (tables tables' : SyncTables) : Prop := ∀ m, (tables.mutex m).isSome → (tables'.mutex m).isSome

variable {α : Type} {tables : SyncTables} {m : ℕ} {mutex : Mutex} {effect : Effect}
  {current : Option Task} {s : System}

theorem kept_of_eq {tables' : SyncTables} (h : tables'.mutexList = tables.mutexList) :
    Kept tables tables' := by
  intro m hm
  rw [SyncTables.mutex, h]
  exact hm

theorem kept_of_update {tables' : SyncTables}
    (h : slotAt tables'.mutexList = Function.update (slotAt tables.mutexList) m (some mutex)) :
    Kept tables tables' ∧ (tables'.mutex m).isSome := by
  constructor
  · intro n hn
    rw [SyncTables.mutex, h, Function.update_apply]
    split
    · rfl
    · exact hn
  · rw [SyncTables.mutex, h, Function.update_self]
    rfl

theorem setMutex_kept {old : Mutex} (h : tables.mutex m = some old)
    (mutex : Mutex) :
    Kept tables (tables.setMutex m mutex) ∧ ((tables.setMutex m mutex).mutex m).isSome :=
  kept_of_update (slotAt_set (lt_of_slotAt h) _)

/-- What an effect leaves: no mutex is lost, and a thread that is to lock a mutex finds it. -/
structure Effect.Sound (tables : SyncTables) (effect : Effect) : Prop where
  kept : Kept tables effect.tables
  found : ∀ m, effect.outcome = .suspended (.lock m) ∨ effect.outcome = .blocked (.lock m) →
    (effect.tables.mutex m).isSome

theorem Effect.Sound.of_kept
    (h : Kept tables effect.tables)
    (hnot : (∃ value, effect.outcome = .returned value) ∨ effect.outcome = .blocked .done) :
    effect.Sound tables := by
  refine ⟨h, fun m hm => ?_⟩
  rcases hnot with ⟨value, hvalue⟩ | hdone
  · rw [hvalue] at hm
    rcases hm with hm | hm <;> cases hm
  · rw [hdone] at hm
    rcases hm with hm | hm <;> cases hm

theorem lock_sound
    (hmutex : tables.mutex m = some mutex) (h : lock current tables m mutex = some effect) :
    effect.Sound tables := by
  obtain ⟨⟨outcome, mutex'⟩, hlock, h⟩ := Option.bind_eq_some_iff.mp h
  obtain ⟨hkept, hfound⟩ := setMutex_kept hmutex mutex'
  cases outcome with
  | returned =>
    cases h
    exact .of_kept hkept (Or.inl ⟨0, rfl⟩)
  | suspended =>
    cases h
    refine ⟨hkept, fun n hn => ?_⟩
    rcases hn with hn | hn
    · cases hn
      exact hfound
    · cases hn
  | blocked =>
    cases h
    exact .of_kept hkept (Or.inr rfl)

theorem withObject_sound {object : Option α} {f : α → Option Effect}
    {effect : Effect} (h : withObject tables object f = some effect)
    (hf : ∀ x, object = some x → f x = some effect → effect.Sound tables) : effect.Sound tables := by
  cases object with
  | none =>
    cases h
    exact .of_kept (kept_of_eq rfl) (Or.inl ⟨-1, rfl⟩)
  | some x => exact hf x rfl h

theorem exec_sound {c : Call}
    (h : exec current tables c = some effect) : effect.Sound tables := by
  cases c with
  | mutexCreate blocking =>
    cases h
    exact .of_kept (kept_of_update (slotAt_create _ _)).1 (Or.inl ⟨_, rfl⟩)
  | semaphoreCreate _ | condvarCreate =>
    cases h
    exact .of_kept (kept_of_eq rfl) (Or.inl ⟨_, rfl⟩)
  | mutexLock m =>
    apply withObject_sound h
    intro mutex hmutex h
    exact lock_sound hmutex h
  | mutexUnlock m =>
    apply withObject_sound h
    intro mutex hmutex h
    obtain ⟨⟨woken, mutex'⟩, _, h⟩ := Option.bind_eq_some_iff.mp h
    cases h
    exact .of_kept (setMutex_kept hmutex mutex').1 (Or.inl ⟨0, rfl⟩)
  | semaphoreUp _ | condvarSignal _ =>
    apply withObject_sound h
    intro object _ h
    cases h
    exact .of_kept (kept_of_eq rfl) (Or.inl ⟨0, rfl⟩)
  | semaphoreDown s =>
    apply withObject_sound h
    intro semaphore _ h
    obtain ⟨⟨blocks, semaphore'⟩, _, h⟩ := Option.bind_eq_some_iff.mp h
    cases h
    cases blocks with
    | false => exact .of_kept (kept_of_eq rfl) (Or.inl ⟨0, rfl⟩)
    | true => exact .of_kept (kept_of_eq rfl) (Or.inr rfl)
  | condvarWait c m =>
    apply withObject_sound h
    intro condvar _ h
    apply withObject_sound h
    intro mutex hmutex h
    obtain ⟨⟨woken, mutex'⟩, _, h⟩ := Option.bind_eq_some_iff.mp h
    obtain ⟨condvar', _, h⟩ := Option.bind_eq_some_iff.mp h
    cases h
    obtain ⟨hkept, hfound⟩ := setMutex_kept hmutex mutex'
    refine ⟨hkept, fun n hn => ?_⟩
    rcases hn with hn | hn
    · cases hn
    · cases hn
      exact hfound

theorem Resume.exec_sound {point : Resume}
    (h : point.exec current tables = some effect) : effect.Sound tables := by
  cases point with
  | user => cases h
  | lock m =>
    obtain ⟨mutex, hmutex, h⟩ := Option.bind_eq_some_iff.mp h
    exact lock_sound hmutex h
  | done =>
    cases h
    exact .of_kept (kept_of_eq rfl) (Or.inl ⟨0, rfl⟩)

/-! ### Runs -/

/-- Every thread that is to lock a mutex finds it. -/
def Anchored (s : System) : Prop := ∀ t m, s.point t = .lock m → (s.tables.mutex m).isSome

theorem Anchored.finish (h : Anchored s) (t : Task)
    (heffect : effect.Sound s.tables) : Anchored (s.finish t effect) := by
  obtain ⟨hkept, hfound⟩ := heffect
  obtain ⟨outcome, woken, tables⟩ := effect
  -- wherever thread `t` goes on, all other threads are where they were
  have hall : ∀ point, (∀ m, point = .lock m → (tables.mutex m).isSome) →
      ∀ u m, Function.update s.point t point u = .lock m → (tables.mutex m).isSome := by
    intro point hpoint u m hu
    rw [Function.update_apply] at hu
    split at hu
    · exact hpoint m hu
    · exact hkept m (h u m hu)
  cases outcome with
  | returned value => exact hall .user fun m hm => by cases hm
  | suspended point => exact hall point fun m hm => hfound m (Or.inl (by rw [hm]))
  | blocked point => exact hall point fun m hm => hfound m (Or.inr (by rw [hm]))

theorem Anchored.step {s' : System} (h : Anchored s) (hstep : Step s s') : Anchored s' := by
  cases hstep with
  | call _ _ hexec => exact h.finish _ (exec_sound hexec)
  | resume _ hexec => exact h.finish _ (Resume.exec_sound hexec)
  | preempt _ _ => exact h
  | fetch _ _ => exact h

theorem Run.anchored (h : Run s) : Anchored s := by
  induction h with
  | start threads => exact fun _ _ hpoint => by cases hpoint
  | step _ hstep ih => exact ih.step hstep

/-! ### Which calls panic -/

/-- The call unlocks a blocking mutex that is not locked. -/
def UnlocksFree (tables : SyncTables) : Call → Prop
  | .mutexUnlock m => ∃ waitQueue, tables.mutex m = some (.blocking false waitQueue)
  | .condvarWait c m =>
    tables.condvar c ≠ none ∧ ∃ waitQueue, tables.mutex m = some (.blocking false waitQueue)
  | _ => False

theorem unlock_isSome_iff :
    mutex.unlock.isSome ↔ ¬ ∃ waitQueue, some mutex = some (.blocking false waitQueue) := by
  cases mutex with
  | spin locked => simp [Mutex.unlock]
  | blocking locked waitQueue =>
    cases locked with
    | false => simp [Mutex.unlock]
    | true => cases waitQueue <;> simp [Mutex.unlock]

theorem lock_isSome (t : Task) (tables : SyncTables) (m : ℕ) (mutex : Mutex) :
    (lock (some t) tables m mutex).isSome := by
  cases mutex with
  | spin locked => cases locked <;> rfl
  | blocking locked waitQueue => cases locked <;> rfl

theorem down_isSome (t : Task) (semaphore : Semaphore) : (semaphore.down (some t)).isSome := by
  rw [Semaphore.down]
  split <;> rfl

theorem withObject_isSome (tables : SyncTables) (object : Option α) {f : α → Option Effect}
    (hf : ∀ x, (f x).isSome) : (withObject tables object f).isSome := by
  cases object with
  | none => rfl
  | some x => exact hf x

/-- A call of a running thread panics exactly if it unlocks a blocking mutex that is not locked. -/
theorem exec_isSome_iff (t : Task) (tables : SyncTables) (c : Call) :
    (exec (some t) tables c).isSome ↔ ¬ UnlocksFree tables c := by
  cases c with
  | mutexCreate _ | semaphoreCreate _ | condvarCreate => exact iff_of_true rfl id
  | mutexLock m => exact iff_of_true (withObject_isSome _ _ (lock_isSome t tables m)) id
  | semaphoreUp _ | condvarSignal _ => exact iff_of_true (withObject_isSome _ _ fun _ => rfl) id
  | semaphoreDown s =>
    refine iff_of_true (withObject_isSome _ _ fun semaphore => ?_) id
    obtain ⟨result, hdown⟩ := Option.isSome_iff_exists.mp (down_isSome t semaphore)
    simp [hdown]
  | mutexUnlock m =>
    rw [exec, UnlocksFree]
    cases tables.mutex m with
    | none => exact iff_of_true rfl (by rintro ⟨_, h⟩; cases h)
    | some mutex =>
      rw [← unlock_isSome_iff]
      cases hunlock : mutex.unlock <;> simp [withObject, hunlock]
  | condvarWait c m =>
    rw [exec, UnlocksFree]
    cases tables.condvar c with
    | none => exact iff_of_true rfl fun h => h.1 rfl
    | some condvar =>
      cases tables.mutex m with
      | none => exact iff_of_true rfl (by rintro ⟨_, _, h⟩; cases h)
      | some mutex =>
        rw [and_iff_right (Option.some_ne_none _), ← unlock_isSome_iff]
        cases hunlock : mutex.unlock <;> simp [withObject, hunlock, Condvar.enqueue]

/-- **The calls of any interleaving of the threads proceed, except for the unlock of a free blocking
mutex.**  In every state of every run the thread on the hart can make any call, which returns, suspends or
blocks it, unless the call unlocks a blocking mutex that is not locked; then, and only then, it panics.  What
is left of a call that gave up the hart never panics. -/
theorem sync_calls_proceed {s : System} {t : Task} (h : Run s) (hcurrent : s.current = some t) :
    (∀ c, (exec s.current s.tables c).isSome ↔ ¬ UnlocksFree s.tables c) ∧
    (s.point t ≠ .user → ((s.point t).exec s.current s.tables).isSome) := by
  rw [hcurrent]
  refine ⟨exec_isSome_iff t s.tables, fun hpoint => ?_⟩
  cases hat : s.point t with
  | user => exact absurd hat hpoint
  | done => rfl
  | lock m =>
    obtain ⟨mutex, hmutex⟩ := Option.isSome_iff_exists.mp (h.anchored t m hat)
    rw [Resume.exec, hmutex]
    exact lock_isSome t s.tables m mutex

/-- A thread has created a blocking mutex and locked it; it can unlock it. -/
theorem sync_calls_proceed_locked : ∃ s, Run s ∧ s.current = some 1 ∧
    s.tables.mutex 0 = some (.blocking true []) ∧
    (exec s.current s.tables (.mutexUnlock 0)).isSome := by
  have hrun := (((Run.start [1]).step (.fetch rfl List.mem_cons_self)).step
    (.call (c := .mutexCreate true) rfl rfl rfl)).step (.call (c := .mutexLock 0) rfl rfl rfl)
  refine ⟨_, hrun, rfl, rfl, ?_⟩
  apply ((sync_calls_proceed hrun rfl).1 (.mutexUnlock 0)).mpr
  rintro ⟨waitQueue, hmutex⟩
  cases hmutex

/-- A thread creates a spin mutex, a blocking mutex and a condition variable, and locks none.  The unlock of
the spin mutex returns `0`; the unlock of the blocking mutex panics, and so does a wait that names it. -/
theorem unlock_of_free_blocking_panics : ∃ s, Run s ∧ s.current = some 1 ∧ s.point 1 = .user ∧
    exec s.current s.tables (.mutexUnlock 0) = some ⟨.returned 0, none, s.tables⟩ ∧
    exec s.current s.tables (.mutexUnlock 1) = none ∧
    exec s.current s.tables (.condvarWait 0 1) = none := by
  have hrun := ((((Run.start [1]).step (.fetch rfl List.mem_cons_self)).step
    (.call (c := .mutexCreate false) rfl rfl rfl)).step
    (.call (c := .mutexCreate true) rfl rfl rfl)).step (.call (c := .condvarCreate) rfl rfl rfl)
  exact ⟨_, hrun, rfl, rfl, rfl, rfl, rfl⟩

end LemonCore.Kernel.SyncCalls
