import LemonCore.Kernel.Effects

/-!
# Mutual exclusion

What a history says about one mutex is a list of three kinds of events.  From it follow, by definition,
the tasks between a returned `lock` and their `unlock` (`holders`), those to whom the lock was handed and
whose `lock` has not returned yet (`handed`), and those that blocked and were not woken (`waiting`).

* `Section.mutex`: what one section does to a mutex;
* `MutexInv`: the mutex and the control of the tasks agree with the history, kept by every step;
* `mutex_excludes`: mutual exclusion, and first-in first-out order of the waiting tasks.
-/

namespace LemonCore.Kernel

inductive MutexEvent where
  | blocked (t : Task)
  | returned (t : Task) (waited : Bool)
  | unlocked (t : Task) (woken : Option Task)
  deriving DecidableEq, Repr

/-- What an event says about the mutex `m`. -/
def mutexEvent (m : ℕ) : Task × Event → Option MutexEvent
  | (t, .lockBlocked m') => if m' = m then some (.blocked t) else none
  | (t, .lockReturned m' waited) => if m' = m then some (.returned t waited) else none
  | (t, .unlocked m' woken) => if m' = m then some (.unlocked t woken) else none
  | _ => none

def mutexEvents (m : ℕ) (hist : History) : List MutexEvent := hist.filterMap (mutexEvent m)

/-- Who holds a mutex, to whom it was handed, and who waits for it. -/
structure MutexView where
  holders : List Task := []
  handed : List Task := []
  waiting : List Task := []
  deriving DecidableEq, Repr

namespace MutexView

def record (v : MutexView) : MutexEvent → MutexView
  | .blocked t => { v with waiting := v.waiting ++ [t] }
  | .returned t _ => { v with holders := t :: v.holders, handed := v.handed.erase t }
  | .unlocked t none => { v with holders := v.holders.erase t }
  | .unlocked t (some task) =>
    { holders := v.holders.erase t, handed := v.handed ++ [task], waiting := v.waiting.erase task }

end MutexView

def mutexView (m : ℕ) (hist : History) : MutexView := (mutexEvents m hist).foldl .record {}

/-- The tasks that blocked on the mutex, in this order. -/
def blockedOn (m : ℕ) (hist : History) : List Task :=
  (mutexEvents m hist).filterMap fun
    | .blocked t => some t
    | _ => none

/-- The tasks whose `lock` returned after they had blocked, in this order. -/
def obtained (m : ℕ) (hist : History) : List Task :=
  (mutexEvents m hist).filterMap fun
    | .returned t true => some t
    | _ => none

/-- The callers unlock the mutex `m` only while they hold it. -/
def HoldersUnlock (m : ℕ) (hist : History) (t : Task) : Call → Prop
  | .mutexUnlock m' => m' = m → t ∈ (mutexView m hist).holders
  | .condvarWait _ m' => m' = m → t ∈ (mutexView m hist).holders
  | _ => True

/-! ### One section -/

/-- The task goes on behind the `block_current_and_run_next` of `lock`. -/
def awaitsLock (m : ℕ) : Option Resume → Bool
  | some (.lockReturn m' _) => m' = m
  | _ => false

/-- The next section unlocks the mutex. -/
def Pc.unlocks (m : ℕ) : Pc → Bool
  | .unlock m' => m' = m
  | .waitUnlock _ m' => m' = m
  | _ => false

/-- What a section of the task `t` does to the mutex `m`. -/
inductive MutexStep (m : ℕ) (t : Task) (mutex mutex' : Mutex) (pc pc' : Pc) :
    List MutexEvent → Prop where
  | other (hmutex : mutex' = mutex) (hawaits : awaitsLock m pc'.point = awaitsLock m pc.point) :
      MutexStep m t mutex mutex' pc pc' []
  | taken (hfree : mutex.locked = false) (hlocked : mutex'.locked = true)
      (hq : mutex'.waitQueue = mutex.waitQueue)
      (hawaits : awaitsLock m pc'.point = awaitsLock m pc.point) :
      MutexStep m t mutex mutex' pc pc' [.returned t false]
  | blocked (hheld : mutex.locked = true) (hlocked : mutex'.locked = true)
      (hq : mutex'.waitQueue = mutex.waitQueue ++ [t]) (hawaits' : awaitsLock m pc'.point = true) :
      MutexStep m t mutex mutex' pc pc' [.blocked t]
  | returned (hmutex : mutex' = mutex) (hawaits : awaitsLock m pc.point = true)
      (hawaits' : awaitsLock m pc'.point = false) (hrun : pc.queued = false) :
      MutexStep m t mutex mutex' pc pc' [.returned t true]
  | unlocked {woken : Option Task} (h : Unlocks mutex woken mutex') (hpc : pc.unlocks m = true)
      (hawaits : awaitsLock m pc'.point = awaitsLock m pc.point) :
      MutexStep m t mutex mutex' pc pc' [.unlocked t woken]

section

variable {m : ℕ} {t : Task} {k k' : KernelState} {pc pc' : Pc} {events : List Event}

@[simp] theorem mutexEvents_nil : mutexEvents m [] = [] := rfl

@[simp] theorem mutexEvents_append (hist hist' : History) :
    mutexEvents m (hist ++ hist') = mutexEvents m hist ++ mutexEvents m hist' :=
  List.filterMap_append

theorem mutexEvents_lockReturns (m' : ℕ) (waited : Bool) (caller : LockCaller) :
    mutexEvents m ((lockReturns m' waited caller).map (Prod.mk t)) =
      if m' = m then [.returned t waited] else [] := by
  by_cases h : m' = m <;> cases caller <;> simp [lockReturns, mutexEvents, mutexEvent, h]

theorem setMutex_same (k : KernelState) (m : ℕ) (mutex : Mutex) :
    (k.setMutex m mutex).mutexes m = mutex := by
  simp [KernelState.setMutex]

theorem setMutex_other (k : KernelState) {m m' : ℕ} (h : m' ≠ m) (mutex : Mutex) :
    (k.setMutex m' mutex).mutexes m = k.mutexes m := by
  simp [KernelState.setMutex, Ne.symm h]

theorem MutexStep.of_unlock {m' : ℕ} {woken : Option Task} {mutex : Mutex}
    (h : Unlocks (k.mutexes m') woken mutex) (hpc : pc.unlocks m' = true)
    (hawaits : awaitsLock m pc'.point = awaitsLock m pc.point) :
    MutexStep m t (k.mutexes m) (((k.setMutex m' mutex).wakeup woken).mutexes m) pc pc'
      (mutexEvents m [(t, .unlocked m' woken)]) := by
  rw [KernelState.mutexes_wakeup]
  by_cases hm : m' = m
  · subst hm
    simp only [mutexEvents, mutexEvent, if_true, List.filterMap_cons, List.filterMap_nil, setMutex_same]
    exact .unlocked h hpc hawaits
  · simp only [mutexEvents, mutexEvent, if_neg hm, List.filterMap_cons, List.filterMap_nil]
    exact .other (setMutex_other k hm mutex) hawaits

theorem Section.mutex (m : ℕ) (h : Section t k pc k' pc' events) :
    MutexStep m t (k.mutexes m) (k'.mutexes m) pc pc' (mutexEvents m (events.map (Prod.mk t))) := by
  cases h with
  | @lockTaken m' caller mutex hfree hlocked hq =>
    rw [mutexEvents_lockReturns]
    by_cases hm : m' = m
    · subst hm
      rw [if_pos rfl, setMutex_same]
      exact .taken hfree hlocked hq rfl
    · rw [if_neg hm]
      exact .other (setMutex_other k hm mutex) rfl
  | @lockBlocked m' caller mutex hheld hlocked hq =>
    by_cases hm : m' = m
    · subst hm
      simp only [mutexEvents, mutexEvent, List.map_cons, List.map_nil, if_true, List.filterMap_cons,
        List.filterMap_nil, setMutex_same]
      exact .blocked hheld hlocked hq (by simp [Pc.point, awaitsLock])
    · simp only [mutexEvents, mutexEvent, List.map_cons, List.map_nil, if_neg hm, List.filterMap_cons,
        List.filterMap_nil]
      exact .other (setMutex_other k hm mutex) (by simp [Pc.point, awaitsLock, hm])
  | @lockReturn m' caller =>
    rw [mutexEvents_lockReturns]
    by_cases hm : m' = m
    · subst hm
      rw [if_pos rfl]
      exact .returned rfl (by simp [Pc.point, awaitsLock]) rfl rfl
    · rw [if_neg hm]
      exact .other rfl (by simp [Pc.point, awaitsLock, hm])
  | @unlock m' woken mutex h =>
    exact .of_unlock h (by simp [Pc.unlocks]) rfl
  | @waitUnlock c m' woken mutex h =>
    exact .of_unlock h (by simp [Pc.unlocks]) rfl
  | signal => exact .other (by simp [KernelState.setCondvar]) rfl
  | up => exact .other (by simp [KernelState.setSemaphore]) rfl
  | @read p want done bytes ring done' returns h => cases returns <;> exact .other rfl rfl
  | @write p want done buf bytes ring done' returns h => cases returns <;> exact .other rfl rfl
  | badFd hpc => rcases hpc with ⟨want, rfl⟩ | rfl | rfl <;> exact .other rfl rfl
  | _ => exact .other rfl rfl

end

/-! ### The mutex and the history -/

/-- The mutex is as the history says, and the waiting tasks are served in order. -/
structure MutexAgrees (mutex : Mutex) (events : List MutexEvent) (v : MutexView) : Prop where
  queue : mutex.waitQueue = v.waiting
  owned : (v.holders ++ v.handed).length = if mutex.locked then 1 else 0
  waitLocked : v.waiting ≠ [] → mutex.locked = true
  fifo : events.filterMap (fun | .blocked t => some t | _ => none) =
    events.filterMap (fun | .returned t true => some t | _ => none) ++ v.handed ++ v.waiting

namespace MutexAgrees

variable {mutex mutex' : Mutex} {events : List MutexEvent} {v : MutexView} {t : Task}

theorem eq_singleton (h : MutexAgrees mutex events v) (ht : t ∈ v.holders ++ v.handed) :
    v.holders ++ v.handed = [t] ∧ mutex.locked = true := by
  have hlen := h.owned
  have hpos := List.length_pos_of_mem ht
  by_cases hlocked : mutex.locked = true
  · rw [if_pos hlocked] at hlen
    obtain ⟨a, ha⟩ := List.length_eq_one_iff.mp hlen
    rw [ha] at ht ⊢
    rw [List.mem_singleton.mp ht]
    exact ⟨rfl, hlocked⟩
  · rw [if_neg hlocked] at hlen
    omega

theorem holder (h : MutexAgrees mutex events v) (ht : t ∈ v.holders) :
    v.holders = [t] ∧ v.handed = [] ∧ mutex.locked = true := by
  obtain ⟨heq, hlocked⟩ := h.eq_singleton (List.mem_append_left v.handed ht)
  cases hh : v.holders with
  | nil =>
    rw [hh] at ht
    cases ht
  | cons a rest =>
    rw [hh] at heq
    obtain ⟨rfl, hrest⟩ := List.cons.inj heq
    obtain ⟨rfl, hhanded⟩ := List.append_eq_nil_iff.mp hrest
    exact ⟨rfl, hhanded, hlocked⟩

theorem handedTo (h : MutexAgrees mutex events v) (ht : t ∈ v.handed) :
    v.holders = [] ∧ v.handed = [t] ∧ mutex.locked = true := by
  obtain ⟨heq, hlocked⟩ := h.eq_singleton (List.mem_append_right v.holders ht)
  cases hh : v.holders with
  | nil =>
    rw [hh] at heq
    exact ⟨rfl, heq, hlocked⟩
  | cons a rest =>
    rw [hh] at heq
    obtain ⟨_, hrest⟩ := List.cons.inj heq
    obtain ⟨_, hhanded⟩ := List.append_eq_nil_iff.mp hrest
    rw [hhanded] at ht
    cases ht

theorem taken (h : MutexAgrees mutex events v) (hfree : mutex.locked = false)
    (hlocked : mutex'.locked = true) (hq : mutex'.waitQueue = mutex.waitQueue) :
    MutexAgrees mutex' (events ++ [.returned t false]) (v.record (.returned t false)) := by
  have hlen := h.owned
  rw [hfree] at hlen
  obtain ⟨hholders, hhanded⟩ := List.append_eq_nil_iff.mp (List.length_eq_zero_iff.mp hlen)
  have hwait : v.waiting = [] := by
    by_contra hne
    rw [h.waitLocked hne] at hfree
    cases hfree
  refine ⟨hq.trans h.queue, ?_, fun _ => hlocked, ?_⟩
  · simp [MutexView.record, hholders, hhanded, hlocked]
  · simpa [MutexView.record, hhanded, hwait] using h.fifo

theorem blocked (h : MutexAgrees mutex events v) (hheld : mutex.locked = true)
    (hlocked : mutex'.locked = true) (hq : mutex'.waitQueue = mutex.waitQueue ++ [t]) :
    MutexAgrees mutex' (events ++ [.blocked t]) (v.record (.blocked t)) := by
  refine ⟨?_, ?_, fun _ => hlocked, ?_⟩
  · rw [hq, h.queue]
    rfl
  · have hlen := h.owned
    rw [hheld] at hlen
    rw [hlocked]
    exact hlen
  · simp [MutexView.record, h.fifo]

theorem returned (h : MutexAgrees mutex events v) (ht : t ∈ v.handed) :
    MutexAgrees mutex (events ++ [.returned t true]) (v.record (.returned t true)) := by
  obtain ⟨hholders, hhanded, hlocked⟩ := h.handedTo ht
  refine ⟨h.queue, ?_, h.waitLocked, ?_⟩
  · simp [MutexView.record, hholders, hhanded, hlocked]
  · simp [MutexView.record, hhanded, h.fifo]

theorem unlocked {woken : Option Task} (h : MutexAgrees mutex events v) (ht : t ∈ v.holders)
    (hunlock : Unlocks mutex woken mutex') :
    MutexAgrees mutex' (events ++ [.unlocked t woken]) (v.record (.unlocked t woken)) := by
  obtain ⟨hholders, hhanded, hlocked⟩ := h.holder ht
  have hqueue := h.queue
  cases hunlock with
  | free hq hfree hq' =>
    rw [hq] at hqueue
    refine ⟨?_, ?_, ?_, ?_⟩
    · rw [hq', hqueue]
      rfl
    · simp [MutexView.record, hholders, hhanded, hfree]
    · intro hne
      exact absurd hqueue.symm hne
    · simpa [MutexView.record] using h.fifo
  | hand task hq _ hlocked' =>
    rw [hq] at hqueue
    have herase : v.waiting.erase task = mutex'.waitQueue := by
      rw [← hqueue]
      simp
    refine ⟨?_, ?_, fun _ => hlocked', ?_⟩
    · exact herase.symm
    · simp [MutexView.record, hholders, hhanded, hlocked']
    · have hfifo := h.fifo
      rw [hhanded, ← hqueue] at hfifo
      simp only [MutexView.record, hhanded, herase, List.filterMap_append, hfifo]
      simp

theorem holders_le (h : MutexAgrees mutex events v) : v.holders.length ≤ 1 := by
  have hlen := h.owned
  rw [List.length_append] at hlen
  split at hlen <;> omega

theorem locked_iff (h : MutexAgrees mutex events v) :
    mutex.locked = true ↔ v.holders ≠ [] ∨ v.handed ≠ [] := by
  have hlen := h.owned
  rw [List.length_append] at hlen
  rw [← List.length_pos_iff, ← List.length_pos_iff]
  split at hlen
  · rename_i hlocked
    exact ⟨fun _ => by omega, fun _ => hlocked⟩
  · rename_i hlocked
    exact ⟨fun hx => absurd hx hlocked, fun _ => by omega⟩

end MutexAgrees

/-- A section keeps the agreement; of the tasks handed the lock or waiting for it, it changes only the one
that runs it. -/
theorem MutexStep.agrees {m : ℕ} {t : Task} {mutex mutex' : Mutex} {pc pc' : Pc}
    {events new : List MutexEvent} {v : MutexView} (h : MutexStep m t mutex mutex' pc pc' new)
    (hv : MutexAgrees mutex events v)
    (hself : awaitsLock m pc.point = true ↔ t ∈ v.handed ∨ t ∈ v.waiting)
    (hrun : pc.queued = false → t ∉ mutex.waitQueue) (hunlocks : pc.unlocks m = true → t ∈ v.holders) :
    MutexAgrees mutex' (events ++ new) (new.foldl .record v) ∧
    (awaitsLock m pc'.point = true ↔
      t ∈ (new.foldl .record v).handed ∨ t ∈ (new.foldl .record v).waiting) ∧
    ∀ t', t' ≠ t → (t' ∈ v.handed ∨ t' ∈ v.waiting ↔
      t' ∈ (new.foldl .record v).handed ∨ t' ∈ (new.foldl .record v).waiting) := by
  cases h with
  | other hmutex hawaits =>
    rw [hmutex, hawaits, List.append_nil]
    exact ⟨hv, hself, fun _ _ => Iff.rfl⟩
  | taken hfree hlocked hq hawaits =>
    have hhanded : v.handed = [] := by
      have hlen := hv.owned
      rw [hfree] at hlen
      exact (List.append_eq_nil_iff.mp (List.length_eq_zero_iff.mp hlen)).2
    rw [hawaits, hself]
    refine ⟨hv.taken hfree hlocked hq, ?_, ?_⟩
    · simp [MutexView.record, hhanded]
    · intro t' _
      simp [MutexView.record, hhanded]
  | blocked hheld hlocked hq hawaits' =>
    refine ⟨hv.blocked hheld hlocked hq, ?_, ?_⟩
    · simp [MutexView.record, hawaits']
    · intro t' hne
      simp [MutexView.record, hne]
  | returned hmutex hawaits hawaits' hq =>
    -- the task runs, so it is in no queue: it was woken
    have hwait : t ∉ v.waiting := by
      rw [← hv.queue]
      exact hrun hq
    have hhanded := (hself.mp hawaits).resolve_right hwait
    have heq := (hv.handedTo hhanded).2.1
    rw [hmutex]
    refine ⟨hv.returned hhanded, ?_, ?_⟩
    · simp [MutexView.record, hawaits', heq, hwait]
    · intro t' hne
      simp [MutexView.record, heq, hne]
  | @unlocked woken hunlock hpc hawaits =>
    have ht := hunlocks hpc
    have hhanded := (hv.holder ht).2.1
    rw [hawaits, hself]
    have hmem : ∀ t', (t' ∈ v.handed ∨ t' ∈ v.waiting ↔
        t' ∈ (v.record (.unlocked t woken)).handed ∨ t' ∈ (v.record (.unlocked t woken)).waiting) := by
      intro t'
      cases hunlock with
      | free _ _ _ => exact Iff.rfl
      | hand task hq _ _ =>
        rw [hv.queue] at hq
        simp [MutexView.record, hhanded, hq]
    exact ⟨hv.unlocked ht hunlock, hmem t, fun t' _ => hmem t'⟩

/-- The state agrees with the history about the mutex `m`. -/
structure MutexInv (m : ℕ) (hist : History) (s : System) : Prop where
  agrees : MutexAgrees (s.kernel.mutexes m) (mutexEvents m hist) (mutexView m hist)
  awaits : ∀ t, awaitsLock m (s.control t) = true ↔
    t ∈ (mutexView m hist).handed ∨ t ∈ (mutexView m hist).waiting
  unlocks : ∀ t pc, s.cpu = .running t pc → pc.unlocks m = true → t ∈ (mutexView m hist).holders

section

variable {m : ℕ} {ok : History → Task → Call → Prop} {tasks : List Task} {hist events : History}
  {s s' : System}

theorem mutexView_append (hist events : History) :
    mutexView m (hist ++ events) = (mutexEvents m events).foldl .record (mutexView m hist) := by
  simp [mutexView]

theorem mutexView_of_nil (h : mutexEvents m events = []) :
    mutexView m (hist ++ events) = mutexView m hist := by
  rw [mutexView_append, h]
  rfl

theorem Section.not_unlocks {t : Task} {k k' : KernelState} {pc pc' : Pc} {events : List Event}
    (h : Section t k pc k' pc' events) : pc'.unlocks m = false := by
  cases h with
  | @read p want done bytes ring done' returns h => cases returns <;> rfl
  | @write p want done buf bytes ring done' returns h => cases returns <;> rfl
  | _ => rfl

theorem MutexInv.section {t : Task} {pc pc' : Pc} {k' : KernelState} {events : List Event}
    (hi : MutexInv m hist s) (hcpu : s.cpu = .running t pc)
    (hsec : Section t s.kernel pc k' pc' events)
    (hnowhere : pc.queued = false → Foundation.QueueFamily.Nowhere s.kernel.queue t) :
    MutexInv m (hist ++ events.map (Prod.mk t)) { s with kernel := k', cpu := .running t pc' } := by
  have hself := hi.awaits t
  rw [System.control_running hcpu] at hself
  obtain ⟨hagrees, htask, hothers⟩ := (hsec.mutex m).agrees hi.agrees hself
    (fun hq => (hnowhere hq).not_mem (.mutex m)) (hi.unlocks t pc hcpu)
  rw [← mutexView_append] at hagrees htask hothers
  refine ⟨by rw [mutexEvents_append]; exact hagrees, ?_, ?_⟩
  · intro t'
    by_cases hne : t = t'
    · subst hne
      rw [System.control_running rfl]
      exact htask
    · rw [System.control_of_ne hcpu hne, hi.awaits t', hothers t' (Ne.symm hne)]
  · intro t' pc'' heq hunlocks
    cases heq
    rw [hsec.not_unlocks] at hunlocks
    cases hunlocks

theorem MutexInv.step (hok : ∀ hist t c, ok hist t c → HoldersUnlock m hist t c)
    (hi : MutexInv m hist s) (h : Effect ok hist s events s') : MutexInv m (hist ++ events) s' := by
  cases h with
  | @call t c hcpu hcall =>
    have hview : mutexView m (hist ++ [(t, .called c)]) = mutexView m hist := mutexView_of_nil rfl
    have hevents : mutexEvents m (hist ++ [(t, .called c)]) = mutexEvents m hist := by
      simp [mutexEvents, mutexEvent]
    refine ⟨by rw [hview, hevents]; exact hi.agrees, ?_, ?_⟩
    · intro t'
      rw [hview, ← hi.awaits t']
      by_cases ht : t = t'
      · subst ht
        rw [System.control_running hcpu, System.control_running rfl]
        cases c <;> simp [Call.entry, Pc.point, awaitsLock]
      · rw [System.control_other hcpu ht]
        simp [System.control, ht]
    · intro t' pc heq hunlocks
      cases heq
      have hholds := hok hist t c hcall
      rw [hview]
      cases c <;> simp [Call.entry, Pc.unlocks, HoldersUnlock] at hunlocks hholds
      · exact hholds hunlocks
      · exact hholds hunlocks
  | run hcpu hsec hnowhere => exact hi.section hcpu hsec hnowhere
  | quiet hobjects hcontrol hcpu _ =>
    rw [List.append_nil]
    refine ⟨by rw [hobjects.mutexes]; exact hi.agrees, by rw [hcontrol]; exact hi.awaits, ?_⟩
    intro t pc heq hunlocks
    rcases hcpu t pc heq with hold | ⟨point, rfl⟩
    · exact hi.unlocks t pc hold hunlocks
    · cases hunlocks

theorem mutexInv_boot (tasks : List Task) (isBlocking : ℕ → Bool) (resCount : ℕ → ℕ) :
    MutexInv m [] (.boot tasks isBlocking resCount) := by
  refine ⟨⟨Mutex.waitQueue_new _, ?_, fun h => absurd rfl h, rfl⟩, ?_, ?_⟩
  · simp [System.boot, mutexView]
  · intro t
    simp [System.boot, System.control, awaitsLock, mutexView]
  · intro t pc heq
    cases heq

theorem Run.mutexInv {isBlocking : ℕ → Bool} {resCount : ℕ → ℕ}
    (hok : ∀ hist t c, ok hist t c → HoldersUnlock m hist t c) (htasks : tasks.Nodup)
    (h : Run ok (.boot tasks isBlocking resCount) hist s) : MutexInv m hist s :=
  h.invariant htasks (mutexInv_boot tasks isBlocking resCount) fun hi heffect => hi.step hok heffect

end

/-- **Mutual exclusion.**  If the mutex `m` is only unlocked by tasks that hold it, then at any time at
most one task is between a returned `lock` and its `unlock`; the mutex is locked exactly when there is
such a task or a woken one to whom it was handed; the wait queue holds the tasks that blocked and were not
woken, each once, and is empty while the mutex is free; and the tasks that blocked obtain the lock in the
order in which they blocked. -/
theorem mutex_excludes {tasks : List Task} {hist : History} {s : System} (m : ℕ)
    (isBlocking : ℕ → Bool) (resCount : ℕ → ℕ) (htasks : tasks.Nodup)
    (h : Run (HoldersUnlock m) (.boot tasks isBlocking resCount) hist s) :
    (mutexView m hist).holders.length ≤ 1 ∧
    ((s.kernel.mutexes m).locked = true ↔
      (mutexView m hist).holders ≠ [] ∨ (mutexView m hist).handed ≠ []) ∧
    ((s.kernel.mutexes m).waitQueue ≠ [] → (s.kernel.mutexes m).locked = true) ∧
    (s.kernel.mutexes m).waitQueue = (mutexView m hist).waiting ∧
    (s.kernel.mutexes m).waitQueue.Nodup ∧
    blockedOn m hist = obtained m hist ++ (mutexView m hist).handed ++ (mutexView m hist).waiting := by
  have hinv := h.mutexInv (fun _ _ _ hx => hx) htasks
  have hqueue := hinv.agrees.queue
  have hplaced := h.placed htasks
  refine ⟨hinv.agrees.holders_le, hinv.agrees.locked_iff, ?_, hqueue, hplaced.spread.nodup (.mutex m),
    hinv.agrees.fifo⟩
  rw [hqueue]
  exact hinv.agrees.waitLocked

instance (m : ℕ) (hist : History) (t : Task) : (c : Call) → Decidable (HoldersUnlock m hist t c)
  | .mutexUnlock m' => inferInstanceAs (Decidable (m' = m → t ∈ (mutexView m hist).holders))
  | .condvarWait _ m' => inferInstanceAs (Decidable (m' = m → t ∈ (mutexView m hist).holders))
  | .yield | .sleep _ | .mutexLock _ | .semaphoreUp _ | .semaphoreDown _ | .condvarSignal _
  | .pipeRead _ _ | .pipeWrite _ _ | .dupWriteEnd _ | .closeWriteEnd _ => isTrue trivial

/-- The task 1 blocks on a mutex that the task 0 holds; the unlock hands it over. -/
def handOver : List Action :=
  [.fetch, .start, .call (.mutexLock 0), .exec [], .call .yield, .exec [], .exec [], .exec [], .switch,
   .fetch, .start, .call (.mutexLock 0), .exec [], .exec [], .exec [], .switch,
   .fetch, .start, .call (.mutexUnlock 0), .exec []]

theorem mutex_excludes_handOver : ∃ hist s,
    Run (HoldersUnlock 0) (.boot [0, 1] (fun _ => true) fun _ => 0) hist s ∧
    (mutexView 0 hist).handed = [1] ∧ (s.kernel.mutexes 0).locked = true := by
  obtain ⟨hist, s, hrun, hhanded⟩ := exists_run (HoldersUnlock 0)
    (.boot [0, 1] (fun _ => true) fun _ => 0) (fun hist _ => (mutexView 0 hist).handed = [1]) handOver
    (by decide)
  have hlocked := (mutex_excludes 0 (fun _ => true) (fun _ => 0) (by decide) hrun).2.1
  refine ⟨hist, s, hrun, hhanded, hlocked.mpr (Or.inr ?_)⟩
  rw [hhanded]
  simp

end LemonCore.Kernel
