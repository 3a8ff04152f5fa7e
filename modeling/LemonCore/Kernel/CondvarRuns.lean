import LemonCore.Kernel.MutexRuns
import LemonCore.Foundation.EventLog

/-!
# Condition variables

`wait_with_mutex` unlocks the mutex, queues the current task in a section of its own and blocks.  Between
the first two no other task runs, so that the tasks which a signal finds in the queue are those which have
released the mutex for a wait and were not signalled.

* `Section.condvar`: what one section does to a condition variable;
* `CondvarInv`: the queue and the control of the tasks agree with the history, kept by every step;
* `condvar_waits`: no signal is lost, and a wait returns signalled and with the mutex held.
-/

namespace LemonCore.Kernel

open Foundation.EventLog

inductive CondvarEvent where
  | released (t : Task)
  | signalled (woken : Option Task)
  | returned (t : Task)
  deriving DecidableEq, Repr

/-- What an event says about the condition variable `c`. -/
def condvarEvent (c : ℕ) : Task × Event → Option CondvarEvent
  | (t, .waitReleased c' _) => if c' = c then some (.released t) else none
  | (_, .signalled c' woken) => if c' = c then some (.signalled woken) else none
  | (t, .waitReturned c' _) => if c' = c then some (.returned t) else none
  | _ => none

def condvarEvents (c : ℕ) (hist : History) : List CondvarEvent := hist.filterMap (condvarEvent c)

structure CondvarView where
  /-- the tasks that released the mutex for a wait and were not signalled, in this order -/
  waiting : List Task := []
  /-- the tasks that were signalled and whose wait has not returned -/
  signalled : List Task := []
  deriving DecidableEq, Repr

def CondvarView.record (v : CondvarView) : CondvarEvent → CondvarView
  | .released t => { v with waiting := v.waiting ++ [t] }
  | .signalled none => v
  | .signalled (some task) =>
    { waiting := v.waiting.erase task, signalled := v.signalled ++ [task] }
  | .returned t => { v with signalled := v.signalled.erase t }

def condvarView (c : ℕ) (hist : History) : CondvarView := (condvarEvents c hist).foldl .record {}

/-- What is due about the condition variable `c`: a signal wakes the task that has waited longest since it
released the mutex, if there is one; a wait returns after a signal, and its task holds the mutex then. -/
def CondvarDue (c : ℕ) (before : History) : Task × Event → Prop
  | (_, .signalled c' woken) => c' = c → woken = (condvarView c before).waiting.head?
  | (t, .waitReturned c' m) =>
    c' = c → t ∈ (condvarView c before).signalled ∧ t ∈ (mutexView m before).holders
  | _ => True

/-! ### One section -/

/-- The task goes on inside `wait_with_mutex`, behind the unlock. -/
def awaitsSignal (c : ℕ) : Option Resume → Bool
  | some (.lock _ (.wait c')) => c' = c
  | some (.lockReturn _ (.wait c')) => c' = c
  | _ => false

/-- The next section puts the task into the queue. -/
def Pc.enqueues (c : ℕ) : Pc → Bool
  | .waitEnqueue c' _ => c' = c
  | _ => false

/-- What a section of the task `t` does to the condition variable `c`. -/
inductive CondvarStep (c : ℕ) (t : Task) (cond cond' : Condvar) (pc pc' : Pc) :
    List CondvarEvent → Prop where
  | other (hcond : cond' = cond) (hawaits : awaitsSignal c pc'.point = awaitsSignal c pc.point)
      (hno : pc.enqueues c = false) (hno' : pc'.enqueues c = false) :
      CondvarStep c t cond cond' pc pc' []
  | released (hcond : cond' = cond) (hawaits : awaitsSignal c pc.point = false)
      (hawaits' : awaitsSignal c pc'.point = true) (hno : pc.enqueues c = false)
      (hyes' : pc'.enqueues c = true) : CondvarStep c t cond cond' pc pc' [.released t]
  | enqueued (hq : cond'.waitQueue = cond.waitQueue ++ [t])
      (hawaits : awaitsSignal c pc'.point = awaitsSignal c pc.point) (hyes : pc.enqueues c = true)
      (hno' : pc'.enqueues c = false) : CondvarStep c t cond cond' pc pc' []
  | signalled (hcond : cond' = cond.signal.2)
      (hawaits : awaitsSignal c pc'.point = awaitsSignal c pc.point) (hno : pc.enqueues c = false)
      (hno' : pc'.enqueues c = false) : CondvarStep c t cond cond' pc pc' [.signalled cond.signal.1]
  | returned (hcond : cond' = cond) (hawaits : awaitsSignal c pc.point = true)
      (hawaits' : awaitsSignal c pc'.point = false) (hrun : pc.queued = false)
      (hno : pc.enqueues c = false) (hno' : pc'.enqueues c = false) :
      CondvarStep c t cond cond' pc pc' [.returned t]

section

variable {c : ℕ} {t : Task} {k k' : KernelState} {pc pc' : Pc} {events : List Event}

@[simp] theorem condvarEvents_append (hist hist' : History) :
    condvarEvents c (hist ++ hist') = condvarEvents c hist ++ condvarEvents c hist' :=
  List.filterMap_append

theorem condvarEvents_cons (x : Task × Event) (hist : History) :
    condvarEvents c (x :: hist) = (condvarEvent c x).toList ++ condvarEvents c hist := by
  rw [condvarEvents, List.filterMap_cons]
  cases condvarEvent c x <;> rfl

theorem condvarEvents_lockReturns (m : ℕ) (waited : Bool) (c' : ℕ) :
    condvarEvents c ((lockReturns m waited (.wait c')).map (Prod.mk t)) =
      if c' = c then [.returned t] else [] := by
  show ((condvarEvent c (t, .waitReturned c' m)).toList : List CondvarEvent) = _
  rw [condvarEvent]
  split <;> rfl

theorem condvarEvents_waitUnlock (m c' : ℕ) (woken : Option Task) :
    condvarEvents c (([.unlocked m woken, .waitReleased c' m] : List Event).map (Prod.mk t)) =
      if c' = c then [.released t] else [] := by
  show ((condvarEvent c (t, .waitReleased c' m)).toList : List CondvarEvent) = _
  rw [condvarEvent]
  split <;> rfl

theorem setCondvar_same (k : KernelState) (c : ℕ) (cond : Condvar) :
    (k.setCondvar c cond).condvars c = cond := by
  simp [KernelState.setCondvar]

theorem setCondvar_other (k : KernelState) {c c' : ℕ} (h : c' ≠ c) (cond : Condvar) :
    (k.setCondvar c' cond).condvars c = k.condvars c := by
  simp [KernelState.setCondvar, Ne.symm h]

-- `lock` returns to its caller at two places.
theorem condvar_lockReturns {m : ℕ} {waited : Bool} {caller : LockCaller} {point : Resume}
    (hpoint : point = .lock m caller ∨ point = .lockReturn m caller) (cond : Condvar) :
    CondvarStep c t cond cond (.resume point) (.resume .user)
      (condvarEvents c ((lockReturns m waited caller).map (Prod.mk t))) := by
  cases caller with
  | syscall => rcases hpoint with rfl | rfl <;> exact .other rfl rfl rfl rfl
  | wait c' =>
    rw [condvarEvents_lockReturns]
    by_cases hc : c' = c
    · rw [if_pos hc]
      refine .returned rfl ?_ rfl rfl rfl rfl
      rcases hpoint with rfl | rfl <;> simp [Pc.point, awaitsSignal, hc]
    · rw [if_neg hc]
      refine .other rfl ?_ rfl rfl
      rcases hpoint with rfl | rfl <;> simp [Pc.point, awaitsSignal, hc]

theorem Section.condvar (c : ℕ) (h : Section t k pc k' pc' events) :
    CondvarStep c t (k.condvars c) (k'.condvars c) pc pc'
      (condvarEvents c (events.map (Prod.mk t))) := by
  cases h with
  | lockTaken _ _ _ => exact condvar_lockReturns (Or.inl rfl) _
  | lockReturn => exact condvar_lockReturns (Or.inr rfl) _
  | @waitUnlock c' m woken mutex h =>
    rw [condvarEvents_waitUnlock, KernelState.condvars_wakeup]
    by_cases hc : c' = c
    · rw [if_pos hc]
      exact .released rfl rfl (by simp [Pc.point, awaitsSignal, hc]) rfl (by simp [Pc.enqueues, hc])
    · rw [if_neg hc]
      exact .other rfl (by simp [Pc.point, awaitsSignal, hc]) rfl (by simp [Pc.enqueues, hc])
  | @waitEnqueue c' m =>
    by_cases hc : c' = c
    · subst hc
      rw [setCondvar_same]
      exact .enqueued rfl rfl (by simp [Pc.enqueues]) rfl
    · rw [setCondvar_other k hc]
      exact .other rfl rfl (by simp [Pc.enqueues, hc]) rfl
  | @signal c' =>
    rw [List.map_singleton, condvarEvents_cons, condvarEvent, KernelState.condvars_wakeup]
    by_cases hc : c' = c
    · subst hc
      rw [if_pos rfl, setCondvar_same]
      exact .signalled rfl rfl rfl rfl
    · rw [if_neg hc, setCondvar_other k hc]
      exact .other rfl rfl rfl rfl
  | @lockBlocked m caller mutex _ _ _ =>
    refine .other rfl ?_ rfl rfl
    cases caller <;> rfl
  | unlock _ => exact .other (by simp [KernelState.setMutex]) rfl rfl rfl
  | up => exact .other (by simp [KernelState.setSemaphore]) rfl rfl rfl
  | @read p want done bytes ring done' returns h => cases returns <;> exact .other rfl rfl rfl rfl
  | @write p want done buf bytes ring done' returns h => cases returns <;> exact .other rfl rfl rfl rfl
  | badFd hpc => rcases hpc with ⟨want, rfl⟩ | rfl | rfl <;> exact .other rfl rfl rfl rfl
  | _ => exact .other rfl rfl rfl rfl

end

/-! ### The condition variable and the history -/

/-- The queue is as the history says; `pending` is the task between its unlock and the queue. -/
structure CondvarAgrees (cond : Condvar) (pending : List Task) (v : CondvarView) : Prop where
  queue : cond.waitQueue ++ pending = v.waiting
  nodup : (v.signalled ++ v.waiting).Nodup

/-- A section keeps the agreement; of the tasks in a wait, it changes only the one that runs it. -/
theorem CondvarStep.agrees {c : ℕ} {t : Task} {cond cond' : Condvar} {pc pc' : Pc}
    {new : List CondvarEvent} {v : CondvarView} (h : CondvarStep c t cond cond' pc pc' new)
    (hv : CondvarAgrees cond (if pc.enqueues c then [t] else []) v)
    (hself : awaitsSignal c pc.point = true ↔ t ∈ v.signalled ∨ t ∈ v.waiting)
    (hrun : pc.queued = false → t ∉ cond.waitQueue) :
    CondvarAgrees cond' (if pc'.enqueues c then [t] else []) (new.foldl .record v) ∧
    (∀ woken, new = [.signalled woken] → woken = v.waiting.head?) ∧
    (new = [.returned t] → t ∈ v.signalled) ∧
    (awaitsSignal c pc'.point = true ↔
      t ∈ (new.foldl .record v).signalled ∨ t ∈ (new.foldl .record v).waiting) ∧
    ∀ t', t' ≠ t → (t' ∈ v.signalled ∨ t' ∈ v.waiting ↔
      t' ∈ (new.foldl .record v).signalled ∨ t' ∈ (new.foldl .record v).waiting) := by
  obtain ⟨hqueue, hnodup⟩ := hv
  cases h with
  | other hcond hawaits hno hno' =>
    rw [hno] at hqueue
    rw [hcond, hawaits, hno']
    exact ⟨⟨hqueue, hnodup⟩, by simp, by simp, hself, fun _ _ => Iff.rfl⟩
  | released hcond hawaits hawaits' hno hyes' =>
    rw [hno] at hqueue
    have ht : ¬ (t ∈ v.signalled ∨ t ∈ v.waiting) := by
      rw [← hself, hawaits]
      simp
    rw [hcond, hyes', hawaits']
    refine ⟨⟨?_, ?_⟩, by simp, by simp, ?_, ?_⟩
    · rw [← List.append_nil cond.waitQueue]
      exact congrArg (· ++ [t]) hqueue
    · show (v.signalled ++ (v.waiting ++ [t])).Nodup
      rw [← List.append_assoc]
      refine List.nodup_append.mpr ⟨hnodup, List.nodup_singleton t, ?_⟩
      intro a ha b hb heq
      rw [List.mem_singleton.mp hb] at heq
      exact ht (List.mem_append.mp (heq ▸ ha))
    · simp [CondvarView.record]
    · intro t' hne
      simp [CondvarView.record, hne]
  | enqueued hq hawaits hyes hno' =>
    rw [hyes] at hqueue
    rw [hawaits, hno']
    refine ⟨⟨?_, hnodup⟩, by simp, by simp, hself, fun _ _ => Iff.rfl⟩
    rw [hq]
    simpa using hqueue
  | signalled hcond hawaits hno hno' =>
    rw [hno] at hqueue
    have hqueue' : cond.waitQueue = v.waiting := by simpa using hqueue
    rw [hcond, hawaits, hself, hno']
    rcases cond.signal_cases with ⟨hwoken, hq, hq'⟩ | ⟨task, hwoken, hq⟩
    · rw [hwoken]
      rw [hqueue'] at hq
      refine ⟨⟨?_, hnodup⟩, ?_, by simp, Iff.rfl, fun _ _ => Iff.rfl⟩
      · rw [hq']
        exact hq.symm
      · intro woken heq
        cases heq
        rw [hq]
        rfl
    · rw [hwoken]
      rw [hqueue'] at hq
      have herase : v.waiting.erase task = cond.signal.2.waitQueue := by
        rw [hq]
        simp
      have hmem : ∀ t', (t' ∈ v.signalled ∨ t' ∈ v.waiting ↔
          t' ∈ (v.record (.signalled (some task))).signalled ∨
          t' ∈ (v.record (.signalled (some task))).waiting) := by
        intro t'
        simp [CondvarView.record, hq, or_assoc]
      refine ⟨⟨?_, ?_⟩, ?_, by simp, hmem t, fun t' _ => hmem t'⟩
      · show _ = v.waiting.erase task
        rw [herase]
        simp
      · show ((v.signalled ++ [task]) ++ v.waiting.erase task).Nodup
        rw [herase, List.append_assoc, List.singleton_append, ← hq]
        exact hnodup
      · intro woken heq
        cases heq
        rw [hq]
        rfl
  | returned hcond hawaits hawaits' hq hno hno' =>
    rw [hno] at hqueue
    -- the task runs, so it is in no queue: it was signalled
    have hwait : t ∉ v.waiting := by
      rw [← hqueue]
      simpa using hrun hq
    have hsig := (hself.mp hawaits).resolve_right hwait
    have hnodup' : v.signalled.Nodup := (List.nodup_append.mp hnodup).1
    rw [hcond, hno', hawaits']
    refine ⟨⟨hqueue, ?_⟩, by simp, fun _ => hsig, ?_, ?_⟩
    · exact hnodup.sublist (List.Sublist.append_right List.erase_sublist v.waiting)
    · simp [CondvarView.record, hwait, hnodup'.mem_erase_iff]
    · intro t' hne
      simp [CondvarView.record, hnodup'.mem_erase_iff, hne]

/-- The task that has released the mutex and is not in the queue yet. -/
def Cpu.pending (c : ℕ) : Cpu → List Task
  | running t pc => if pc.enqueues c then [t] else []
  | _ => []

/-- The state agrees with the history about the condition variable `c`. -/
structure CondvarInv (c : ℕ) (hist : History) (s : System) : Prop where
  agrees : CondvarAgrees (s.kernel.condvars c) (s.cpu.pending c) (condvarView c hist)
  awaits : ∀ t, awaitsSignal c (s.control t) = true ↔
    t ∈ (condvarView c hist).signalled ∨ t ∈ (condvarView c hist).waiting
  due : Always (CondvarDue c) hist

section

variable {c : ℕ} {ok : History → Task → Call → Prop} {tasks : List Task} {hist events : History}
  {s s' : System}

theorem condvarView_append (hist events : History) :
    condvarView c (hist ++ events) = (condvarEvents c events).foldl .record (condvarView c hist) := by
  simp [condvarView]

theorem Section.condvarDue {t : Task} {k k' : KernelState} {pc pc' : Pc} {events : List Event}
    (h : Section t k pc k' pc' events) (hhist : Always (CondvarDue c) hist)
    (hsig : ∀ woken, condvarEvents c (events.map (Prod.mk t)) = [.signalled woken] →
      woken = (condvarView c hist).waiting.head?)
    (hret : condvarEvents c (events.map (Prod.mk t)) = [.returned t] →
      t ∈ (condvarView c hist).signalled) :
    Always (CondvarDue c) (hist ++ events.map (Prod.mk t)) := by
  -- `lock` returns, and with it the wait
  have hlock : ∀ (m : ℕ) (waited : Bool) (caller : LockCaller), events = lockReturns m waited caller →
      Always (CondvarDue c) (hist ++ events.map (Prod.mk t)) := by
    intro m waited caller hevents
    subst hevents
    cases caller with
    | syscall => exact always_concat.mpr ⟨hhist, trivial⟩
    | wait c' =>
      rw [condvarEvents_lockReturns] at hret
      rw [lockReturns, List.map_cons, List.map_singleton, List.append_cons]
      refine always_concat.mpr ⟨always_concat.mpr ⟨hhist, trivial⟩, fun hc => ⟨?_, ?_⟩⟩
      · have hview : condvarView c (hist ++ [(t, .lockReturned m waited)]) = condvarView c hist := by
          rw [condvarView_append]
          rfl
        rw [hview]
        exact hret (if_pos hc)
      · rw [mutexView_append]
        simp [mutexEvents, mutexEvent, MutexView.record]
  cases h with
  | @lockTaken m caller _ _ _ _ => exact hlock m false caller rfl
  | @lockReturn m caller => exact hlock m true caller rfl
  | @signal c' =>
    refine always_concat.mpr ⟨hhist, fun hc => ?_⟩
    apply hsig
    simp [condvarEvents, condvarEvent, hc]
  | @read p want done bytes ring done' returns h =>
    cases returns <;> exact hhist.append (by simp [CondvarDue])
  | @write p want done buf bytes ring done' returns h =>
    cases returns <;> exact hhist.append (by simp [CondvarDue])
  | _ => exact hhist.append (by simp [CondvarDue])

theorem CondvarInv.section {t : Task} {pc pc' : Pc} {k' : KernelState} {events : List Event}
    (hi : CondvarInv c hist s) (hcpu : s.cpu = .running t pc)
    (hsec : Section t s.kernel pc k' pc' events)
    (hnowhere : pc.queued = false → Foundation.QueueFamily.Nowhere s.kernel.queue t) :
    CondvarInv c (hist ++ events.map (Prod.mk t)) { s with kernel := k', cpu := .running t pc' } := by
  have hself := hi.awaits t
  rw [System.control_running hcpu] at hself
  have hagrees := hi.agrees
  rw [hcpu] at hagrees
  obtain ⟨hagrees', hsig, hret, htask, hothers⟩ := (hsec.condvar c).agrees hagrees hself
    fun hq => (hnowhere hq).not_mem (.condvar c)
  rw [← condvarView_append] at hagrees' htask hothers
  refine ⟨hagrees', ?_, hsec.condvarDue hi.due hsig hret⟩
  intro t'
  by_cases hne : t = t'
  · subst hne
    rw [System.control_running rfl]
    exact htask
  · rw [System.control_of_ne hcpu hne, hi.awaits t', hothers t' (Ne.symm hne)]

theorem CondvarInv.step (hi : CondvarInv c hist s) (h : Effect ok hist s events s') :
    CondvarInv c (hist ++ events) s' := by
  cases h with
  | @call t call hcpu _ =>
    have hview : condvarView c (hist ++ [(t, .called call)]) = condvarView c hist := by
      rw [condvarView_append]
      rfl
    have hagrees := hi.agrees
    rw [hcpu] at hagrees
    refine ⟨?_, ?_, always_concat.mpr ⟨hi.due, trivial⟩⟩
    · rw [hview]
      cases call <;> exact hagrees
    · intro t'
      rw [hview, ← hi.awaits t']
      by_cases ht : t = t'
      · subst ht
        rw [System.control_running hcpu, System.control_running rfl]
        cases call <;> simp [Call.entry, Pc.point, awaitsSignal]
      · rw [System.control_other hcpu ht]
        simp [System.control, ht]
  | run hcpu hsec hnowhere => exact hi.section hcpu hsec hnowhere
  | quiet hobjects hcontrol hcpu hkeeps =>
    rw [List.append_nil]
    have hpending : s'.cpu.pending c = s.cpu.pending c := by
      cases hs : s.cpu with
      | running t pc =>
        rcases hkeeps t pc hs with hsame | ⟨point, rfl⟩
        · rw [hsame]
        · cases hs' : s'.cpu with
          | running t' pc' =>
            rcases hcpu t' pc' hs' with hold | ⟨point', rfl⟩
            · rw [hs] at hold
              rw [hold]
            · rfl
          | _ => rfl
      | _ =>
        cases hs' : s'.cpu with
        | running t' pc' =>
          rcases hcpu t' pc' hs' with hold | ⟨point', rfl⟩
          · rw [hs] at hold
            cases hold
          · rfl
        | _ => rfl
    exact ⟨by rw [hobjects.condvars, hpending]; exact hi.agrees, by rw [hcontrol]; exact hi.awaits, hi.due⟩

theorem condvarInv_boot (tasks : List Task) (isBlocking : ℕ → Bool) (resCount : ℕ → ℕ) :
    CondvarInv c [] (.boot tasks isBlocking resCount) := by
  refine ⟨⟨rfl, List.nodup_nil⟩, ?_, always_nil⟩
  intro t
  simp [System.boot, System.control, awaitsSignal, condvarView, condvarEvents]

end

/-- **Condition variables.**  If the mutex `m` is only unlocked, and waited with, by its holder, then every
signal on `c` wakes the task that has waited longest since it released the mutex, if there is one; a wait
returns only after its task was signalled, and with the mutex held; the tasks in a wait that were not
signalled are those in the queue, except for one that is about to enter it; and at most one task holds `m`
at any time. -/
theorem condvar_waits {tasks : List Task} {hist : History} {s : System} (c m : ℕ)
    (isBlocking : ℕ → Bool) (resCount : ℕ → ℕ) (htasks : tasks.Nodup)
    (h : Run (HoldersUnlock m) (.boot tasks isBlocking resCount) hist s) :
    Always (CondvarDue c) hist ∧
    (s.kernel.condvars c).waitQueue ++ s.cpu.pending c = (condvarView c hist).waiting ∧
    (mutexView m hist).holders.length ≤ 1 ∧
    ((s.kernel.mutexes m).locked = true ↔
      (mutexView m hist).holders ≠ [] ∨ (mutexView m hist).handed ≠ []) := by
  have hcond : CondvarInv c hist s := h.invariant htasks (condvarInv_boot tasks isBlocking resCount)
    fun hi heffect => hi.step heffect
  have hmutex := h.mutexInv (fun _ _ _ hx => hx) htasks
  exact ⟨hcond.due, hcond.agrees.queue, hmutex.agrees.holders_le, hmutex.agrees.locked_iff⟩

/-- The task 0 waits; the task 1 signals it while it holds the mutex. -/
def waitAndSignal : List Action :=
  [.fetch, .start, .call (.mutexLock 0), .exec [], .call (.condvarWait 0 0), .exec [], .exec [], .exec [],
   .exec [], .switch,
   .fetch, .start, .call (.mutexLock 0), .exec [], .call (.condvarSignal 0), .exec [],
   .call (.mutexUnlock 0), .exec [], .call .yield, .exec [], .exec [], .exec [], .switch,
   .fetch, .start, .exec []]

theorem condvar_waits_waitAndSignal : ∃ hist s,
    Run (HoldersUnlock 0) (.boot [0, 1] (fun _ => true) fun _ => 0) hist s ∧
    (0, .waitReturned 0 0) ∈ hist ∧ Always (CondvarDue 0) hist ∧
    (mutexView 0 hist).holders.length ≤ 1 := by
  obtain ⟨hist, s, hrun, hreturned⟩ := exists_run (HoldersUnlock 0)
    (.boot [0, 1] (fun _ => true) fun _ => 0) (fun hist _ => (0, .waitReturned 0 0) ∈ hist)
    waitAndSignal (by decide)
  obtain ⟨hdue, _, hone, _⟩ := condvar_waits 0 0 (fun _ => true) (fun _ => 0) (by decide) hrun
  exact ⟨hist, s, hrun, hreturned, hdue, hone⟩

end LemonCore.Kernel
