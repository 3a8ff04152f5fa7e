import LemonCore.Kernel.Effects
import LemonCore.Foundation.EventLog

/-!
# Semaphores

The signed counter of a semaphore is both the number of free resources and, negated, the number of tasks
that wait.  A history determines how many times `up` and `down` ran, how many `down`s have returned, which
tasks blocked, which of them were woken and which still wait.

* `Section.semaphore`: what one section does to a semaphore;
* `SemaphoreInv`: the semaphore and the control of the tasks agree with the history, kept by every step as
  long as no `up` finds the counter at `isize::MAX`;
* `semaphore_counts`: the counter, the wait queue and the order of the wake-ups;
* `semaphore_overflows`: one `up` on a semaphore created with `isize::MAX` resources.
-/

namespace LemonCore.Kernel

open Foundation.EventLog

inductive SemaphoreEvent where
  | passed (t : Task)
  | blocked (t : Task)
  | returned (t : Task)
  | upped (t : Task) (woken : Option Task)
  deriving DecidableEq, Repr

/-- What an event says about the semaphore `i`. -/
def semaphoreEvent (i : ℕ) : Task × Event → Option SemaphoreEvent
  | (t, .downPassed i') => if i' = i then some (.passed t) else none
  | (t, .downBlocked i') => if i' = i then some (.blocked t) else none
  | (t, .downReturned i') => if i' = i then some (.returned t) else none
  | (t, .upped i' woken) => if i' = i then some (.upped t woken) else none
  | _ => none

def semaphoreEvents (i : ℕ) (hist : History) : List SemaphoreEvent :=
  hist.filterMap (semaphoreEvent i)

/-- What a history says about a semaphore. -/
structure SemaphoreView where
  /-- how many times `up` ran -/
  ups : ℕ := 0
  /-- how many times the critical section of `down` ran -/
  downs : ℕ := 0
  /-- how many `down`s have returned -/
  passed : ℕ := 0
  /-- the tasks that blocked, in this order -/
  blocked : List Task := []
  /-- the tasks that were woken, in this order -/
  wokenUp : List Task := []
  /-- the tasks that were woken and whose `down` has not returned -/
  woken : List Task := []
  /-- the tasks that blocked and were not woken -/
  waiting : List Task := []
  deriving DecidableEq, Repr

def SemaphoreView.record (v : SemaphoreView) : SemaphoreEvent → SemaphoreView
  | .passed _ => { v with downs := v.downs + 1, passed := v.passed + 1 }
  | .blocked t =>
    { v with downs := v.downs + 1, blocked := v.blocked ++ [t], waiting := v.waiting ++ [t] }
  | .returned t => { v with passed := v.passed + 1, woken := v.woken.erase t }
  | .upped _ none => { v with ups := v.ups + 1 }
  | .upped _ (some task) =>
    { v with
      ups := v.ups + 1
      wokenUp := v.wokenUp ++ [task]
      woken := v.woken ++ [task]
      waiting := v.waiting.erase task }

def semaphoreView (i : ℕ) (hist : History) : SemaphoreView := (semaphoreEvents i hist).foldl .record {}

/-- The operations that ran on the semaphore. -/
def semaphoreOps (i : ℕ) (hist : History) : ℕ := (semaphoreView i hist).ups + (semaphoreView i hist).downs

/-- What the counter would be without a bound. -/
def SemaphoreView.balance (v : SemaphoreView) (resCount : ℕ) : ℤ := resCount + v.ups - v.downs

/-- `up` is only called while the counter is below `isize::MAX`. -/
def UpsBelowMax (i resCount : ℕ) (hist : History) (_ : Task) : Call → Prop
  | .semaphoreUp i' => i' = i → (semaphoreView i hist).balance resCount < isizeMax
  | _ => True

/-! ### One section -/

/-- The task goes on behind the `block_current_and_run_next` of `down`. -/
def awaitsDown (i : ℕ) : Option Resume → Bool
  | some (.downReturn i') => i' = i
  | _ => false

/-- The next section is `up`. -/
def Pc.ups (i : ℕ) : Pc → Bool
  | .up i' => i' = i
  | _ => false

/-- What a section of the task `t` does to the semaphore `i`. -/
inductive SemaphoreStep (i : ℕ) (t : Task) (sem sem' : Semaphore) (pc pc' : Pc) :
    List SemaphoreEvent → Prop where
  | other (hsem : sem' = sem) (hawaits : awaitsDown i pc'.point = awaitsDown i pc.point) :
      SemaphoreStep i t sem sem' pc pc' []
  | passed (hcount : sem'.count = wrapIsize (sem.count - 1)) (hpos : 0 ≤ sem'.count)
      (hq : sem'.waitQueue = sem.waitQueue)
      (hawaits : awaitsDown i pc'.point = awaitsDown i pc.point) :
      SemaphoreStep i t sem sem' pc pc' [.passed t]
  | blocked (hcount : sem'.count = wrapIsize (sem.count - 1)) (hneg : sem'.count < 0)
      (hq : sem'.waitQueue = sem.waitQueue ++ [t]) (hawaits : awaitsDown i pc.point = false)
      (hawaits' : awaitsDown i pc'.point = true) : SemaphoreStep i t sem sem' pc pc' [.blocked t]
  | returned (hsem : sem' = sem) (hawaits : awaitsDown i pc.point = true)
      (hawaits' : awaitsDown i pc'.point = false) (hrun : pc.queued = false) :
      SemaphoreStep i t sem sem' pc pc' [.returned t]
  | upped (hsem : sem' = sem.up.2) (hpc : pc.ups i = true)
      (hawaits : awaitsDown i pc'.point = awaitsDown i pc.point) :
      SemaphoreStep i t sem sem' pc pc' [.upped t sem.up.1]

section

variable {i : ℕ} {t : Task} {k k' : KernelState} {pc pc' : Pc} {events : List Event}

@[simp] theorem semaphoreEvents_append (hist hist' : History) :
    semaphoreEvents i (hist ++ hist') = semaphoreEvents i hist ++ semaphoreEvents i hist' :=
  List.filterMap_append

theorem semaphoreEvents_cons (x : Task × Event) (hist : History) :
    semaphoreEvents i (x :: hist) = (semaphoreEvent i x).toList ++ semaphoreEvents i hist := by
  rw [semaphoreEvents, List.filterMap_cons]
  cases semaphoreEvent i x <;> rfl

theorem semaphoreEvents_lockReturns (m : ℕ) (waited : Bool) (caller : LockCaller) :
    semaphoreEvents i ((lockReturns m waited caller).map (Prod.mk t)) = [] := by
  cases caller <;> rfl

theorem setSemaphore_same (k : KernelState) (i : ℕ) (sem : Semaphore) :
    (k.setSemaphore i sem).semaphores i = sem := by
  simp [KernelState.setSemaphore]

theorem setSemaphore_other (k : KernelState) {i i' : ℕ} (h : i' ≠ i) (sem : Semaphore) :
    (k.setSemaphore i' sem).semaphores i = k.semaphores i := by
  simp [KernelState.setSemaphore, Ne.symm h]

theorem Section.semaphore (i : ℕ) (h : Section t k pc k' pc' events) :
    SemaphoreStep i t (k.semaphores i) (k'.semaphores i) pc pc'
      (semaphoreEvents i (events.map (Prod.mk t))) := by
  cases h with
  | @downPassed i' sem hcount hpos hq =>
    rw [List.map_singleton, semaphoreEvents_cons, semaphoreEvent]
    by_cases hi : i' = i
    · subst hi
      rw [if_pos rfl, setSemaphore_same]
      exact .passed hcount hpos hq rfl
    · rw [if_neg hi, setSemaphore_other k hi]
      exact .other rfl rfl
  | @downBlocked i' sem hcount hneg hq =>
    rw [List.map_singleton, semaphoreEvents_cons, semaphoreEvent]
    by_cases hi : i' = i
    · subst hi
      rw [if_pos rfl, setSemaphore_same]
      exact .blocked hcount hneg hq rfl (by simp [Pc.point, awaitsDown])
    · rw [if_neg hi, setSemaphore_other k hi]
      exact .other rfl (by simp [Pc.point, awaitsDown, hi])
  | @downReturn i' =>
    rw [List.map_singleton, semaphoreEvents_cons, semaphoreEvent]
    by_cases hi : i' = i
    · subst hi
      rw [if_pos rfl]
      exact .returned rfl (by simp [Pc.point, awaitsDown]) rfl rfl
    · rw [if_neg hi]
      exact .other rfl (by simp [Pc.point, awaitsDown, hi])
  | @up i' =>
    rw [List.map_singleton, semaphoreEvents_cons, semaphoreEvent, KernelState.semaphores_wakeup]
    by_cases hi : i' = i
    · subst hi
      rw [if_pos rfl, setSemaphore_same]
      exact .upped rfl (by simp [Pc.ups]) rfl
    · rw [if_neg hi, setSemaphore_other k hi]
      exact .other rfl rfl
  | lockTaken _ _ _ =>
    rw [semaphoreEvents_lockReturns]
    exact .other rfl rfl
  | lockReturn =>
    rw [semaphoreEvents_lockReturns]
    exact .other rfl rfl
  | unlock _ => exact .other (by simp [KernelState.setMutex]) rfl
  | waitUnlock _ => exact .other (by simp [KernelState.setMutex]) rfl
  | signal => exact .other (by simp [KernelState.setCondvar]) rfl
  | @read p want done bytes ring done' returns h => cases returns <;> exact .other rfl rfl
  | @write p want done buf bytes ring done' returns h => cases returns <;> exact .other rfl rfl
  | badFd hpc => rcases hpc with ⟨want, rfl⟩ | rfl | rfl <;> exact .other rfl rfl
  | _ => exact .other rfl rfl

end

/-! ### The semaphore and the history -/

/-- An event that was due: `down` passes while there are resources and blocks otherwise, a blocked `down`
returns after a wake-up, and `up` wakes the task that waits longest, if there is one. -/
def SemaphoreEvent.Due (resCount : ℕ) (v : SemaphoreView) : SemaphoreEvent → Prop
  | .passed _ => 0 < v.balance resCount
  | .blocked _ => v.balance resCount ≤ 0
  | .returned t => t ∈ v.woken
  | .upped _ woken => woken = v.waiting.head?

/-- The semaphore is as the history says. -/
structure SemaphoreAgrees (resCount : ℕ) (sem : Semaphore) (v : SemaphoreView) : Prop where
  count : sem.count = v.balance resCount
  queue : sem.waitQueue = v.waiting
  length : (v.waiting.length : ℤ) = max 0 (-v.balance resCount)
  total : v.downs = v.passed + v.woken.length + v.waiting.length
  fifo : v.blocked = v.wokenUp ++ v.waiting
  nodup : (v.woken ++ v.waiting).Nodup
  bound : v.balance resCount ≤ isizeMax

theorem wrapIsize_eq {x : ℤ} (hlow : -2 ^ 63 ≤ x) (hhigh : x ≤ isizeMax) : wrapIsize x = x := by
  rw [isizeMax] at hhigh
  rw [wrapIsize]
  exact Int.bmod_eq_of_le (by omega) (by omega)

theorem SemaphoreView.lt_balance {v : SemaphoreView} (resCount : ℕ) (hdowns : v.downs < 2 ^ 62) :
    -2 ^ 62 < v.balance resCount := by
  rw [SemaphoreView.balance]
  omega

namespace SemaphoreAgrees

variable {resCount : ℕ} {sem sem' : Semaphore} {v : SemaphoreView} {t : Task}

theorem down_count (h : SemaphoreAgrees resCount sem v) (hdowns : v.downs < 2 ^ 62)
    (hcount : sem'.count = wrapIsize (sem.count - 1)) : sem'.count = v.balance resCount - 1 := by
  have hlow := v.lt_balance resCount hdowns
  have hbound := h.bound
  rw [hcount, h.count]
  exact wrapIsize_eq (by omega) (by omega)

theorem passed (h : SemaphoreAgrees resCount sem v) (hcount : sem'.count = v.balance resCount - 1)
    (hpos : 0 ≤ sem'.count) (hq : sem'.waitQueue = sem.waitQueue) :
    SemaphoreAgrees resCount sem' (v.record (.passed t)) := by
  have hbalance : (v.record (.passed t)).balance resCount = v.balance resCount - 1 := by
    simp [SemaphoreView.record, SemaphoreView.balance]
    omega
  have hlength := h.length
  have htotal := h.total
  have hbound := h.bound
  refine ⟨by rw [hbalance]; exact hcount, hq.trans h.queue, ?_, ?_, h.fifo, h.nodup, by omega⟩
  · rw [hbalance]
    show (v.waiting.length : ℤ) = _
    omega
  · show v.downs + 1 = v.passed + 1 + v.woken.length + v.waiting.length
    omega

theorem blocked (h : SemaphoreAgrees resCount sem v) (hcount : sem'.count = v.balance resCount - 1)
    (hneg : sem'.count < 0) (hq : sem'.waitQueue = sem.waitQueue ++ [t])
    (ht : ¬ (t ∈ v.woken ∨ t ∈ v.waiting)) :
    SemaphoreAgrees resCount sem' (v.record (.blocked t)) := by
  have hbalance : (v.record (.blocked t)).balance resCount = v.balance resCount - 1 := by
    simp [SemaphoreView.record, SemaphoreView.balance]
    omega
  have hlength := h.length
  have htotal := h.total
  have hbound := h.bound
  refine ⟨by rw [hbalance]; exact hcount, ?_, ?_, ?_, ?_, ?_, by omega⟩
  · rw [hq, h.queue]
    rfl
  · rw [hbalance]
    show ((v.waiting ++ [t]).length : ℤ) = _
    rw [List.length_append, List.length_singleton]
    push_cast
    omega
  · show v.downs + 1 = v.passed + v.woken.length + (v.waiting ++ [t]).length
    rw [List.length_append, List.length_singleton]
    omega
  · show v.blocked ++ [t] = v.wokenUp ++ (v.waiting ++ [t])
    rw [h.fifo, List.append_assoc]
  · show (v.woken ++ (v.waiting ++ [t])).Nodup
    rw [← List.append_assoc]
    refine List.nodup_append.mpr ⟨h.nodup, List.nodup_singleton t, ?_⟩
    intro a ha b hb heq
    rw [List.mem_singleton.mp hb] at heq
    exact ht (List.mem_append.mp (heq ▸ ha))

theorem returned (h : SemaphoreAgrees resCount sem v) (ht : t ∈ v.woken) :
    SemaphoreAgrees resCount sem (v.record (.returned t)) := by
  have htotal := h.total
  refine ⟨h.count, h.queue, h.length, ?_, h.fifo, ?_, h.bound⟩
  · show v.downs = v.passed + 1 + (v.woken.erase t).length + v.waiting.length
    have hpos := List.length_pos_of_mem ht
    rw [List.length_erase_of_mem ht]
    omega
  · exact h.nodup.sublist (List.Sublist.append_right List.erase_sublist v.waiting)

theorem up_eq (h : SemaphoreAgrees resCount sem v) (hdowns : v.downs < 2 ^ 62)
    (hmax : v.balance resCount < isizeMax) :
    sem.up = (v.waiting.head?, ⟨v.balance resCount + 1, v.waiting.tail⟩) := by
  have hlow := v.lt_balance resCount hdowns
  have hwrap : wrapIsize (sem.count + 1) = v.balance resCount + 1 := by
    rw [h.count]
    exact wrapIsize_eq (by omega) (by omega)
  have hlength := h.length
  rw [Semaphore.up, hwrap, h.queue]
  by_cases hle : v.balance resCount + 1 ≤ 0
  · rw [if_pos hle]
    cases v.waiting <;> rfl
  · rw [if_neg hle]
    have hnil : v.waiting = [] := by
      apply List.length_eq_zero_iff.mp
      omega
    rw [hnil]
    rfl

theorem upped (h : SemaphoreAgrees resCount sem v) (hmax : v.balance resCount < isizeMax) :
    SemaphoreAgrees resCount ⟨v.balance resCount + 1, v.waiting.tail⟩
      (v.record (.upped t v.waiting.head?)) := by
  have hlength := h.length
  have htotal := h.total
  have hfifo := h.fifo
  have hnodup := h.nodup
  cases hw : v.waiting with
  | nil =>
    have hbalance : (v.record (.upped t none)).balance resCount = v.balance resCount + 1 := by
      simp [SemaphoreView.record, SemaphoreView.balance]
      omega
    rw [hw] at hlength
    refine ⟨hbalance.symm, hw.symm, ?_, htotal, hfifo, hnodup, ?_⟩
    · rw [List.head?_nil, hbalance]
      show (v.waiting.length : ℤ) = _
      rw [hw]
      simp only [List.length_nil] at hlength ⊢
      omega
    · rw [List.head?_nil, hbalance]
      omega
  | cons task rest =>
    have hbalance : (v.record (.upped t (some task))).balance resCount = v.balance resCount + 1 := by
      simp [SemaphoreView.record, SemaphoreView.balance]
      omega
    have herase : v.waiting.erase task = rest := by
      rw [hw]
      simp
    rw [hw] at hlength htotal hfifo hnodup
    rw [List.length_cons] at hlength htotal
    push_cast at hlength
    refine ⟨hbalance.symm, herase.symm, ?_, ?_, ?_, ?_, ?_⟩
    · rw [List.head?_cons, hbalance]
      show ((v.waiting.erase task).length : ℤ) = _
      rw [herase]
      omega
    · show v.downs = v.passed + (v.woken ++ [task]).length + (v.waiting.erase task).length
      rw [herase, List.length_append, List.length_singleton]
      omega
    · show v.blocked = (v.wokenUp ++ [task]) ++ v.waiting.erase task
      rw [herase, hfifo]
      simp
    · show ((v.woken ++ [task]) ++ v.waiting.erase task).Nodup
      rw [herase, List.append_assoc]
      exact hnodup
    · rw [List.head?_cons, hbalance]
      omega

end SemaphoreAgrees

/-- A section keeps the agreement, what it does is due, and of the tasks that wait or were woken it changes
only the one that runs it. -/
theorem SemaphoreStep.agrees {i resCount : ℕ} {t : Task} {sem sem' : Semaphore} {pc pc' : Pc}
    {new : List SemaphoreEvent} {v : SemaphoreView} (h : SemaphoreStep i t sem sem' pc pc' new)
    (hv : SemaphoreAgrees resCount sem v) (hdowns : v.downs < 2 ^ 62)
    (hself : awaitsDown i pc.point = true ↔ t ∈ v.woken ∨ t ∈ v.waiting)
    (hrun : pc.queued = false → t ∉ sem.waitQueue)
    (hups : pc.ups i = true → v.balance resCount < isizeMax) :
    SemaphoreAgrees resCount sem' (new.foldl .record v) ∧
    (new = [] ∨ ∃ event, new = [event] ∧ event.Due resCount v) ∧
    (awaitsDown i pc'.point = true ↔
      t ∈ (new.foldl .record v).woken ∨ t ∈ (new.foldl .record v).waiting) ∧
    ∀ t', t' ≠ t → (t' ∈ v.woken ∨ t' ∈ v.waiting ↔
      t' ∈ (new.foldl .record v).woken ∨ t' ∈ (new.foldl .record v).waiting) := by
  cases h with
  | other hsem hawaits =>
    rw [hsem, hawaits]
    exact ⟨hv, Or.inl rfl, hself, fun _ _ => Iff.rfl⟩
  | passed hcount hpos hq hawaits =>
    have hcount' := hv.down_count hdowns hcount
    rw [hawaits, hself]
    refine ⟨hv.passed (t := t) hcount' hpos hq, Or.inr ⟨_, rfl, ?_⟩, Iff.rfl, fun _ _ => Iff.rfl⟩
    show 0 < v.balance resCount
    omega
  | blocked hcount hneg hq hawaits hawaits' =>
    have hcount' := hv.down_count hdowns hcount
    have ht : ¬ (t ∈ v.woken ∨ t ∈ v.waiting) := by
      rw [← hself, hawaits]
      simp
    refine ⟨hv.blocked hcount' hneg hq ht, Or.inr ⟨_, rfl, ?_⟩, ?_, ?_⟩
    · show v.balance resCount ≤ 0
      omega
    · simp [SemaphoreView.record, hawaits']
    · intro t' hne
      simp [SemaphoreView.record, hne]
  | returned hsem hawaits hawaits' hq =>
    -- the task runs, so it is in no queue: it was woken
    have hwait : t ∉ v.waiting := by
      rw [← hv.queue]
      exact hrun hq
    have hwoken := (hself.mp hawaits).resolve_right hwait
    have hnodup : v.woken.Nodup := (List.nodup_append.mp hv.nodup).1
    rw [hsem]
    refine ⟨hv.returned hwoken, Or.inr ⟨_, rfl, hwoken⟩, ?_, ?_⟩
    · simp [SemaphoreView.record, hawaits', hwait, hnodup.mem_erase_iff]
    · intro t' hne
      simp [SemaphoreView.record, hnodup.mem_erase_iff, hne]
  | upped hsem hpc hawaits =>
    have hmax := hups hpc
    have hup := hv.up_eq hdowns hmax
    rw [hawaits, hself, hsem, hup]
    have hmem : ∀ t', (t' ∈ v.woken ∨ t' ∈ v.waiting ↔
        t' ∈ (v.record (.upped t v.waiting.head?)).woken ∨
        t' ∈ (v.record (.upped t v.waiting.head?)).waiting) := by
      intro t'
      cases hw : v.waiting with
      | nil => simp [SemaphoreView.record, hw]
      | cons task rest =>
        simp [SemaphoreView.record, hw, or_assoc]
    exact ⟨hv.upped hmax, Or.inr ⟨_, rfl, rfl⟩, hmem t, fun t' _ => hmem t'⟩

/-- The state agrees with the history about the semaphore `i`. -/
structure SemaphoreInv (i resCount : ℕ) (hist : History) (s : System) : Prop where
  agrees : SemaphoreAgrees resCount (s.kernel.semaphores i) (semaphoreView i hist)
  due : Always (fun before event => event.Due resCount (before.foldl .record {}))
    (semaphoreEvents i hist)
  awaits : ∀ t, awaitsDown i (s.control t) = true ↔
    t ∈ (semaphoreView i hist).woken ∨ t ∈ (semaphoreView i hist).waiting
  ups : ∀ t pc, s.cpu = .running t pc → pc.ups i = true →
    (semaphoreView i hist).balance resCount < isizeMax

section

variable {i : ℕ} {ok : History → Task → Call → Prop} {tasks : List Task} {hist events : History}
  {s s' : System} {resCount : ℕ}

theorem semaphoreView_append (hist events : History) :
    semaphoreView i (hist ++ events) =
      (semaphoreEvents i events).foldl .record (semaphoreView i hist) := by
  simp [semaphoreView]

theorem Section.not_ups {t : Task} {k k' : KernelState} {pc pc' : Pc} {events : List Event}
    (h : Section t k pc k' pc' events) : pc'.ups i = false := by
  cases h with
  | @read p want done bytes ring done' returns h => cases returns <;> rfl
  | @write p want done buf bytes ring done' returns h => cases returns <;> rfl
  | _ => rfl

theorem downs_le_record (v : SemaphoreView) (event : SemaphoreEvent) :
    v.downs ≤ (v.record event).downs ∧ v.ups ≤ (v.record event).ups := by
  cases event with
  | upped t woken => cases woken <;> simp [SemaphoreView.record]
  | _ => simp [SemaphoreView.record]

theorem semaphoreOps_mono (hist events : History) :
    semaphoreOps i hist ≤ semaphoreOps i (hist ++ events) := by
  rw [semaphoreOps, semaphoreOps, semaphoreView_append]
  generalize semaphoreEvents i events = new, semaphoreView i hist = v
  induction new generalizing v with
  | nil => exact le_refl _
  | cons event new ih =>
    have hrecord := downs_le_record v event
    have hrest := ih (v.record event)
    rw [List.foldl_cons]
    omega

theorem SemaphoreInv.section {t : Task} {pc pc' : Pc} {k' : KernelState} {events : List Event}
    (hi : SemaphoreInv i resCount hist s) (hops : semaphoreOps i hist < 2 ^ 62)
    (hcpu : s.cpu = .running t pc) (hsec : Section t s.kernel pc k' pc' events)
    (hnowhere : pc.queued = false → Foundation.QueueFamily.Nowhere s.kernel.queue t) :
    SemaphoreInv i resCount (hist ++ events.map (Prod.mk t))
      { s with kernel := k', cpu := .running t pc' } := by
  have hself := hi.awaits t
  rw [System.control_running hcpu] at hself
  have hdowns : (semaphoreView i hist).downs < 2 ^ 62 := by
    rw [semaphoreOps] at hops
    omega
  obtain ⟨hagrees, hdue, htask, hothers⟩ := (hsec.semaphore i).agrees hi.agrees hdowns hself
    (fun hq => (hnowhere hq).not_mem (.semaphore i)) (hi.ups t pc hcpu)
  rw [← semaphoreView_append] at hagrees htask hothers
  refine ⟨hagrees, ?_, ?_, ?_⟩
  · rw [semaphoreEvents_append]
    rcases hdue with hnil | ⟨event, hone, hd⟩
    · rw [hnil, List.append_nil]
      exact hi.due
    · rw [hone]
      exact always_concat.mpr ⟨hi.due, hd⟩
  · intro t'
    by_cases hne : t = t'
    · subst hne
      rw [System.control_running rfl]
      exact htask
    · rw [System.control_of_ne hcpu hne, hi.awaits t', hothers t' (Ne.symm hne)]
  · intro t' pc'' heq hups
    cases heq
    rw [hsec.not_ups] at hups
    cases hups

theorem SemaphoreInv.step (hok : ∀ hist t c, ok hist t c → UpsBelowMax i resCount hist t c)
    (hi : SemaphoreInv i resCount hist s) (hops : semaphoreOps i hist < 2 ^ 62)
    (h : Effect ok hist s events s') : SemaphoreInv i resCount (hist ++ events) s' := by
  cases h with
  | @call t c hcpu hcall =>
    have hevents : semaphoreEvents i (hist ++ [(t, .called c)]) = semaphoreEvents i hist := by
      simp [semaphoreEvents, semaphoreEvent]
    have hview : semaphoreView i (hist ++ [(t, .called c)]) = semaphoreView i hist := by
      rw [semaphoreView, hevents, semaphoreView]
    refine ⟨by rw [hview]; exact hi.agrees, by rw [hevents]; exact hi.due, ?_, ?_⟩
    · intro t'
      rw [hview, ← hi.awaits t']
      by_cases ht : t = t'
      · subst ht
        rw [System.control_running hcpu, System.control_running rfl]
        cases c <;> simp [Call.entry, Pc.point, awaitsDown]
      · rw [System.control_other hcpu ht]
        simp [System.control, ht]
    · intro t' pc heq hups
      cases heq
      have hbelow := hok hist t c hcall
      rw [hview]
      cases c <;> simp [Call.entry, Pc.ups, UpsBelowMax] at hups hbelow
      exact hbelow hups
  | run hcpu hsec hnowhere => exact hi.section hops hcpu hsec hnowhere
  | quiet hobjects hcontrol hcpu _ =>
    rw [List.append_nil]
    refine ⟨by rw [hobjects.semaphores]; exact hi.agrees, hi.due, by rw [hcontrol]; exact hi.awaits, ?_⟩
    intro t pc heq hups
    rcases hcpu t pc heq with hold | ⟨point, rfl⟩
    · exact hi.ups t pc hold hups
    · cases hups

theorem semaphoreInv_boot (tasks : List Task) (isBlocking : ℕ → Bool) (resCount : ℕ → ℕ)
    (hres : (resCount i : ℤ) ≤ isizeMax) :
    SemaphoreInv i (resCount i) [] (.boot tasks isBlocking resCount) := by
  have hbalance : (semaphoreView i []).balance (resCount i) = resCount i := by
    simp [semaphoreView, semaphoreEvents, SemaphoreView.balance]
  refine ⟨⟨?_, rfl, ?_, rfl, rfl, List.nodup_nil, ?_⟩, always_nil, ?_, ?_⟩
  · have hnew : (System.boot tasks isBlocking resCount).kernel.semaphores i = .new (resCount i) := rfl
    rw [hbalance, hnew, Semaphore.new]
    dsimp only
    rw [wrapIsize_eq (by omega) hres]
  · rw [hbalance]
    simp [semaphoreView, semaphoreEvents]
  · rw [hbalance]
    exact hres
  · intro t
    simp [System.boot, System.control, awaitsDown, semaphoreView, semaphoreEvents]
  · intro t pc heq
    cases heq

end

/-- **Semaphores.**  As long as `up` is only called while the counter is below `isize::MAX`: no more tasks
have passed `down` than there were resources and `up`s; the wait queue holds the tasks whose `down` found
no resource and which were not woken since, each once, and has length `max 0 (-count)`; and each `up` wakes
the task that waits longest, if any. -/
theorem semaphore_counts {tasks : List Task} {hist : History} {s : System} (i : ℕ)
    (isBlocking : ℕ → Bool) (resCount : ℕ → ℕ) (htasks : tasks.Nodup)
    (hres : (resCount i : ℤ) ≤ isizeMax) (hops : semaphoreOps i hist < 2 ^ 62)
    (h : Run (UpsBelowMax i (resCount i)) (.boot tasks isBlocking resCount) hist s) :
    (semaphoreView i hist).passed ≤ resCount i + (semaphoreView i hist).ups ∧
    (s.kernel.semaphores i).waitQueue = (semaphoreView i hist).waiting ∧
    (s.kernel.semaphores i).waitQueue.Nodup ∧
    ((s.kernel.semaphores i).waitQueue.length : ℤ) = max 0 (-(s.kernel.semaphores i).count) ∧
    (0 ≤ (s.kernel.semaphores i).count → (s.kernel.semaphores i).waitQueue = []) ∧
    (semaphoreView i hist).blocked =
      (semaphoreView i hist).wokenUp ++ (semaphoreView i hist).waiting ∧
    Always (fun before event => event.Due (resCount i) (before.foldl .record {}))
      (semaphoreEvents i hist) := by
  have hinv : semaphoreOps i hist < 2 ^ 62 → SemaphoreInv i (resCount i) hist s := by
    refine h.invariant (I := fun hist s => semaphoreOps i hist < 2 ^ 62 →
      SemaphoreInv i (resCount i) hist s) htasks (fun _ => semaphoreInv_boot tasks isBlocking resCount hres)
      ?_
    intro hist events s s' hi heffect hops
    have hbefore := lt_of_le_of_lt (semaphoreOps_mono hist events) hops
    exact (hi hbefore).step (fun _ _ _ hx => hx) hbefore heffect
  obtain ⟨⟨hcount, hqueue, hlength, htotal, hfifo, _, _⟩, hdue, _, _⟩ := hinv hops
  have hnodup := (h.placed htasks).spread.nodup (.semaphore i)
  have hlen : ((s.kernel.semaphores i).waitQueue.length : ℤ) =
      max 0 (-(s.kernel.semaphores i).count) := by
    rw [hqueue, hcount]
    exact hlength
  refine ⟨?_, hqueue, hnodup, hlen, ?_, hfifo, hdue⟩
  · rw [SemaphoreView.balance] at hlength
    omega
  · intro hpos
    apply List.length_eq_zero_iff.mp
    omega

instance (i resCount : ℕ) (hist : History) (t : Task) :
    (c : Call) → Decidable (UpsBelowMax i resCount hist t c)
  | .semaphoreUp i' =>
    inferInstanceAs (Decidable (i' = i → (semaphoreView i hist).balance resCount < isizeMax))
  | .yield | .sleep _ | .mutexLock _ | .mutexUnlock _ | .semaphoreDown _ | .condvarSignal _
  | .condvarWait _ _ | .pipeRead _ _ | .pipeWrite _ _ | .dupWriteEnd _ | .closeWriteEnd _ => isTrue trivial

/-- The tasks 0, 1 and 2 call `down` on a semaphore with one resource, and then task 0 calls `up`. -/
def threeDowns : List Action :=
  [.fetch, .start, .call (.semaphoreDown 0), .exec [], .call .yield, .exec [], .exec [], .exec [], .switch,
   .fetch, .start, .call (.semaphoreDown 0), .exec [], .exec [], .exec [], .switch,
   .fetch, .start, .call (.semaphoreDown 0), .exec [], .exec [], .exec [], .switch,
   .fetch, .start, .call (.semaphoreUp 0), .exec [], .call .yield, .exec [], .exec [], .exec [], .switch,
   .fetch, .start, .exec []]

/-- Task 1, which waits longest, is woken and passes, and task 2 goes on waiting. -/
theorem semaphore_counts_threeDowns : ∃ hist s,
    Run (UpsBelowMax 0 1) (.boot [0, 1, 2] (fun _ => true) fun _ => 1) hist s ∧
    (semaphoreView 0 hist).passed = 2 ∧ (semaphoreView 0 hist).wokenUp = [1] ∧
    (semaphoreView 0 hist).blocked = [1, 2] ∧ (s.kernel.semaphores 0).waitQueue = [2] := by
  obtain ⟨hist, s, hrun, hpassed, hwoken, hwaiting, hops⟩ := exists_run (UpsBelowMax 0 1)
    (.boot [0, 1, 2] (fun _ => true) fun _ => 1)
    (fun hist _ => (semaphoreView 0 hist).passed = 2 ∧ (semaphoreView 0 hist).wokenUp = [1] ∧
      (semaphoreView 0 hist).waiting = [2] ∧ semaphoreOps 0 hist = 4) threeDowns (by decide +kernel)
  obtain ⟨-, hqueue, -, -, -, hfifo, -⟩ := semaphore_counts 0 (fun _ => true) (fun _ => 1) (by decide)
    (by decide) (by rw [hops]; decide) hrun
  rw [hwoken, hwaiting] at hfifo
  exact ⟨hist, s, hrun, hpassed, hwoken, hfifo, hqueue.trans hwaiting⟩

/-- A semaphore created with `isize::MAX` resources: after one `up` the counter is `isize::MIN`, although
nobody waits. -/
theorem semaphore_overflows : ∃ hist s,
    Run (fun _ _ _ => True) (.boot [0] (fun _ => true) fun _ => 2 ^ 63 - 1) hist s ∧
    semaphoreOps 0 hist = 1 ∧ (s.kernel.semaphores 0).count = -2 ^ 63 ∧
    ((s.kernel.semaphores 0).waitQueue.length : ℤ) ≠ max 0 (-(s.kernel.semaphores 0).count) := by
  obtain ⟨hist, s, hrun, hops, hcount, hqueue⟩ := exists_run (fun _ _ _ => True)
    (.boot [0] (fun _ => true) fun _ => 2 ^ 63 - 1)
    (fun hist s => semaphoreOps 0 hist = 1 ∧ (s.kernel.semaphores 0).count = -2 ^ 63 ∧
      (s.kernel.semaphores 0).waitQueue = [])
    [.fetch, .start, .call (.semaphoreUp 0), .exec []] (by decide +kernel)
  refine ⟨hist, s, hrun, hops, hcount, ?_⟩
  rw [hqueue, hcount]
  simp

end LemonCore.Kernel
