import LemonCore.Kernel.Processes
import LemonCore.Foundation.QueueFamily

/-!
# What one step does to processes and threads

`Effect s action s' events` lists what a step can do, with the tables after it in closed form; the loops of
`exit_current_and_run_next` are summed up by `adopted` and `stripped`.  Every invariant of the machine is
proved from these cases (`step_effect`).
-/

namespace LemonCore.Kernel.Processes

open Foundation.QueueFamily

/-- The places where a thread can wait for the hart. -/
inductive Place where
  | ready
  | sleeping
  | device
  | waiting (p : Proc)
  deriving DecidableEq, Repr

def State.queue (s : State) : Place → List Thread
  | .ready => s.readyQueue
  | .sleeping => s.sleeping
  | .device => s.device
  | .waiting p => s.waiting p

/-- Nothing changes but the queues and the current thread. -/
structure SameTables (s s' : State) : Prop where
  pcbs : s'.pcbs = s.pcbs
  tcbs : s'.tcbs = s.tcbs
  nextProc : s'.nextProc = s.nextProc
  nextThread : s'.nextThread = s.nextThread
  pidAllocator : s'.pidAllocator = s.pidAllocator
  pid2process : s'.pid2process = s.pid2process

/-- The process table after the children `cs` have been moved to the daemon. -/
def adopted (pcbs : Proc → Option Pcb) (cs : List Proc) (q : Proc) : Option Pcb :=
  (pcbs q).map fun pcb => { pcb with
    parent := if q ∈ cs then some daemon else pcb.parent
    children := if q = daemon then pcb.children ++ cs else pcb.children }

/-- The threads after the `TaskUserRes` of those in `tasks` have been taken. -/
def stripped (tcbs : Thread → Option Tcb) (tasks : List (Option Thread)) (t : Thread) : Option Tcb :=
  if some t ∈ tasks then (tcbs t).map fun tcb => { tcb with res := none } else tcbs t

section

variable {s s' : State} {p : Proc}

theorem stripped_some {tcbs : Thread → Option Tcb} {tasks : List (Option Thread)} {t : Thread}
    {tcb : Tcb} (h : stripped tcbs tasks t = some tcb) :
    ∃ tcb₀, tcbs t = some tcb₀ ∧ tcb.process = tcb₀.process ∧ tcb.exitCode = tcb₀.exitCode ∧
      (some t ∉ tasks → tcb.res = tcb₀.res) := by
  rw [stripped] at h
  split at h
  · rename_i hmem
    obtain ⟨tcb₀, h₀, rfl⟩ := Option.map_eq_some_iff.mp h
    exact ⟨tcb₀, h₀, rfl, rfl, fun hno => absurd hmem hno⟩
  · exact ⟨tcb, h, rfl, rfl, fun _ => rfl⟩

theorem stripped_of_some {tcbs : Thread → Option Tcb} {t : Thread} {tcb : Tcb} (h : tcbs t = some tcb)
    (tasks : List (Option Thread)) :
    ∃ tcb', stripped tcbs tasks t = some tcb' ∧ tcb'.process = tcb.process ∧
      tcb'.exitCode = tcb.exitCode := by
  rw [stripped]
  split
  · exact ⟨{ tcb with res := none }, by rw [h]; rfl, rfl, rfl⟩
  · exact ⟨tcb, h, rfl, rfl⟩

theorem adopted_some {pcbs : Proc → Option Pcb} {cs : List Proc} {q : Proc} {pcb : Pcb}
    (h : adopted pcbs cs q = some pcb) :
    ∃ pcb₀, pcbs q = some pcb₀ ∧ pcb = { pcb₀ with
      parent := if q ∈ cs then some daemon else pcb₀.parent
      children := if q = daemon then pcb₀.children ++ cs else pcb₀.children } := by
  obtain ⟨pcb₀, h₀, hpcb⟩ := Option.map_eq_some_iff.mp h
  exact ⟨pcb₀, h₀, hpcb.symm⟩

theorem map_update {β : Type} {f : Pcb → β} {pcbs : Proc → Option Pcb} {pcb pcb' : Pcb}
    (hpcb : pcbs p = some pcb) (hf : f pcb' = f pcb) (q : Proc) :
    (Function.update pcbs p (some pcb') q).map f = (pcbs q).map f := by
  by_cases hq : q = p
  · rw [hq, Function.update_self, hpcb, Option.map_some, Option.map_some, hf]
  · rw [Function.update_of_ne hq]

theorem map_adopted {β : Type} {f : Pcb → β}
    (hf : ∀ (pcb : Pcb) parent children, f { pcb with parent := parent, children := children } = f pcb)
    (pcbs : Proc → Option Pcb) (cs : List Proc) (q : Proc) :
    (adopted pcbs cs q).map f = (pcbs q).map f := by
  rw [adopted]
  cases pcbs q with
  | none => rfl
  | some pcb => simp only [Option.map_some, hf]

theorem adopt_eq (cs : List Proc) : ∀ s : State, adopt s cs = { s with pcbs := adopted s.pcbs cs } := by
  induction cs with
  | nil =>
    intro s
    have hpcbs : adopted s.pcbs [] = s.pcbs := by
      funext q
      cases h : s.pcbs q with
      | none => simp [adopted, h]
      | some pcb => simp [adopted, h]
    rw [hpcbs]
    rfl
  | cons c cs ih =>
    intro s
    rw [adopt, ih]
    congr 1
    funext q
    cases h : s.pcbs q with
    | none => simp [adopted, h]
    | some pcb =>
      simp only [adopted, h, Option.map_some, List.mem_cons]
      congr 2
      · by_cases hc : q = c <;> by_cases hm : q ∈ cs <;> simp [hc, hm]
      · by_cases hd : q = daemon <;> simp [hd]

theorem takeRes_eq (tasks : List (Option Thread)) :
    ∀ s : State, (takeRes s tasks).2 = { s with tcbs := stripped s.tcbs tasks } := by
  induction tasks with
  | nil =>
    intro s
    have htcbs : stripped s.tcbs [] = s.tcbs := by
      funext t
      simp [stripped]
    rw [htcbs]
    rfl
  | cons slot tasks ih =>
    intro s
    cases slot with
    | none =>
      rw [takeRes, ih]
      congr 1
      funext t
      simp [stripped]
    | some t =>
      cases ht : s.tcbs t with
      | none =>
        simp only [takeRes, ht]
        rw [ih]
        congr 1
        funext t'
        by_cases h : t' = t
        · simp [stripped, h, ht]
        · simp [stripped, h]
      | some tcb =>
        simp only [takeRes, ht]
        rw [ih]
        simp only [State.setTcb]
        congr 1
        funext t'
        by_cases h : t' = t
        · by_cases hm : some t ∈ tasks <;> simp [stripped, h, hm, ht]
        · simp [stripped, h]

theorem deallocTid_eq {tid : ℕ} (h : deallocTid s p tid = some s') :
    ∃ pcb a, s.pcbs p = some pcb ∧ pcb.taskResAllocator.dealloc tid = some a ∧
      s' = s.setPcb p { pcb with taskResAllocator := a } := by
  obtain ⟨pcb, hpcb, hrest⟩ := Option.bind_eq_some_iff.mp h
  obtain ⟨a, ha, hsome⟩ := Option.bind_eq_some_iff.mp hrest
  cases hsome
  exact ⟨pcb, a, hpcb, ha, rfl⟩

theorem setPcb_setPcb (s : State) (p : Proc) (pcb pcb' : Pcb) :
    (s.setPcb p pcb).setPcb p pcb' = s.setPcb p pcb' := by
  simp [State.setPcb]

theorem deallocTids_eq (tids : List ℕ) : ∀ {s s' : State} {pcb : Pcb}, s.pcbs p = some pcb →
    tids.foldlM (fun s tid => deallocTid s p tid) s = some s' →
    ∃ a, s' = s.setPcb p { pcb with taskResAllocator := a } := by
  induction tids with
  | nil =>
    intro s s' pcb hpcb h
    cases h
    refine ⟨pcb.taskResAllocator, ?_⟩
    have hself : Function.update s.pcbs p (some pcb) = s.pcbs := by
      rw [← hpcb, Function.update_eq_self]
    simp only [State.setPcb, hself]
  | cons tid tids ih =>
    intro s s' pcb hpcb h
    rw [List.foldlM_cons] at h
    obtain ⟨s₁, hs₁, hrest⟩ := Option.bind_eq_some_iff.mp h
    obtain ⟨pcb₁, a, hpcb₁, _, rfl⟩ := deallocTid_eq hs₁
    rw [hpcb] at hpcb₁
    cases hpcb₁
    obtain ⟨a', rfl⟩ := ih (Function.update_self p _ s.pcbs) hrest
    exact ⟨a', by rw [setPcb_setPcb]⟩

/-- What `exitMain` does: the process is a zombie without children, its children are the daemon's, and its
threads have lost their resources. -/
theorem exitMain_eq {code : ℤ} (h : exitMain s p code = some s') :
    ∃ pcb a, s.pcbs p = some pcb ∧ pcb.pid ≠ idlePid ∧
      s' = { s with
        pid2process := Function.update s.pid2process pcb.pid none
        tcbs := stripped s.tcbs pcb.tasks
        pcbs := Function.update (adopted s.pcbs pcb.children) p (some
          { pid := pcb.pid, isZombie := true, exitCode := code
            parent := if p ∈ pcb.children then some daemon else pcb.parent
            children := [], tasks := pcb.tasks.take 1, taskResAllocator := a }) } := by
  obtain ⟨pcb, hpcb, h⟩ := Option.bind_eq_some_iff.mp h
  by_cases hpid : pcb.pid = idlePid
  · rw [if_pos hpid] at h
    cases h
  · rw [if_neg hpid] at h
    obtain ⟨_, _, h⟩ := Option.bind_eq_some_iff.mp h
    simp only [adopt_eq, State.setPcb] at h
    obtain ⟨s₂, hs₂, h⟩ := Option.bind_eq_some_iff.mp h
    have hs₁ := takeRes_eq pcb.tasks { s with
      pid2process := Function.update s.pid2process pcb.pid none
      pcbs := adopted (Function.update s.pcbs p (some { pcb with isZombie := true, exitCode := code }))
        pcb.children }
    generalize takeRes _ pcb.tasks = taken at hs₁ hs₂
    obtain ⟨tids, s₁⟩ := taken
    simp only at hs₁
    have hpcb₁ : s₁.pcbs p = some { pcb with
        isZombie := true, exitCode := code
        parent := if p ∈ pcb.children then some daemon else pcb.parent
        children := if p = daemon then pcb.children ++ pcb.children else pcb.children } := by
      rw [hs₁]
      simp [adopted]
    obtain ⟨a, rfl⟩ := deallocTids_eq tids hpcb₁ hs₂
    obtain ⟨pcb₂, hpcb₂, h⟩ := Option.bind_eq_some_iff.mp h
    simp only [State.setPcb, Function.update_self, Option.some.injEq] at hpcb₂
    subst hpcb₂
    cases h
    refine ⟨pcb, a, hpcb, hpid, ?_⟩
    rw [hs₁]
    simp only [State.setPcb, Function.update_idem]
    congr 1
    funext q
    by_cases hq : q = p
    · simp [hq]
    · simp [hq, adopted]

end

/-! ### The cases of a step -/

/-- What the exit of a main thread leaves of its process. -/
def Pcb.exited (pcb : Pcb) (p : Proc) (code : ℤ) (a : RecycleAllocator) : Pcb where
  pid := pcb.pid
  isZombie := true
  exitCode := code
  parent := if p ∈ pcb.children then some daemon else pcb.parent
  children := []
  tasks := pcb.tasks.take 1
  taskResAllocator := a

/-- The actions that only move threads from one queue to another. -/
def Action.moves : Action → Bool
  | .expire _ | .deviceReady _ => true
  | .call .yield | .call .sleep | .call .waitDevice | .call .wait | .call (.wake _) => true
  | _ => false

/-- The steps, by what they do. -/
inductive Effect (s : State) : Action → State → List Event → Prop where
  | dispatch {t : Thread} {readyQueue : List Thread} (hcur : s.current = none)
      (hready : s.readyQueue = t :: readyQueue) :
      Effect s .dispatch { s with current := some t, readyQueue := readyQueue } [.dispatched t]
  /-- a thread is moved to the ready queue, by an interrupt or by a thread of its process -/
  | wakeup {action : Action} {s' : State} {place : Place} {t : Thread} {l r : List Thread}
      (haction : action.moves = true)
      (hq : s.queue place = l ++ t :: r)
      (hq' : s'.queue = push (Function.update s.queue place (l ++ r)) .ready t)
      (hplace : ∀ p, place = .waiting p →
        ∃ caller tcb, s.current = some caller ∧ s.tcbs caller = some tcb ∧ tcb.process = p)
      (htables : SameTables s s') (hcur : s'.current = s.current) : Effect s action s' []
  /-- the current thread gives up the hart -/
  | park {action : Action} {s' : State} {t : Thread} (place : Place) (haction : action.moves = true)
      (hcur : s.current = some t)
      (hq' : s'.queue = push s.queue place t) (htables : SameTables s s') (hcur' : s'.current = none) :
      Effect s action s' []
  | fork {t : Thread} {tcb : Tcb} {pcb : Pcb} (hcur : s.current = some t) (htcb : s.tcbs t = some tcb)
      (hpcb : s.pcbs tcb.process = some pcb) (hone : pcb.tasks.length = 1) :
      Effect s (.call .fork)
        { s with
          pcbs := Function.update (Function.update s.pcbs tcb.process
              (some { pcb with children := pcb.children ++ [s.nextProc] })) s.nextProc
            (some { pid := s.pidAllocator.alloc.1, isZombie := false, exitCode := 0
                    parent := some tcb.process, children := [], tasks := [some s.nextThread]
                    taskResAllocator := RecycleAllocator.new.alloc.2 })
          tcbs := Function.update s.tcbs s.nextThread (some ⟨s.nextProc, some 0, none⟩)
          readyQueue := s.readyQueue ++ [s.nextThread]
          nextProc := s.nextProc + 1
          nextThread := s.nextThread + 1
          pidAllocator := s.pidAllocator.alloc.2
          pid2process := Function.update s.pid2process s.pidAllocator.alloc.1 (some s.nextProc) }
        [.forked tcb.process s.nextProc s.pidAllocator.alloc.1,
          .threadCreated s.nextProc 0 s.nextThread]
  | threadCreate {t : Thread} {tcb : Tcb} {pcb : Pcb} (hcur : s.current = some t)
      (htcb : s.tcbs t = some tcb) (hpcb : s.pcbs tcb.process = some pcb) :
      Effect s (.call .threadCreate)
        { s with
          pcbs := Function.update s.pcbs tcb.process (some { pcb with
            tasks := (resize pcb.tasks (pcb.taskResAllocator.alloc.1 + 1)).set
              pcb.taskResAllocator.alloc.1 (some s.nextThread)
            taskResAllocator := pcb.taskResAllocator.alloc.2 })
          tcbs := Function.update s.tcbs s.nextThread
            (some ⟨tcb.process, some pcb.taskResAllocator.alloc.1, none⟩)
          readyQueue := s.readyQueue ++ [s.nextThread]
          nextThread := s.nextThread + 1 }
        [.threadCreated tcb.process pcb.taskResAllocator.alloc.1 s.nextThread]
  | waittid {t : Thread} {tcb : Tcb} {pcb : Pcb} {tid own : ℕ} {outcome : WaittidOutcome}
      (hcur : s.current = some t) (htcb : s.tcbs t = some tcb) (hpcb : s.pcbs tcb.process = some pcb)
      (hres : tcb.res = some own)
      (houtcome : (outcome = .own ∧ own = tid) ∨
        (own ≠ tid ∧ outcome = .missing ∧ pcb.tasks[tid]? = some none) ∨
        (own ≠ tid ∧ outcome = .running ∧ ∃ w wtcb, pcb.tasks[tid]? = some (some w) ∧
          s.tcbs w = some wtcb ∧ wtcb.exitCode = none)) :
      Effect s (.call (.waittid tid)) s [.waittidReturned tcb.process t tid outcome]
  | waittidExited {t w : Thread} {tcb wtcb : Tcb} {pcb : Pcb} {tid own : ℕ} {code : ℤ}
      (hcur : s.current = some t) (htcb : s.tcbs t = some tcb) (hpcb : s.pcbs tcb.process = some pcb)
      (hres : tcb.res = some own) (hne : own ≠ tid) (hw : pcb.tasks[tid]? = some (some w))
      (hwtcb : s.tcbs w = some wtcb) (hcode : wtcb.exitCode = some code) :
      Effect s (.call (.waittid tid))
        { s with
          pcbs := Function.update s.pcbs tcb.process
            (some { pcb with tasks := pcb.tasks.set tid none }) }
        [.waittidReturned tcb.process t tid (.exited code)]
  | waitpid {t : Thread} {tcb : Tcb} {pcb : Pcb} {pid result : ℤ} (hcur : s.current = some t)
      (htcb : s.tcbs t = some tcb) (hpcb : s.pcbs tcb.process = some pcb)
      (hresult : (result = -1 ∧ ∀ c ∈ pcb.children, matchesPid s pid c = false) ∨
        (result = -2 ∧ (∃ c ∈ pcb.children, matchesPid s pid c = true) ∧
          ∀ c ∈ pcb.children, matchesPid s pid c = true → isZombie s c = false)) :
      Effect s (.call (.waitpid pid)) s [.waitpidReturned tcb.process pid result]
  | reap {t : Thread} {tcb : Tcb} {pcb childPcb : Pcb} {pid : ℤ} {child : Proc} {l r : List Proc}
      {a : RecycleAllocator} (hcur : s.current = some t) (htcb : s.tcbs t = some tcb)
      (hpcb : s.pcbs tcb.process = some pcb) (hchildren : pcb.children = l ++ child :: r)
      (hchild : s.pcbs child = some childPcb) (hzombie : childPcb.isZombie = true)
      (hmatch : matchesPid s pid child = true)
      (halloc : s.pidAllocator.dealloc childPcb.pid = some a) :
      Effect s (.call (.waitpid pid))
        { s with
          pcbs := Function.update (Function.update s.pcbs tcb.process
            (some { pcb with children := l ++ r })) child none
          pidAllocator := a }
        [.waitpidReturned tcb.process pid childPcb.pid,
          .reaped tcb.process child childPcb.pid childPcb.exitCode]
  | threadExit {t : Thread} {tcb : Tcb} {pcb : Pcb} {tid : ℕ} {code : ℤ} {a : RecycleAllocator}
      (hcur : s.current = some t) (htcb : s.tcbs t = some tcb) (hpcb : s.pcbs tcb.process = some pcb)
      (hres : tcb.res = some tid) (htid : tid ≠ 0)
      (halloc : pcb.taskResAllocator.dealloc tid = some a) :
      Effect s (.call (.exit code))
        { s with
          current := none
          tcbs := Function.update s.tcbs t (some ⟨tcb.process, none, some code⟩)
          pcbs := Function.update s.pcbs tcb.process (some { pcb with taskResAllocator := a }) }
        [.threadExited tcb.process tid t code]
  | processExit {t : Thread} {tcb : Tcb} {pcb : Pcb} {code : ℤ} {a : RecycleAllocator}
      (hcur : s.current = some t) (htcb : s.tcbs t = some tcb) (hpcb : s.pcbs tcb.process = some pcb)
      (hres : tcb.res = some 0) (hpid : pcb.pid ≠ idlePid) :
      Effect s (.call (.exit code))
        { s with
          current := none
          tcbs := stripped (Function.update s.tcbs t (some ⟨tcb.process, none, some code⟩)) pcb.tasks
          pcbs := Function.update (adopted s.pcbs pcb.children) tcb.process
            (some (pcb.exited tcb.process code a))
          pid2process := Function.update s.pid2process pcb.pid none }
        [.threadExited tcb.process 0 t code, .processExited tcb.process code]

section

variable {s s' : State} {t : Thread} {events : List Event}

theorem fork_effect (hcur : s.current = some t) (h : fork s t = some (s', events)) :
    Effect s (.call .fork) s' events := by
  obtain ⟨tcb, htcb, h⟩ := Option.bind_eq_some_iff.mp h
  obtain ⟨pcb, hpcb, h⟩ := Option.bind_eq_some_iff.mp h
  split at h
  · cases h
  · rename_i hone
    obtain ⟨main, hmain, h⟩ := Option.bind_eq_some_iff.mp h
    obtain ⟨mainTcb, hmainTcb, h⟩ := Option.bind_eq_some_iff.mp h
    obtain ⟨_, _, h⟩ := Option.bind_eq_some_iff.mp h
    cases h
    exact .fork hcur htcb hpcb (not_not.mp hone)

theorem threadCreate_effect (hcur : s.current = some t) (h : threadCreate s t = some (s', events)) :
    Effect s (.call .threadCreate) s' events := by
  obtain ⟨tcb, htcb, h⟩ := Option.bind_eq_some_iff.mp h
  obtain ⟨pcb, hpcb, h⟩ := Option.bind_eq_some_iff.mp h
  obtain ⟨_, _, h⟩ := Option.bind_eq_some_iff.mp h
  cases h
  exact .threadCreate hcur htcb hpcb

theorem waittid_effect {tid : ℕ} (hcur : s.current = some t)
    (h : waittid s t tid = some (s', events)) : Effect s (.call (.waittid tid)) s' events := by
  obtain ⟨tcb, htcb, h⟩ := Option.bind_eq_some_iff.mp h
  obtain ⟨pcb, hpcb, h⟩ := Option.bind_eq_some_iff.mp h
  obtain ⟨own, hres, h⟩ := Option.bind_eq_some_iff.mp h
  by_cases hown : own = tid
  · rw [if_pos hown] at h
    cases h
    exact .waittid hcur htcb hpcb hres (Or.inl ⟨rfl, hown⟩)
  · rw [if_neg hown] at h
    obtain ⟨slot, hslot, h⟩ := Option.bind_eq_some_iff.mp h
    cases slot with
    | none =>
      cases h
      exact .waittid hcur htcb hpcb hres (Or.inr (Or.inl ⟨hown, rfl, hslot⟩))
    | some w =>
      obtain ⟨wtcb, hwtcb, h⟩ := Option.bind_eq_some_iff.mp h
      cases hcode : wtcb.exitCode with
      | none =>
        simp only [hcode] at h
        cases h
        exact .waittid hcur htcb hpcb hres (Or.inr (Or.inr ⟨hown, rfl, w, wtcb, hslot, hwtcb, hcode⟩))
      | some code =>
        simp only [hcode] at h
        cases h
        exact .waittidExited hcur htcb hpcb hres hown hslot hwtcb hcode

theorem eraseP_of_find {pred : Proc → Bool} {cs : List Proc} {c : Proc} (h : cs.find? pred = some c) :
    pred c = true ∧ ∃ l r, cs = l ++ c :: r ∧ cs.eraseP pred = l ++ r := by
  obtain ⟨hc, l, r, hcs, hl⟩ := List.find?_eq_some_iff_append.mp h
  refine ⟨hc, l, r, hcs, ?_⟩
  rw [hcs, List.eraseP_append_right]
  · simp [hc]
  · intro b hb
    have hnot := hl b hb
    rw [Bool.not_eq_true'] at hnot
    rw [hnot]
    exact Bool.false_ne_true

theorem waitpid_effect {pid : ℤ} (hcur : s.current = some t)
    (h : waitpid s t pid = some (s', events)) : Effect s (.call (.waitpid pid)) s' events := by
  obtain ⟨tcb, htcb, h⟩ := Option.bind_eq_some_iff.mp h
  obtain ⟨pcb, hpcb, h⟩ := Option.bind_eq_some_iff.mp h
  by_cases hany : pcb.children.any (matchesPid s pid) = true
  · rw [if_pos hany] at h
    cases hfind : pcb.children.find? fun child => isZombie s child && matchesPid s pid child with
    | none =>
      simp only [hfind] at h
      cases h
      refine .waitpid hcur htcb hpcb (Or.inr ⟨rfl, List.any_eq_true.mp hany, ?_⟩)
      intro c hc hmatch
      have hnot := List.find?_eq_none.mp hfind c hc
      simpa [hmatch] using hnot
    | some child =>
      simp only [hfind] at h
      obtain ⟨hboth, l, r, hchildren, herase⟩ := eraseP_of_find hfind
      split at h
      · cases h
      · obtain ⟨childPcb, hchild, h⟩ := Option.bind_eq_some_iff.mp h
        obtain ⟨a, ha, h⟩ := Option.bind_eq_some_iff.mp h
        rw [Bool.and_eq_true] at hboth
        have hzombie : childPcb.isZombie = true := by
          have := hboth.1
          rw [isZombie, hchild] at this
          exact this
        rw [herase] at h
        cases h
        exact .reap hcur htcb hpcb hchildren hchild hzombie hboth.2 ha
  · rw [if_neg hany] at h
    cases h
    refine .waitpid hcur htcb hpcb (Or.inl ⟨rfl, ?_⟩)
    intro c hc
    by_contra hne
    exact hany (List.any_eq_true.mpr ⟨c, hc, by simpa using hne⟩)

theorem exit_effect {code : ℤ} (hcur : s.current = some t) (h : exit s t code = some (s', events)) :
    Effect s (.call (.exit code)) s' events := by
  obtain ⟨tcb, htcb, h⟩ := Option.bind_eq_some_iff.mp h
  obtain ⟨tid, hres, h⟩ := Option.bind_eq_some_iff.mp h
  obtain ⟨s₁, hs₁, h⟩ := Option.bind_eq_some_iff.mp h
  obtain ⟨pcb, a, hpcb, ha, rfl⟩ := deallocTid_eq hs₁
  by_cases htid : tid = 0
  · rw [if_pos htid] at h
    obtain ⟨s₂, hs₂, h⟩ := Option.bind_eq_some_iff.mp h
    obtain ⟨pcb', a', hpcb', hpid, rfl⟩ := exitMain_eq hs₂
    simp only [State.setPcb, Function.update_self, Option.some.injEq] at hpcb'
    subst hpcb' htid
    cases h
    have heq : Function.update (adopted (Function.update s.pcbs tcb.process
          (some { pcb with taskResAllocator := a })) pcb.children) tcb.process
          (some (pcb.exited tcb.process code a')) =
        Function.update (adopted s.pcbs pcb.children) tcb.process
          (some (pcb.exited tcb.process code a')) := by
      funext q
      by_cases hq : q = tcb.process
      · simp [hq]
      · simp [hq, adopted]
    have heffect : Effect s (.call (.exit code)) _ _ :=
      .processExit (a := a') hcur htcb hpcb hres hpid
    rw [← heq] at heffect
    exact heffect
  · rw [if_neg htid] at h
    cases h
    exact .threadExit hcur htcb hpcb hres htid ha

theorem call_effect {c : Call} (hcur : s.current = some t) (h : call s t c = some (s', events)) :
    Effect s (.call c) s' events := by
  cases c with
  | yield =>
    cases h
    refine .park .ready rfl hcur ?_ ⟨rfl, rfl, rfl, rfl, rfl, rfl⟩ rfl
    funext place
    cases place <;> rfl
  | sleep =>
    cases h
    refine .park .sleeping rfl hcur ?_ ⟨rfl, rfl, rfl, rfl, rfl, rfl⟩ rfl
    funext place
    cases place <;> rfl
  | waitDevice =>
    cases h
    refine .park .device rfl hcur ?_ ⟨rfl, rfl, rfl, rfl, rfl, rfl⟩ rfl
    funext place
    cases place <;> rfl
  | wait =>
    obtain ⟨tcb, htcb, h⟩ := Option.bind_eq_some_iff.mp h
    cases h
    refine .park (.waiting tcb.process) rfl hcur ?_ ⟨rfl, rfl, rfl, rfl, rfl, rfl⟩ rfl
    funext place
    cases place with
    | waiting p => by_cases hp : p = tcb.process <;> simp [State.queue, push, hp]
    | _ => rfl
  | wake w =>
    obtain ⟨tcb, htcb, h⟩ := Option.bind_eq_some_iff.mp h
    split at h
    · rename_i hmem
      cases h
      obtain ⟨l, r, _, hq, herase⟩ := List.exists_erase_eq hmem
      have hplace : s.queue (.waiting tcb.process) = l ++ w :: r := hq
      refine .wakeup rfl hplace ?_ ?_ ⟨rfl, rfl, rfl, rfl, rfl, rfl⟩ rfl
      · funext place
        cases place with
        | waiting p => by_cases hp : p = tcb.process <;> simp [State.queue, push, hp, herase]
        | _ => rfl
      · intro p hp
        cases hp
        exact ⟨t, tcb, hcur, htcb, rfl⟩
    · cases h
  | fork => exact fork_effect hcur h
  | exit code => exact exit_effect hcur h
  | waitpid pid => exact waitpid_effect hcur h
  | threadCreate => exact threadCreate_effect hcur h
  | waittid tid => exact waittid_effect hcur h

theorem step_effect {action : Action} (h : step s action = some (s', events)) :
    Effect s action s' events := by
  cases action with
  | dispatch =>
    rw [step] at h
    split at h
    · rename_i hcur hready
      cases h
      exact .dispatch hcur hready
    · cases h
  | expire t =>
    rw [step] at h
    split at h
    · rename_i hmem
      cases h
      obtain ⟨l, r, _, hq, herase⟩ := List.exists_erase_eq hmem
      have hplace : s.queue .sleeping = l ++ t :: r := hq
      refine .wakeup rfl hplace ?_ (fun p hp => by cases hp) ⟨rfl, rfl, rfl, rfl, rfl, rfl⟩ rfl
      funext place
      cases place with
      | sleeping => simp [State.queue, push, herase]
      | _ => rfl
    · cases h
  | deviceReady t =>
    rw [step] at h
    split at h
    · rename_i hmem
      cases h
      obtain ⟨l, r, _, hq, herase⟩ := List.exists_erase_eq hmem
      have hplace : s.queue .device = l ++ t :: r := hq
      refine .wakeup rfl hplace ?_ (fun p hp => by cases hp) ⟨rfl, rfl, rfl, rfl, rfl, rfl⟩ rfl
      funext place
      cases place with
      | device => simp [State.queue, push, herase]
      | _ => rfl
    · cases h
  | call c =>
    obtain ⟨t, hcur, h⟩ := Option.bind_eq_some_iff.mp h
    exact call_effect hcur h

end

end LemonCore.Kernel.Processes
