import LemonCore.Kernel.ProcessTree

/-!
# Strong references to a process (`Arc<ProcessControlBlock>`)

`sys_waitpid` removes a zombie from the caller's list of children and asserts that nothing else refers to
it.  References to a process are in lists of children, in `PID2PCB`, and on kernel stacks: a thread that is
suspended in a system call still has the call's local variables, and in some of them
`process = current_pcb()` is one.  To the machine of `Processes` this module adds where each thread is, in
user mode or in the kernel, and whether its kernel stack holds a reference to its process.

* `Suspension.holds`: which suspended calls hold a reference;
* `Machine.step`: the machine; a thread makes its system calls from user mode, and goes there only while it
  has its `TaskUserRes`;
* `zombie_child_referenced_once`: the assertion holds when no main thread exits while another thread of its
  process is suspended with a reference or is missing from the task table;
* `suspended_reader_keeps_zombie`: and fails without that.
-/

namespace LemonCore.Kernel.Processes

open Foundation.QueueFamily

/-! ### The machine -/

/-- The system calls and traps in which a thread is suspended. -/
inductive Suspension where
  /-- `sys_yield`, a timer trap, or a spinning mutex -/
  | yield
  /-- `sys_read` or `sys_write` on a pipe -/
  | pipe
  | sleep
  /-- `sys_read`, `sys_write`, `sys_open`, `sys_chdir`, `sys_mkdir`, `sys_unlink`, `sys_fstat` or `sys_exec`
  that waits for the block device or the UART -/
  | file
  /-- `sys_event_get` -/
  | input
  /-- `sys_mutex_lock`, `sys_semaphore_down` or `sys_condvar_wait` -/
  | block
  deriving DecidableEq, Repr

/-- Where the thread waits. -/
def Suspension.call : Suspension → Call
  | .yield | .pipe => .yield
  | .sleep => .sleep
  | .file | .input => .waitDevice
  | .block => .wait

/-- The local `process = current_pcb()` of the call is not dropped before the thread is suspended. -/
def Suspension.holds : Suspension → Bool
  | .pipe | .file => true
  | .yield | .sleep | .input | .block => false

inductive Mode where
  | user
  /-- in the kernel, with or without a reference to its process on the kernel stack -/
  | kernel (holds : Bool)
  deriving DecidableEq, Repr

inductive Move where
  | dispatch
  | expire (t : Thread)
  | deviceReady (t : Thread)
  /-- the current thread goes to user mode through `trap::leave` -/
  | leave
  /-- the current thread, in user mode, enters the kernel and is suspended there -/
  | suspend (w : Suspension)
  /-- the current thread is suspended once more in the same call -/
  | again (w : Suspension)
  | wake (t : Thread)
  | fork
  | exit (code : ℤ)
  | waitpid (pid : ℤ)
  | threadCreate
  | waittid (tid : ℕ)
  deriving DecidableEq, Repr

structure Machine where
  state : State
  mode : Thread → Mode

/-- The zombie that `sys_waitpid`, called by the thread `t`, selects. -/
def selected (s : State) (t : Thread) (pid : ℤ) : Option Proc := do
  let tcb ← s.tcbs t
  let pcb ← s.pcbs tcb.process
  pcb.children.find? fun child => isZombie s child && matchesPid s pid child

namespace Machine

variable (m : Machine)

/-- The references to `p` on kernel stacks. -/
def held (p : Proc) : ℕ :=
  (List.range m.state.nextThread).countP fun t =>
    m.mode t = .kernel true ∧ (m.state.tcbs t).map Tcb.process = some p

/-- `Arc::strong_count`. -/
def strongCount (p : Proc) : ℕ := Processes.strongCount m.state p + m.held p

/-- The current thread, if it is in user mode. -/
def caller : Option Thread := do
  let t ← m.state.current
  if m.mode t = .user then some t else none

def act (action : Action) : Option Machine := do
  let (s, _) ← Processes.step m.state action
  some { m with state := s }

def setMode (t : Thread) (mode : Mode) : Machine := { m with mode := Function.update m.mode t mode }

def step : Move → Option Machine
  | .dispatch => m.act .dispatch
  | .expire t => m.act (.expire t)
  | .deviceReady t => m.act (.deviceReady t)
  | .leave => do
    let t ← m.state.current
    let tcb ← m.state.tcbs t
    -- `current_trap_cx_user_va` unwraps the `TaskUserRes`
    let _ ← tcb.res
    some (m.setMode t .user)
  | .suspend w => do
    let t ← m.caller
    (m.setMode t (.kernel w.holds)).act (.call w.call)
  | .again w => do
    let t ← m.state.current
    if m.mode t = .kernel w.holds then m.act (.call w.call) else none
  | .wake t => do
    let _ ← m.caller
    m.act (.call (.wake t))
  | .fork => do
    let _ ← m.caller
    m.act (.call .fork)
  | .exit code => do
    let t ← m.caller
    (m.setMode t (.kernel false)).act (.call (.exit code))
  | .waitpid pid => do
    let t ← m.caller
    -- `children.remove` hands the reference in the list to the local `child`
    if ∀ child ∈ selected m.state t pid, m.strongCount child = 1 then m.act (.call (.waitpid pid))
    else none
  | .threadCreate => do
    let _ ← m.caller
    m.act (.call .threadCreate)
  | .waittid tid => do
    let _ ← m.caller
    m.act (.call (.waittid tid))

/-- The start: a thread that has not run yet is in the kernel. -/
def boot : Machine := ⟨Processes.boot, fun _ => .kernel false⟩

/-- The runs whose moves all meet `ok` in the state where they are made. -/
inductive Run (ok : Machine → Move → Prop) : Machine → Prop where
  | start : Run ok boot
  | step {m m' : Machine} {move : Move} (h : Run ok m) (hok : ok m move) (hstep : m.step move = some m') :
      Run ok m'

section

variable (ok : Machine → Move → Prop) [∀ m move, Decidable (ok m move)]

/-- The machine after a list of moves, if each of them is possible and meets `ok`. -/
def play : List Move → Machine → Option Machine
  | [], m => some m
  | move :: moves, m =>
    if ok m move then do
      let m' ← m.step move
      play moves m'
    else none

variable {ok}

theorem Run.play {m' : Machine} (moves : List Move) :
    ∀ {m : Machine}, Run ok m → play ok moves m = some m' → Run ok m' := by
  induction moves with
  | nil =>
    intro m hrun h
    cases h
    exact hrun
  | cons move moves ih =>
    intro m hrun h
    rw [Machine.play] at h
    split at h
    · rename_i hok
      obtain ⟨m₁, hstep, hrest⟩ := Option.bind_eq_some_iff.mp h
      exact ih (hrun.step hok hstep) hrest
    · cases h

variable (ok)

theorem exists_run (P : Machine → Prop) [∀ m, Decidable (P m)] (moves : List Move)
    (h : ((play ok moves boot).any fun m => decide (P m)) = true) : ∃ m, Run ok m ∧ P m := by
  cases hplay : play ok moves boot with
  | none =>
    rw [hplay] at h
    cases h
  | some m =>
    rw [hplay] at h
    exact ⟨m, Run.start.play moves hplay, of_decide_eq_true h⟩

end

end Machine

/-- A main thread exits only when every other thread of its process holds no reference, and is in the task
table if it still has its resources. -/
def ExitsLast (m : Machine) : Move → Prop
  | .exit _ =>
    ∀ t ∈ m.state.current, ∀ tcb ∈ m.state.tcbs t, tcb.res = some 0 →
      ∀ t' ∈ List.range m.state.nextThread, ∀ tcb' ∈ m.state.tcbs t', tcb'.process = tcb.process → t' ≠ t →
        m.mode t' ≠ .kernel true ∧
          (tcb'.res ≠ none → ∀ pcb ∈ m.state.pcbs tcb.process, some t' ∈ pcb.tasks)
  | _ => True

instance (m : Machine) : (move : Move) → Decidable (ExitsLast m move)
  | .exit _ => inferInstanceAs (Decidable (∀ t ∈ m.state.current, ∀ tcb ∈ m.state.tcbs t, tcb.res = some 0 →
      ∀ t' ∈ List.range m.state.nextThread, ∀ tcb' ∈ m.state.tcbs t', tcb'.process = tcb.process → t' ≠ t →
        m.mode t' ≠ .kernel true ∧
          (tcb'.res ≠ none → ∀ pcb ∈ m.state.pcbs tcb.process, some t' ∈ pcb.tasks)))
  | .dispatch | .expire _ | .deviceReady _ | .leave | .suspend _ | .again _ | .wake _ | .fork | .waitpid _
  | .threadCreate | .waittid _ => .isTrue trivial

section

variable {hist events : History} {s s' : State} {m m' : Machine} {t : Thread} {tcb : Tcb} {action : Action}
  {move : Move}

/-! ### The cases of a move -/

/-- The moves, by what they do to the modes. -/
inductive Turn (m : Machine) : Move → Machine → Prop where
  | leave {t : Thread} {tcb : Tcb} (hcur : m.state.current = some t) (htcb : m.state.tcbs t = some tcb)
      (hres : tcb.res ≠ none) : Turn m .leave (m.setMode t .user)
  /-- the scheduler or an interrupt -/
  | scheduled {move : Move} {action : Action} {s' : State} {events : History}
      (htables : SameTables m.state s') (hcur : m.state.current = none ∨ s'.current = m.state.current)
      (hquiet : ∀ e ∈ events, e.isQuiet = true) (hstep : step m.state action = some (s', events)) :
      Turn m move ⟨s', m.mode⟩
  | parked {move : Move} {action : Action} {s' : State} {events : History} {t : Thread} {holds : Bool}
      (hcur : m.state.current = some t) (hmode : m.mode t = .user ∨ m.mode t = .kernel holds)
      (htables : SameTables m.state s') (hquiet : ∀ e ∈ events, e.isQuiet = true)
      (hstep : step m.state action = some (s', events)) :
      Turn m move (Machine.setMode ⟨s', m.mode⟩ t (.kernel holds))
  /-- a system call that returns -/
  | called {move : Move} {c : Call} {s' : State} {events : History} {t : Thread}
      (hcaller : m.caller = some t) (hcur : s'.current = some t)
      (hkept : ∀ t' tcb, m.state.tcbs t' = some tcb → s'.tcbs t' = some tcb)
      (hnew : ∀ t' tcb, s'.tcbs t' = some tcb → m.state.tcbs t' = some tcb ∨
        tcb.process = m.state.nextProc ∨ ∃ tcb₀, m.state.tcbs t = some tcb₀ ∧ tcb.process = tcb₀.process)
      (hno : ∀ p code, .processExited p code ∉ events)
      (hstep : step m.state (.call c) = some (s', events)) : Turn m move ⟨s', m.mode⟩
  | exit {code : ℤ} {s' : State} {events : History} {t : Thread} (hcaller : m.caller = some t)
      (hstep : step m.state (.call (.exit code)) = some (s', events)) :
      Turn m (.exit code) (Machine.setMode ⟨s', m.mode⟩ t (.kernel false))

theorem Machine.act_inv (h : m.act action = some m') :
    ∃ events, Processes.step m.state action = some (m'.state, events) ∧ m'.mode = m.mode := by
  obtain ⟨⟨s', events⟩, hstep, h⟩ := Option.bind_eq_some_iff.mp h
  cases h
  exact ⟨events, hstep, rfl⟩

theorem Machine.caller_inv (h : m.caller = some t) : m.state.current = some t ∧ m.mode t = .user := by
  obtain ⟨t', hcur, h⟩ := Option.bind_eq_some_iff.mp h
  split at h
  · rename_i hmode
    cases h
    exact ⟨hcur, hmode⟩
  · cases h

theorem Suspension.step_inv (w : Suspension) (h : step s (.call w.call) = some (s', events)) :
    SameTables s s' ∧ events = [] := by
  obtain ⟨t, _, h⟩ := Option.bind_eq_some_iff.mp h
  cases w with
  | block =>
    obtain ⟨tcb, _, h⟩ := Option.bind_eq_some_iff.mp h
    cases h
    exact ⟨⟨rfl, rfl, rfl, rfl, rfl, rfl⟩, rfl⟩
  | _ =>
    cases h
    exact ⟨⟨rfl, rfl, rfl, rfl, rfl, rfl⟩, rfl⟩

theorem wake_inv {w : Thread} (h : step s (.call (.wake w)) = some (s', events)) :
    SameTables s s' ∧ s'.current = s.current ∧ events = [] := by
  obtain ⟨t, _, h⟩ := Option.bind_eq_some_iff.mp h
  obtain ⟨tcb, _, h⟩ := Option.bind_eq_some_iff.mp h
  split at h
  · cases h
    exact ⟨⟨rfl, rfl, rfl, rfl, rfl, rfl⟩, rfl, rfl⟩
  · cases h

theorem scheduled_inv (haction : ∀ c, action ≠ .call c) (h : step s action = some (s', events)) :
    SameTables s s' ∧ (s.current = none ∨ s'.current = s.current) ∧ ∀ e ∈ events, e.isQuiet = true := by
  cases action with
  | dispatch =>
    simp only [step] at h
    split at h
    · rename_i hcur _
      cases h
      exact ⟨⟨rfl, rfl, rfl, rfl, rfl, rfl⟩, Or.inl hcur, by simp [Event.isQuiet]⟩
    · cases h
  | expire t =>
    simp only [step] at h
    split at h
    · cases h
      exact ⟨⟨rfl, rfl, rfl, rfl, rfl, rfl⟩, Or.inr rfl, by simp⟩
    · cases h
  | deviceReady t =>
    simp only [step] at h
    split at h
    · cases h
      exact ⟨⟨rfl, rfl, rfl, rfl, rfl, rfl⟩, Or.inr rfl, by simp⟩
    · cases h
  | call c => exact absurd rfl (haction c)

theorem tcbs_new {tcb₀ : Tcb} (hs : Seated s) :
    (∀ t tcb, s.tcbs t = some tcb → Function.update s.tcbs s.nextThread (some tcb₀) t = some tcb) ∧
      ∀ t tcb, Function.update s.tcbs s.nextThread (some tcb₀) t = some tcb →
        s.tcbs t = some tcb ∨ tcb = tcb₀ := by
  constructor
  · intro t tcb ht
    have hne : t ≠ s.nextThread := by
      intro heq
      rw [heq, hs.fresh _ (Nat.le_refl _)] at ht
      cases ht
    rw [Function.update_of_ne hne, ht]
  · intro t tcb ht
    rw [Function.update_apply] at ht
    split at ht
    · exact Or.inr (Option.some.inj ht).symm
    · exact Or.inl ht

/-- A call other than `exit` that moves no thread leaves the threads that there are as they are. -/
theorem Turn.of_call {c : Call} (hs : Seated m.state) (hmoves : (Action.call c).moves = false)
    (hexit : ∀ code, c ≠ .exit code) (hcaller : m.caller = some t) (h : m.act (.call c) = some m') :
    Turn m move m' := by
  obtain ⟨s', mode⟩ := m'
  obtain ⟨events, hstep, rfl⟩ := Machine.act_inv h
  have hcur := (Machine.caller_inv hcaller).1
  have heffect := step_effect hstep
  cases heffect with
  | wakeup haction hq hq' hplace htables hcur' =>
    rw [hmoves] at haction
    cases haction
  | park place haction hcur₀ hq' htables hcur' =>
    rw [hmoves] at haction
    cases haction
  | fork hcur₀ htcb hpcb hone =>
    obtain ⟨hkept, hnew⟩ := tcbs_new hs
    refine .called hcaller hcur hkept (fun t' tcb ht' => ?_) (by simp) hstep
    exact (hnew t' tcb ht').imp_right fun heq => Or.inl (by rw [heq])
  | @threadCreate t₀ tcb₀ pcb hcur₀ htcb hpcb =>
    obtain ⟨hkept, hnew⟩ := tcbs_new hs
    have hcaller' : t₀ = t := Option.some.inj (hcur₀.symm.trans hcur)
    refine .called hcaller hcur hkept (fun t' tcb ht' => ?_) (by simp) hstep
    exact (hnew t' tcb ht').imp_right fun heq => Or.inr ⟨tcb₀, hcaller' ▸ htcb, by rw [heq]⟩
  | waittid hcur₀ htcb hpcb hres houtcome =>
    exact .called hcaller hcur (fun _ _ ht => ht) (fun _ _ ht => Or.inl ht) (by simp) hstep
  | waittidExited hcur₀ htcb hpcb hres hne hw hwtcb hcode =>
    exact .called hcaller hcur (fun _ _ ht => ht) (fun _ _ ht => Or.inl ht) (by simp) hstep
  | waitpid hcur₀ htcb hpcb hresult =>
    exact .called hcaller hcur (fun _ _ ht => ht) (fun _ _ ht => Or.inl ht) (by simp) hstep
  | reap hcur₀ htcb hpcb hchildren hchild hzombie hmatch halloc =>
    exact .called hcaller hcur (fun _ _ ht => ht) (fun _ _ ht => Or.inl ht) (by simp) hstep
  | threadExit => exact absurd rfl (hexit _)
  | processExit => exact absurd rfl (hexit _)

theorem Turn.of_scheduled (haction : ∀ c, action ≠ .call c) (h : m.act action = some m') :
    Turn m move m' := by
  obtain ⟨s', mode⟩ := m'
  obtain ⟨events, hstep, rfl⟩ := Machine.act_inv h
  obtain ⟨htables, hcur, hquiet⟩ := scheduled_inv haction hstep
  exact .scheduled htables hcur hquiet hstep

theorem Turn.of_parked {w : Suspension} (hcur : m.state.current = some t)
    (hmode : m.mode t = .user ∨ m.mode t = .kernel w.holds)
    (h : (m.setMode t (.kernel w.holds)).act (.call w.call) = some m') : Turn m move m' := by
  obtain ⟨s', mode⟩ := m'
  obtain ⟨events, hstep, rfl⟩ := Machine.act_inv h
  obtain ⟨htables, rfl⟩ := w.step_inv hstep
  exact .parked hcur hmode htables (by simp) hstep

theorem Machine.step_turn (hs : Seated m.state) (h : m.step move = some m') : Turn m move m' := by
  cases move with
  | dispatch => exact .of_scheduled (by simp) h
  | expire t => exact .of_scheduled (by simp) h
  | deviceReady t => exact .of_scheduled (by simp) h
  | leave =>
    obtain ⟨t, hcur, h⟩ := Option.bind_eq_some_iff.mp h
    obtain ⟨tcb, htcb, h⟩ := Option.bind_eq_some_iff.mp h
    obtain ⟨tid, hres, h⟩ := Option.bind_eq_some_iff.mp h
    cases h
    exact .leave hcur htcb (by rw [hres]; exact Option.some_ne_none tid)
  | suspend w =>
    obtain ⟨t, hcaller, h⟩ := Option.bind_eq_some_iff.mp h
    obtain ⟨hcur, hmode⟩ := caller_inv hcaller
    exact .of_parked hcur (Or.inl hmode) h
  | again w =>
    obtain ⟨t, hcur, h⟩ := Option.bind_eq_some_iff.mp h
    split at h
    · rename_i hmode
      have hself : m.setMode t (.kernel w.holds) = m := by
        rw [setMode, ← hmode, Function.update_eq_self]
      rw [← hself] at h
      exact .of_parked hcur (Or.inr hmode) h
    · cases h
  | wake w =>
    obtain ⟨t, hcaller, h⟩ := Option.bind_eq_some_iff.mp h
    obtain ⟨s', mode⟩ := m'
    obtain ⟨events, hstep, rfl⟩ := act_inv h
    obtain ⟨htables, hcur, rfl⟩ := wake_inv hstep
    have htcbs : s'.tcbs = m.state.tcbs := htables.tcbs
    refine .called hcaller (hcur.trans (caller_inv hcaller).1) ?_ ?_ (by simp) hstep
    · rw [htcbs]
      exact fun _ _ ht => ht
    · rw [htcbs]
      exact fun _ _ ht => Or.inl ht
  | fork =>
    obtain ⟨t, hcaller, h⟩ := Option.bind_eq_some_iff.mp h
    exact .of_call hs rfl (by simp) hcaller h
  | exit code =>
    obtain ⟨t, hcaller, h⟩ := Option.bind_eq_some_iff.mp h
    obtain ⟨s', mode⟩ := m'
    obtain ⟨events, hstep, rfl⟩ := act_inv h
    exact .exit hcaller hstep
  | waitpid pid =>
    obtain ⟨t, hcaller, h⟩ := Option.bind_eq_some_iff.mp h
    split at h
    · exact .of_call hs rfl (by simp) hcaller h
    · cases h
  | threadCreate =>
    obtain ⟨t, hcaller, h⟩ := Option.bind_eq_some_iff.mp h
    exact .of_call hs rfl (by simp) hcaller h
  | waittid tid =>
    obtain ⟨t, hcaller, h⟩ := Option.bind_eq_some_iff.mp h
    exact .of_call hs rfl (by simp) hcaller h

/-! ### What holds along the runs -/

structure Kept (hist : History) (m : Machine) : Prop where
  run : Run (fun _ _ => True) hist m.state
  named : Named hist m.state
  family : Family hist m.state
  user : ∀ t, m.mode t = .user → m.state.current = some t ∧ ∃ tcb, m.state.tcbs t = some tcb ∧ tcb.res ≠ none
  /-- the threads of an exited process have no resources and hold no reference -/
  gone : ∀ t tcb, m.state.tcbs t = some tcb → Exited hist tcb.process →
    tcb.res = none ∧ m.mode t ≠ .kernel true

theorem Effect.treeStep (hf : Filed s) (hr : Recorded hist s) (h : Effect s action s' events)
    (hlive : ∀ t tcb, s.current = some t → s.tcbs t = some tcb → ¬ Exited hist tcb.process) :
    TreeStep hist s s' events := by
  cases h with
  | dispatch hcur hready => exact .quiet ⟨fun q => rfl, rfl, rfl, rfl⟩ (by simp [Event.isQuiet])
  | wakeup haction hq hq' hplace htables hcur => exact .quiet htables.sameKin (by simp)
  | park place haction hcur hq' htables hcur' => exact .quiet htables.sameKin (by simp)
  | fork hcur htcb hpcb hone => exact .fork (hlive _ _ hcur htcb) hpcb rfl rfl rfl
  | threadCreate hcur htcb hpcb =>
    exact .quiet ⟨map_update hpcb rfl, rfl, rfl, rfl⟩ (by simp [Event.isQuiet])
  | waittid hcur htcb hpcb hres houtcome =>
    exact .quiet ⟨fun q => rfl, rfl, rfl, rfl⟩ (by simp [Event.isQuiet])
  | waittidExited hcur htcb hpcb hres hne hw hwtcb hcode =>
    exact .quiet ⟨map_update hpcb rfl, rfl, rfl, rfl⟩ (by simp [Event.isQuiet])
  | waitpid hcur htcb hpcb hresult =>
    exact .quiet ⟨fun q => rfl, rfl, rfl, rfl⟩ (by simp [Event.isQuiet])
  | reap hcur htcb hpcb hchildren hchild hzombie hmatch halloc =>
    exact .reap (hlive _ _ hcur htcb) hpcb hchildren hchild (hr.exited_of_zombie hf hchild hzombie)
      rfl halloc rfl
  | threadExit hcur htcb hpcb hres htid halloc =>
    exact .quiet ⟨map_update hpcb rfl, rfl, rfl, rfl⟩ (by simp [Event.isQuiet])
  | processExit hcur htcb hpcb hres hpid =>
    exact .exit (hlive _ _ hcur htcb) hpcb hpid rfl rfl rfl

theorem stripped_res {tcbs : Thread → Option Tcb} {tasks : List (Option Thread)}
    (h : stripped tcbs tasks t = some tcb) (hmem : some t ∈ tasks) : tcb.res = none := by
  rw [stripped, if_pos hmem] at h
  obtain ⟨tcb₀, _, rfl⟩ := Option.map_eq_some_iff.mp h
  rfl

namespace Kept

/-- A process that makes a system call has not exited. -/
theorem live (h : Kept hist m) (hmode : m.mode t = .user) (htcb : m.state.tcbs t = some tcb) :
    ¬ Exited hist tcb.process := by
  intro hexit
  obtain ⟨_, tcb', htcb', hres⟩ := h.user t hmode
  rw [htcb] at htcb'
  cases htcb'
  exact hres (h.gone t tcb htcb hexit).1

/-- The tables after a step of the processes, if the thread that took it has not exited or changed no
table. -/
theorem tables (h : Kept hist m) (hstep : step m.state action = some (s', events))
    (htree : TreeStep hist m.state s' events) :
    Run (fun _ _ => True) (hist ++ events) s' ∧ Named (hist ++ events) s' ∧ Family (hist ++ events) s' :=
  ⟨h.run.step trivial hstep, h.named.step h.run.filed h.run.recorded htree,
    h.family.step h.run.filed h.named htree⟩

theorem calls (h : Kept hist m) (hcaller : m.caller = some t)
    (hstep : step m.state action = some (s', events)) : TreeStep hist m.state s' events := by
  obtain ⟨hcur, hmode⟩ := Machine.caller_inv hcaller
  refine (step_effect hstep).treeStep h.run.filed h.run.recorded fun t' tcb' hcur' htcb' => ?_
  rw [hcur] at hcur'
  cases hcur'
  exact h.live hmode htcb'

theorem exits {code : ℤ} (h : Kept hist m) (hok : ExitsLast m (.exit code)) (hcaller : m.caller = some t)
    (hstep : step m.state (.call (.exit code)) = some (s', events)) :
    Kept (hist ++ events) (Machine.setMode ⟨s', m.mode⟩ t (.kernel false)) := by
  obtain ⟨hrun, hnamed, hfamily⟩ := h.tables hstep (h.calls hcaller hstep)
  obtain ⟨hcur, hmode⟩ := Machine.caller_inv hcaller
  refine ⟨hrun, hnamed, hfamily, ?_, ?_⟩
  · intro t' hmode'
    simp only [Machine.setMode, Function.update_apply] at hmode'
    split at hmode'
    · cases hmode'
    · rename_i hne
      have hcur' := (h.user t' hmode').1
      rw [hcur] at hcur'
      exact absurd (Option.some.inj hcur').symm hne
  · intro t' tcb' htcb' hexit
    have hmode' : Function.update m.mode t (.kernel false) t' ≠ .kernel true ↔
        t' = t ∨ m.mode t' ≠ .kernel true := by
      rw [Function.update_apply]
      split
      · rename_i heq
        simp [heq]
      · rename_i hne
        simp [hne]
    show tcb'.res = none ∧ Function.update m.mode t (.kernel false) t' ≠ .kernel true
    rw [hmode']
    have heffect := step_effect hstep
    cases heffect with
    | wakeup haction => cases haction
    | park place haction => cases haction
    | @threadExit t₀ tcb₀ pcb tid code a hcur₀ htcb₀ hpcb hres htid halloc =>
      rw [hcur] at hcur₀
      cases hcur₀
      rw [exited_append hist (by simp)] at hexit
      change Function.update m.state.tcbs t (some ⟨tcb₀.process, none, some code⟩) t' = some tcb' at htcb'
      rw [Function.update_apply] at htcb'
      split at htcb'
      · rename_i heq
        cases htcb'
        exact ⟨rfl, Or.inl heq⟩
      · obtain ⟨hres', hmode'⟩ := h.gone t' tcb' htcb' hexit
        exact ⟨hres', Or.inr hmode'⟩
    | @processExit t₀ tcb₀ pcb code a hcur₀ htcb₀ hpcb hres hpid =>
      rw [hcur] at hcur₀
      cases hcur₀
      rw [exited_append_processExited hist (.threadExited tcb₀.process 0 t code) (by simp)] at hexit
      obtain ⟨tcb₁, htcb₁, hproc, _, hres₁⟩ := stripped_some htcb'
      have hlisted : tcb₁.res = none ∨ some t' ∈ pcb.tasks → tcb'.res = none := by
        intro hor
        by_cases hmem : some t' ∈ pcb.tasks
        · exact stripped_res htcb' hmem
        · rw [hres₁ hmem]
          exact hor.resolve_right hmem
      rw [Function.update_apply] at htcb₁
      split at htcb₁
      · rename_i heq
        cases htcb₁
        exact ⟨hlisted (Or.inl rfl), Or.inl heq⟩
      · rename_i hne
        cases hexit with
        | inl hp =>
          -- another thread of the process that exits
          have hlt : t' ∈ List.range m.state.nextThread := List.mem_range.mpr (h.run.seated.tcb_lt htcb₁)
          obtain ⟨hmode', htasks⟩ :=
            hok t hcur tcb₀ htcb₀ hres t' hlt tcb₁ htcb₁ (hproc.symm.trans hp) hne
          refine ⟨hlisted ?_, Or.inr hmode'⟩
          by_cases hres' : tcb₁.res = none
          · exact Or.inl hres'
          · exact Or.inr (htasks hres' pcb hpcb)
        | inr hexit =>
          rw [hproc] at hexit
          obtain ⟨hres', hmode'⟩ := h.gone t' tcb₁ htcb₁ hexit
          exact ⟨hlisted (Or.inl hres'), Or.inr hmode'⟩

theorem step (h : Kept hist m) (hok : ExitsLast m move) (hturn : Turn m move m') :
    ∃ events, Kept (hist ++ events) m' := by
  cases hturn with
  | @leave t tcb hcur htcb hres =>
    refine ⟨[], ?_⟩
    rw [List.append_nil]
    refine ⟨h.run, h.named, h.family, ?_, ?_⟩
    · intro t' hmode
      simp only [Machine.setMode, Function.update_apply] at hmode
      split at hmode
      · rename_i heq
        rw [heq]
        exact ⟨hcur, tcb, htcb, hres⟩
      · exact h.user t' hmode
    · intro t' tcb' htcb' hexit
      obtain ⟨hres', hmode⟩ := h.gone t' tcb' htcb' hexit
      refine ⟨hres', ?_⟩
      simp only [Machine.setMode, Function.update_apply]
      split
      · simp
      · exact hmode
  | @scheduled _ action s' events htables hcur hquiet hstep =>
    obtain ⟨hrun, hnamed, hfamily⟩ := h.tables hstep (.quiet htables.sameKin hquiet)
    refine ⟨events, hrun, hnamed, hfamily, ?_, ?_⟩
    · intro t hmode
      obtain ⟨hcur₀, tcb, htcb, hres⟩ := h.user t hmode
      refine ⟨?_, tcb, by rw [htables.tcbs, htcb], hres⟩
      cases hcur with
      | inl hnone =>
        rw [hnone] at hcur₀
        cases hcur₀
      | inr hsame => exact hsame.trans hcur₀
    · intro t tcb htcb hexit
      rw [exited_append hist (quiet_events hquiet).2.1] at hexit
      exact h.gone t tcb (htables.tcbs ▸ htcb) hexit
  | @parked _ action s' events t holds hcur hmode htables hquiet hstep =>
    obtain ⟨hrun, hnamed, hfamily⟩ := h.tables hstep (.quiet htables.sameKin hquiet)
    refine ⟨events, hrun, hnamed, hfamily, ?_, ?_⟩
    · intro t' hmode'
      simp only [Machine.setMode, Function.update_apply] at hmode'
      split at hmode'
      · cases hmode'
      · rename_i hne
        have hcur' := (h.user t' hmode').1
        rw [hcur] at hcur'
        exact absurd (Option.some.inj hcur').symm hne
    · intro t' tcb' htcb' hexit
      rw [exited_append hist (quiet_events hquiet).2.1] at hexit
      have htcb₀ : m.state.tcbs t' = some tcb' := htables.tcbs ▸ htcb'
      obtain ⟨hres, hnot⟩ := h.gone t' tcb' htcb₀ hexit
      refine ⟨hres, ?_⟩
      simp only [Machine.setMode, Function.update_apply]
      split
      · rename_i heq
        rw [heq] at htcb₀ hnot
        cases hmode with
        | inl huser => exact absurd hexit (h.live huser htcb₀)
        | inr hkernel => exact hkernel ▸ hnot
      · exact hnot
  | @called _ c s' events t hcaller hcur hkept hnew hno hstep =>
    obtain ⟨hrun, hnamed, hfamily⟩ := h.tables hstep (h.calls hcaller hstep)
    obtain ⟨hcur₀, hmode⟩ := Machine.caller_inv hcaller
    refine ⟨events, hrun, hnamed, hfamily, ?_, ?_⟩
    · intro t' hmode'
      obtain ⟨hcur', tcb, htcb, hres⟩ := h.user t' hmode'
      exact ⟨hcur.trans (hcur₀.symm.trans hcur'), tcb, hkept t' tcb htcb, hres⟩
    · intro t' tcb' htcb' hexit
      rw [exited_append hist hno] at hexit
      rcases hnew t' tcb' htcb' with hold | hfresh | ⟨tcb₀, htcb₀, hproc⟩
      · exact h.gone t' tcb' hold hexit
      · rw [hfresh] at hexit
        exact absurd (h.run.recorded.known _ hexit) (Nat.lt_irrefl _)
      · rw [hproc] at hexit
        exact absurd hexit (h.live hmode htcb₀)
  | @exit code s' events t hcaller hstep => exact ⟨events, h.exits hok hcaller hstep⟩

end Kept

theorem kept_boot : Kept [.threadCreated daemon 0 0] Machine.boot := by
  refine ⟨.start, named_boot, family_boot, ?_, ?_⟩
  · intro t hmode
    cases hmode
  · intro t tcb _ hexit
    exact absurd hexit (not_exited_start _)

theorem Machine.Run.kept (h : Machine.Run ExitsLast m) : ∃ hist, Kept hist m := by
  induction h with
  | start => exact ⟨_, kept_boot⟩
  | step hrun hok hstep ih =>
    obtain ⟨hist, hkept⟩ := ih
    obtain ⟨events, hkept'⟩ := hkept.step hok (Machine.step_turn hkept.run.seated hstep)
    exact ⟨hist ++ events, hkept'⟩

/-! ### The references to a zombie -/

theorem sum_range_single {f : ℕ → ℕ} {n p : ℕ} (hp : p < n) (hf : ∀ q, f q = if q = p then 1 else 0) :
    ((List.range n).map f).sum = 1 := by
  have hcount : ((List.range n).map f).sum = (List.range n).count p := by
    induction List.range n with
    | nil => rfl
    | cons q l ih =>
      rw [List.map_cons, List.sum_cons, ih, hf, List.count_cons, Nat.add_comm]
      simp
  rw [hcount]
  exact List.count_eq_one_of_mem List.nodup_range (List.mem_range.mpr hp)

theorem Kept.strongCount_zombie (h : Kept hist m) {p c : Proc} (hc : c ∈ childrenOf m.state p)
    (hz : isZombie m.state c = true) :
    (childrenOf m.state p).count c = 1 ∧ m.strongCount c = 1 := by
  have hin := h.family.spread.of_mem hc
  have hexit : Exited hist c := (isZombie_iff h.run.recorded h.run.filed hin.1).mp hz
  obtain ⟨childPcb, hchild⟩ := Option.isSome_iff_exists.mp hin.1
  -- the list that holds it is that of `p`
  obtain ⟨p', hcounts⟩ := h.family.spread.once hin
  have hp' : p' = p := by
    by_contra hne
    have hzero := hcounts p
    rw [if_neg (Ne.symm hne)] at hzero
    exact List.count_eq_zero.mp hzero hc
  subst hp'
  have hlt : p' < m.state.nextProc := by
    by_contra hge
    rw [childrenOf_of_none (h.run.filed.fresh p' (Nat.le_of_not_lt hge))] at hc
    cases hc
  have hlists := sum_range_single hlt hcounts
  have hmap : ∀ pid, m.state.pid2process pid ≠ some c := by
    intro pid hmapped
    have hlive := (h.named.pcb_of_mapped hmapped hchild).2
    simp [isZombie, hchild, hlive] at hz
  have hheld : m.held c = 0 := by
    rw [Machine.held, List.countP_eq_zero]
    intro t _ hboth
    obtain ⟨hmode, hproc⟩ := of_decide_eq_true hboth
    obtain ⟨tcb, htcb, rfl⟩ := Option.map_eq_some_iff.mp hproc
    exact (h.gone t tcb htcb hexit).2 hmode
  refine ⟨(hcounts p').trans (if_pos rfl), ?_⟩
  simp [Machine.strongCount, strongCount, hlists, hmap, hheld]

theorem selected_inv {pid : ℤ} {child : Proc} (h : selected s t pid = some child)
    (htcb : s.tcbs t = some tcb) : child ∈ childrenOf s tcb.process ∧ isZombie s child = true := by
  obtain ⟨tcb', htcb', h⟩ := Option.bind_eq_some_iff.mp h
  rw [htcb] at htcb'
  cases htcb'
  obtain ⟨pcb, hpcb, h⟩ := Option.bind_eq_some_iff.mp h
  have hboth := List.find?_some h
  rw [Bool.and_eq_true] at hboth
  rw [childrenOf_of_pcb hpcb]
  exact ⟨List.mem_of_find?_eq_some h, hboth.1⟩

end

/-- **The assertion of `sys_waitpid`.**  In every run in which main threads exit only as `ExitsLast` says, a
zombie that `sys_waitpid` selects has one strong reference, which is the one in the caller's list of
children. -/
theorem zombie_child_referenced_once {m : Machine} (h : Machine.Run ExitsLast m) {t : Thread} {tcb : Tcb}
    {pid : ℤ} {child : Proc} (htcb : m.state.tcbs t = some tcb)
    (hselected : selected m.state t pid = some child) :
    (childrenOf m.state tcb.process).count child = 1 ∧ m.strongCount child = 1 := by
  obtain ⟨hist, hkept⟩ := h.kept
  obtain ⟨hmem, hz⟩ := selected_inv hselected htcb
  exact hkept.strongCount_zombie hmem hz

/-- The daemon forks a child, which creates a second thread; that thread is suspended, the child's main
thread exits, and the daemon goes on. -/
def childExits (w : Suspension) : List Move :=
  [.dispatch, .leave, .fork, .suspend .yield, .dispatch, .leave, .threadCreate, .suspend .yield,
    .dispatch, .leave, .suspend .yield, .dispatch, .leave, .suspend w,
    .dispatch, .leave, .exit 7, .dispatch, .leave]

/-- The second thread sleeps. -/
theorem zombie_child_referenced_once_sleeper : ∃ m, Machine.Run ExitsLast m ∧ m.caller = some 0 ∧
    m.state.tcbs 0 = some ⟨daemon, some 0, none⟩ ∧ selected m.state 0 (-1) = some 1 ∧
    (childrenOf m.state daemon).count 1 = 1 ∧ m.strongCount 1 = 1 := by
  obtain ⟨m, hrun, hcaller, htcb, hselected⟩ := Machine.exists_run ExitsLast
    (fun m => m.caller = some 0 ∧ m.state.tcbs 0 = some ⟨daemon, some 0, none⟩ ∧
      selected m.state 0 (-1) = some 1) (childExits .sleep) (by decide)
  exact ⟨m, hrun, hcaller, htcb, hselected, zombie_child_referenced_once hrun htcb hselected⟩

/-- The second thread is in `sys_read` on an empty pipe: the zombie has a second reference, and
`sys_waitpid` panics. -/
theorem suspended_reader_keeps_zombie : ∃ m, Machine.Run (fun _ _ => True) m ∧ m.caller = some 0 ∧
    selected m.state 0 (-1) = some 1 ∧ m.strongCount 1 = 2 ∧ (m.step (.waitpid (-1))).isNone :=
  Machine.exists_run (fun _ _ => True)
    (fun m => m.caller = some 0 ∧ selected m.state 0 (-1) = some 1 ∧ m.strongCount 1 = 2 ∧
      (m.step (.waitpid (-1))).isNone) (childExits .pipe) (by decide)

end LemonCore.Kernel.Processes
