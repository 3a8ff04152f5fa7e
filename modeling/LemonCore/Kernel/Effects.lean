import LemonCore.Kernel.Scheduling

/-!
# What one step means for the objects

For an invariant about mutexes, semaphores, condition variables or pipes, a step of the machine is one of
three things (`Step.effect`): a task enters a system call, a task runs a section, or nothing that such an
invariant can see.  What it can see of a task is its control: the point at which the task goes on, whether
it is on the hart or switched away.
-/

namespace LemonCore.Kernel

/-- The point at which the task goes on after the section, where that is fixed already. -/
def Pc.point : Pc → Option Resume
  | resume point | suspendTake point | suspendStatus _ point | suspendAdd _ point
  | blockTake point | blockStatus _ point | schedule _ point => some point
  | waitEnqueue c m => some (.lock m (.wait c))
  | _ => none

/-- The point at which a task goes on. -/
def System.control (s : System) (t : Task) : Option Resume :=
  match s.cpu with
  | .running t' pc => if t' = t then pc.point else some (s.saved t)
  | _ => some (s.saved t)

section

variable {s : System} {t : Task} {pc : Pc}

theorem System.control_running (h : s.cpu = .running t pc) : s.control t = pc.point := by
  rw [control, h]
  simp

theorem System.control_other {t' : Task} (h : s.cpu = .running t' pc) (hne : t' ≠ t) :
    s.control t = some (s.saved t) := by
  rw [control, h]
  simp [hne]

end

/-- A step, as far as the objects are concerned. -/
inductive Effect (ok : History → Task → Call → Prop) (hist : History) (s : System) :
    History → System → Prop where
  | call {t : Task} {c : Call} (hcpu : s.cpu = .running t (.resume .user)) (hok : ok hist t c) :
      Effect ok hist s [(t, .called c)] { s with cpu := .running t c.entry }
  | run {t : Task} {pc pc' : Pc} {k' : KernelState} {events : List Event}
      (hcpu : s.cpu = .running t pc) (hsec : Section t s.kernel pc k' pc' events)
      (hnowhere : pc.queued = false → Foundation.QueueFamily.Nowhere s.kernel.queue t) :
      Effect ok hist s (events.map (Prod.mk t)) { s with kernel := k', cpu := .running t pc' }
  | quiet {s' : System} (hobjects : SameObjects s.kernel s'.kernel) (hcontrol : s'.control = s.control)
      (hcpu : ∀ t pc, s'.cpu = .running t pc → s.cpu = .running t pc ∨ ∃ point, pc = .resume point)
      (hkeeps : ∀ t pc, s.cpu = .running t pc → s'.cpu = .running t pc ∨ ∃ point, pc = .schedule t point) :
      Effect ok hist s [] s'

variable {ok : History → Task → Call → Prop} {tasks : List Task} {hist events : History} {s s' : System}

theorem Step.effect (hp : Placed tasks s) (h : Step ok hist s events s') :
    Effect ok hist s events s' := by
  cases h with
  | call hcpu hok => exact .call hcpu hok
  | @exec t pc pc' k' events buf hcpu hexec =>
    have hcur : s.kernel.current = (Cpu.running t pc).current := by
      rw [hp.current, hcpu]
    refine .run hcpu (exec_section hexec hcur (hp.names t pc hcpu)) fun hq => ?_
    refine hp.spread.nowhere fun hx => hx.2 ?_
    rw [hcpu, Cpu.loose, hq]
    rfl
  | @switch t task point hcpu =>
    have htask : task = t := hp.names t _ hcpu
    subst htask
    refine .quiet ⟨rfl, rfl, rfl, rfl⟩ ?_ (fun t pc heq => by cases heq) fun t pc heq => ?_
    case refine_2 =>
      rw [hcpu] at heq
      cases heq
      exact Or.inr ⟨point, rfl⟩
    funext t
    by_cases ht : task = t
    · subst ht
      rw [System.control_running hcpu]
      simp [System.control, Pc.point]
    · rw [System.control_other hcpu ht]
      simp [System.control, Ne.symm ht]
  | @fetch task readyQueue hcpu hready =>
    refine .quiet ⟨rfl, rfl, rfl, rfl⟩ ?_ (fun t pc heq => by cases heq)
      fun t pc heq => by rw [hcpu] at heq; cases heq
    funext t
    simp [System.control, hcpu]
  | @start task hcpu =>
    refine .quiet ⟨rfl, rfl, rfl, rfl⟩ ?_ ?_ ?_
    · funext t
      by_cases ht : task = t
      · simp [System.control, hcpu, ht, Pc.point]
      · simp [System.control, hcpu, ht]
    · intro t pc heq
      cases heq
      exact Or.inr ⟨_, rfl⟩
    · intro t pc heq
      rw [hcpu] at heq
      cases heq
  | interrupt hcheck =>
    exact .quiet hcheck.sameObjects rfl (fun t pc heq => Or.inl heq) fun t pc heq => Or.inl heq
  | tick ms =>
    exact .quiet ⟨rfl, rfl, rfl, rfl⟩ rfl (fun t pc heq => Or.inl heq) fun t pc heq => Or.inl heq

/-- An invariant that holds at the start and is kept by each effect holds along every run. -/
theorem Run.invariant {isBlocking : ℕ → Bool} {resCount : ℕ → ℕ} {I : History → System → Prop}
    (htasks : tasks.Nodup) (h : Run ok (.boot tasks isBlocking resCount) hist s)
    (hstart : I [] (.boot tasks isBlocking resCount))
    (hstep : ∀ {hist events : History} {s s' : System}, I hist s → Effect ok hist s events s' →
      I (hist ++ events) s') : I hist s := by
  induction h with
  | start => exact hstart
  | step hrun hs ih => exact hstep ih (hs.effect (hrun.placed htasks))

theorem System.control_of_ne {k' : KernelState} {t t' : Task} {pc pc' : Pc}
    (hcpu : s.cpu = .running t pc) (hne : t ≠ t') :
    ({ s with kernel := k', cpu := .running t pc' } : System).control t' = s.control t' := by
  rw [control_other hcpu hne]
  exact control_other rfl hne

end LemonCore.Kernel
