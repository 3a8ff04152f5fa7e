import LemonCore.Kernel.ProcessTables

/-!
# After the main thread has exited

`exit_current_and_run_next` of a main thread takes the resources of every thread of the process, but leaves
the threads where they are.  One that is ready, sleeps or waits for a device is resumed later, without its
resources (`exited_process_resumed`).  When all the others wait on objects of the process, they can never be
woken, and no thread of the process runs again (`exited_process_never_runs`).
-/

namespace LemonCore.Kernel.Processes

open Foundation.QueueFamily

/-- The threads of the process `p` other than `t` that have not exited. -/
def others (s : State) (p : Proc) (t : Thread) : List Thread :=
  (List.range s.nextThread).filter fun t' =>
    match s.tcbs t' with
    | some tcb => tcb.process = p ∧ tcb.exitCode = none ∧ t' ≠ t
    | none => false

/-- A main thread exits only when all other threads of its process wait on objects of the process. -/
def ExitAlone (s : State) : Action → Prop
  | .call (.exit _) =>
    ∀ t ∈ s.current, ∀ tcb ∈ s.tcbs t, tcb.res = some 0 →
      ∀ t' ∈ others s tcb.process t, t' ∈ s.waiting tcb.process
  | _ => True

instance (s : State) : (action : Action) → Decidable (ExitAlone s action)
  | .call (.exit _) => inferInstanceAs (Decidable (∀ t ∈ s.current, ∀ tcb ∈ s.tcbs t, tcb.res = some 0 →
      ∀ t' ∈ others s tcb.process t, t' ∈ s.waiting tcb.process))
  | .call .yield => .isTrue trivial
  | .call .sleep => .isTrue trivial
  | .call .waitDevice => .isTrue trivial
  | .call .wait => .isTrue trivial
  | .call (.wake _) => .isTrue trivial
  | .call .fork => .isTrue trivial
  | .call (.waitpid _) => .isTrue trivial
  | .call .threadCreate => .isTrue trivial
  | .call (.waittid _) => .isTrue trivial
  | .dispatch => .isTrue trivial
  | .expire _ => .isTrue trivial
  | .deviceReady _ => .isTrue trivial

/-- The current thread is not one of an exited process, and has its resources. -/
def NeverResumed (hist : History) (s : State) : Prop :=
  ∀ t tcb, s.current = some t → s.tcbs t = some tcb → ¬ Exited hist tcb.process ∧ tcb.res ≠ none

/-! ### What holds along the runs -/

/-- The threads of an exited process that have not exited wait on its objects. -/
def Stuck (hist : History) (s : State) : Prop :=
  ∀ t tcb, s.tcbs t = some tcb → tcb.exitCode = none → Exited hist tcb.process →
    t ∈ s.waiting tcb.process

section

variable {hist events : History} {s s' : State} {t : Thread} {tcb : Tcb} {action : Action}

theorem mem_others {p : Proc} {t' : Thread} {tcb' : Tcb} (hs : Seated s) (htcb' : s.tcbs t' = some tcb')
    (hp : tcb'.process = p) (hcode : tcb'.exitCode = none) (hne : t' ≠ t) : t' ∈ others s p t := by
  have hlt : t' < s.nextThread := hs.tcb_lt htcb'
  simp [others, hlt, htcb', hp, hcode, hne]

namespace Stuck

/-- A process that has the hart has not exited: its current thread is in no queue. -/
theorem current (h : Stuck hist s) (hs : Seated s) (hcur : s.current = some t)
    (htcb : s.tcbs t = some tcb) : ¬ Exited hist tcb.process := by
  intro hexit
  obtain ⟨tcb', htcb', hcode⟩ := hs.current t hcur
  rw [htcb] at htcb'
  cases htcb'
  have hmem : t ∈ s.queue (.waiting tcb.process) := h t tcb htcb hcode hexit
  exact (hs.spread.of_mem hmem).2 hcur

/-- Steps that end no process: each thread of an exited process that is alive afterwards was there before,
and is left where it waits. -/
theorem of_same (h : Stuck hist s) (hno : ∀ p code, .processExited p code ∉ events)
    (htcbs : ∀ t tcb, s'.tcbs t = some tcb → tcb.exitCode = none → Exited hist tcb.process →
      s.tcbs t = some tcb)
    (hwait : ∀ p, Exited hist p → ∀ t ∈ s.waiting p, t ∈ s'.waiting p) : Stuck (hist ++ events) s' := by
  intro t tcb ht hcode hexit
  rw [exited_append hist hno] at hexit
  exact hwait _ hexit t (h t tcb (htcbs t tcb ht hcode hexit) hcode hexit)

theorem effect (h : Stuck hist s) (hs : Seated s) (hr : Recorded hist s) (hok : ExitAlone s action)
    (heffect : Effect s action s' events) : Stuck (hist ++ events) s' := by
  cases heffect with
  | dispatch hcur hready =>
    exact h.of_same (by simp) (fun t tcb ht _ _ => ht) (fun p _ t ht => ht)
  | @wakeup _ _ place t l r haction hq hq' hplace htables hcur =>
    refine h.of_same (by simp) (fun t tcb ht _ _ => htables.tcbs ▸ ht) fun p hexit t' ht' => ?_
    show t' ∈ s'.queue (.waiting p)
    rw [hq']
    by_cases hp : place = .waiting p
    · -- only a thread of the process wakes one that waits on its objects
      obtain ⟨caller, tcb, hcur, htcb, rfl⟩ := hplace p hp
      exact absurd hexit (h.current hs hcur htcb)
    · have hready : Place.waiting p ≠ .ready := by simp
      rw [push, Function.update_of_ne hready, Function.update_of_ne (Ne.symm hp)]
      exact ht'
  | @park _ _ t place haction hcur hq' htables hcur' =>
    refine h.of_same (by simp) (fun t tcb ht _ _ => htables.tcbs ▸ ht) fun p _ t' ht' => ?_
    show t' ∈ s'.queue (.waiting p)
    rw [hq', push, Function.update_apply]
    split
    · rename_i hp
      rw [← hp]
      exact List.mem_append_left [t] ht'
    · exact ht'
  | fork hcur htcb hpcb hone =>
    refine h.of_same (by simp) ?_ (fun p _ t ht => ht)
    intro t tcb ht _ hexit
    simp only [Function.update_apply] at ht
    split at ht
    · cases ht
      exact absurd (hr.known _ hexit) (Nat.lt_irrefl _)
    · exact ht
  | threadCreate hcur htcb hpcb =>
    have hlive := h.current hs hcur htcb
    refine h.of_same (by simp) ?_ (fun p _ t ht => ht)
    intro t tcb ht _ hexit
    simp only [Function.update_apply] at ht
    split at ht
    · cases ht
      exact absurd hexit hlive
    · exact ht
  | waittid hcur htcb hpcb hres houtcome =>
    exact h.of_same (by simp) (fun t tcb ht _ _ => ht) (fun p _ t ht => ht)
  | waittidExited hcur htcb hpcb hres hne hw hwtcb hcode =>
    exact h.of_same (by simp) (fun t tcb ht _ _ => ht) (fun p _ t ht => ht)
  | waitpid hcur htcb hpcb hresult =>
    exact h.of_same (by simp) (fun t tcb ht _ _ => ht) (fun p _ t ht => ht)
  | reap hcur htcb hpcb hchildren hchild hzombie hmatch halloc =>
    exact h.of_same (by simp) (fun t tcb ht _ _ => ht) (fun p _ t ht => ht)
  | threadExit hcur htcb hpcb hres htid halloc =>
    refine h.of_same (by simp) ?_ (fun p _ t ht => ht)
    intro t tcb ht hcode _
    simp only [Function.update_apply] at ht
    split at ht
    · cases ht
      cases hcode
    · exact ht
  | @processExit t₀ tcb₀ pcb code a hcur htcb hpcb hres hpid =>
    intro t tcb ht hcode hexit
    obtain ⟨hne, tcb₁, htcb₁, hproc, hcode₁, _⟩ := alive_before_exit ht hcode
    rw [exited_append_processExited hist (.threadExited tcb₀.process 0 t₀ code) (by simp)] at hexit
    show t ∈ s.waiting tcb.process
    cases hexit with
    | inl hp =>
      rw [hp]
      exact hok t₀ hcur tcb₀ htcb hres t (mem_others hs htcb₁ (hproc.trans hp) hcode₁ hne)
    | inr hexit =>
      rw [← hproc] at hexit ⊢
      exact h t tcb₁ htcb₁ hcode₁ hexit

end Stuck

theorem Run.stuck (h : Run ExitAlone hist s) : Stuck hist s :=
  h.invariant (fun _ _ _ _ hexit => absurd hexit (not_exited_start _))
    fun hrun hs hok _ heffect => hs.effect hrun.seated hrun.recorded hok heffect

end

/-- **An exited process does not run again.**  When main threads exit only while the other threads of
their process wait on objects of the process, no thread of an exited process is ever made current, and no
thread without its resources is. -/
theorem exited_process_never_runs {hist : History} {s : State} (h : Run ExitAlone hist s) :
    NeverResumed hist s := by
  intro t tcb hcur htcb
  have hlive := h.stuck.current h.seated hcur htcb
  exact ⟨hlive, h.recorded.res_ne_none h.seated hcur htcb hlive⟩

/-- A child process creates a thread, which waits on a mutex; then its main thread exits and the daemon
collects it. -/
theorem exited_process_never_runs_blockedThread : ∃ hist s, Run ExitAlone hist s ∧
    (.reaped 0 1 1 7 ∈ hist ∧ 2 ∈ s.waiting 1 ∧ s.current = some 0) ∧ NeverResumed hist s := by
  obtain ⟨hist, s, hrun, hP⟩ := exists_run ExitAlone
    (fun hist s => .reaped 0 1 1 7 ∈ hist ∧ 2 ∈ s.waiting 1 ∧ s.current = some 0)
    [.dispatch, .call .fork, .call .yield, .dispatch, .call .threadCreate, .call .yield, .dispatch,
      .call .yield, .dispatch, .call .wait, .dispatch, .call (.exit 7), .dispatch,
      .call (.waitpid (-1))] (by decide)
  exact ⟨hist, s, hrun, hP, exited_process_never_runs hrun⟩

/-- The main thread exits while the other thread is ready: that thread is made current next, without its
resources. -/
theorem exited_process_resumed : ∃ hist s, Run (fun _ _ => True) hist s ∧ ¬ NeverResumed hist s := by
  obtain ⟨hist, s, hrun, hcur, hres, hexit⟩ := exists_run (fun _ _ => True)
    (fun hist s => s.current = some 2 ∧ s.tcbs 2 = some ⟨1, none, none⟩ ∧ .processExited 1 7 ∈ hist)
    [.dispatch, .call .fork, .call .yield, .dispatch, .call .threadCreate, .call (.exit 7), .dispatch,
      .call .yield, .dispatch] (by decide)
  refine ⟨hist, s, hrun, fun hnever => ?_⟩
  exact (hnever 2 _ hcur hres).1 ⟨7, hexit⟩

end LemonCore.Kernel.Processes
