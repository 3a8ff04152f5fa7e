import LemonCore.Kernel.ProcessSteps

/-!
# Where threads are, and the two tables

Invariants of every run of the process machine.

* `Seated`: a thread that has not exited is in exactly one queue, unless it is current;
* `Filed`: the task table of a process lists threads of that process, and numbers of control blocks are
  given out once;
* `Recorded`: the zombies are the processes whose main thread has exited, and a thread without its
  resources has exited or is one of such a process.
-/

namespace LemonCore.Kernel.Processes

open Foundation.QueueFamily

/-! ### Every thread that has not exited is in one place -/

/-- The thread was created and has not exited. -/
def Alive (s : State) (t : Thread) : Prop := ∃ tcb, s.tcbs t = some tcb ∧ tcb.exitCode = none

structure Seated (s : State) : Prop where
  spread : Spread s.queue fun t => Alive s t ∧ s.current ≠ some t
  current : ∀ t, s.current = some t → Alive s t
  fresh : ∀ t, s.nextThread ≤ t → s.tcbs t = none

section

variable {s s' : State} {events : List Event} {ok : State → Action → Prop} {hist : History}

theorem Seated.tcb_lt (hs : Seated s) {t : Thread} {tcb : Tcb} (h : s.tcbs t = some tcb) :
    t < s.nextThread := by
  by_contra hge
  rw [hs.fresh t (Nat.le_of_not_lt hge)] at h
  cases h

theorem alive_of_tcbs (h : s'.tcbs = s.tcbs) (t : Thread) : Alive s' t ↔ Alive s t := by
  rw [Alive, Alive, h]

theorem alive_new {s s' : State} {tcb : Tcb} (h : s'.tcbs = Function.update s.tcbs s.nextThread (some tcb))
    (hcode : tcb.exitCode = none) (t : Thread) : Alive s' t ↔ Alive s t ∨ t = s.nextThread := by
  rw [Alive, Alive, h]
  by_cases ht : t = s.nextThread
  · simp [ht, hcode]
  · simp [ht]

/-- A new thread starts in the ready queue. -/
theorem Seated.created (hs : Seated s) {tcb : Tcb}
    (htcbs : s'.tcbs = Function.update s.tcbs s.nextThread (some tcb)) (hcode : tcb.exitCode = none)
    (hq : s'.queue = push s.queue .ready s.nextThread) (hcur : s'.current = s.current)
    (hnext : s'.nextThread = s.nextThread + 1) : Seated s' := by
  have hnew : ¬ Alive s s.nextThread := by
    rintro ⟨tcb', htcb', _⟩
    rw [hs.fresh _ (le_refl _)] at htcb'
    cases htcb'
  refine ⟨?_, ?_, ?_⟩
  · rw [hq, hcur]
    refine (hs.spread.push .ready (a := s.nextThread) (fun hx => hnew hx.1)).congr fun t => ?_
    rw [alive_new htcbs hcode]
    by_cases ht : t = s.nextThread
    · subst ht
      refine ⟨fun _ => Or.inr rfl, fun _ => ⟨Or.inr rfl, fun hc => hnew (hs.current _ hc)⟩⟩
    · simp [ht]
  · intro t ht
    rw [hcur] at ht
    exact (alive_new htcbs hcode t).mpr (Or.inl (hs.current t ht))
  · intro t ht
    rw [hnext] at ht
    have hne : t ≠ s.nextThread := Nat.ne_of_gt ht
    rw [htcbs, Function.update_of_ne hne]
    exact hs.fresh t (Nat.le_of_lt ht)

/-- The current thread exits. -/
theorem Seated.exited (hs : Seated s) {t : Thread} (hcur : s.current = some t)
    (halive : ∀ t', Alive s' t' ↔ Alive s t' ∧ t' ≠ t) (hq : s'.queue = s.queue)
    (hcur' : s'.current = none) (hfresh : ∀ t', s'.nextThread ≤ t' → s'.tcbs t' = none) : Seated s' := by
  refine ⟨?_, ?_, hfresh⟩
  · rw [hq, hcur']
    refine hs.spread.congr fun t' => ?_
    rw [halive, hcur]
    simp [eq_comm]
  · intro t' ht'
    rw [hcur'] at ht'
    cases ht'

theorem alive_stripped {tcbs : Thread → Option Tcb} {tasks : List (Option Thread)} (t : Thread)
    (h : s'.tcbs = stripped tcbs tasks) :
    Alive s' t ↔ ∃ tcb, tcbs t = some tcb ∧ tcb.exitCode = none := by
  rw [Alive, h, stripped]
  split
  · cases tcbs t <;> simp
  · rfl

theorem Seated.effect {action : Action} (hs : Seated s) (h : Effect s action s' events) : Seated s' := by
  cases h with
  | @dispatch t readyQueue hcur hready =>
    have hq : s.queue .ready = [] ++ t :: readyQueue := hready
    have hq' : ({ s with current := some t, readyQueue := readyQueue } : State).queue =
        Function.update s.queue .ready ([] ++ readyQueue) := by
      funext place
      cases place <;> rfl
    refine ⟨?_, ?_, hs.fresh⟩
    · rw [hq']
      refine (hs.spread.remove hq).congr fun t' => ?_
      rw [hcur]
      show Alive s t' ∧ some t ≠ some t' ↔ (Alive s t' ∧ none ≠ some t') ∧ t' ≠ t
      simp [eq_comm]
    · intro t' ht'
      cases ht'
      exact (hs.spread.of_mem (p := .ready) (by rw [hq]; simp)).1
  | @wakeup _ _ place t l r haction hq hq' _ htables hcur =>
    refine ⟨?_, ?_, by rw [htables.tcbs, htables.nextThread]; exact hs.fresh⟩
    · rw [hq', hcur]
      exact (hs.spread.move hq).congr fun t' => by rw [alive_of_tcbs htables.tcbs]
    · intro t' ht'
      rw [hcur] at ht'
      exact (alive_of_tcbs htables.tcbs t').mpr (hs.current t' ht')
  | @park _ _ t place haction hcur hq' htables hcur' =>
    refine ⟨?_, ?_, by rw [htables.tcbs, htables.nextThread]; exact hs.fresh⟩
    · rw [hq', hcur']
      refine (hs.spread.push place (a := t) (fun hx => hx.2 hcur)).congr fun t' => ?_
      rw [alive_of_tcbs htables.tcbs, hcur]
      by_cases ht : t' = t
      · simp [ht, hs.current t hcur]
      · simp [ht, Ne.symm ht]
    · intro t' ht'
      rw [hcur'] at ht'
      cases ht'
  | fork hcur htcb hpcb hone =>
    refine hs.created rfl rfl ?_ rfl rfl
    funext place
    cases place <;> rfl
  | threadCreate hcur htcb hpcb =>
    refine hs.created rfl rfl ?_ rfl rfl
    funext place
    cases place <;> rfl
  | waittid hcur htcb hpcb hres houtcome => exact hs
  | waittidExited hcur htcb hpcb hres hne hw hwtcb hcode => exact ⟨hs.spread, hs.current, hs.fresh⟩
  | waitpid hcur htcb hpcb hresult => exact hs
  | reap hcur htcb hpcb hchildren hchild hzombie hmatch halloc =>
    exact ⟨hs.spread, hs.current, hs.fresh⟩
  | @threadExit t tcb pcb tid code a hcur htcb hpcb hres htid halloc =>
    have hlt : ∀ t', s.nextThread ≤ t' → t' ≠ t := by
      intro t' ht' heq
      rw [← heq, hs.fresh t' ht'] at htcb
      cases htcb
    refine hs.exited hcur ?_ rfl rfl ?_
    · intro t'
      by_cases ht : t' = t
      · simp [Alive, ht]
      · simp [Alive, ht]
    · intro t' ht'
      show Function.update s.tcbs t _ t' = none
      rw [Function.update_of_ne (hlt t' ht')]
      exact hs.fresh t' ht'
  | @processExit t tcb pcb code a hcur htcb hpcb hres hpid =>
    have hlt : ∀ t', s.nextThread ≤ t' → t' ≠ t := by
      intro t' ht' heq
      rw [← heq, hs.fresh t' ht'] at htcb
      cases htcb
    refine hs.exited hcur ?_ rfl rfl ?_
    · intro t'
      rw [alive_stripped t' rfl]
      by_cases ht : t' = t
      · simp [ht]
      · simp [Alive, ht]
    · intro t' ht'
      show stripped (Function.update s.tcbs t _) pcb.tasks t' = none
      simp [stripped, Function.update_of_ne (hlt t' ht'), hs.fresh t' ht']

theorem seated_boot : Seated boot := by
  have halive : ∀ t, Alive boot t ↔ t ∈ [0] := by
    intro t
    by_cases ht : t = 0
    · simp [Alive, boot, ht]
    · simp [Alive, boot, ht]
  refine ⟨?_, ?_, ?_⟩
  · refine (spread_single (List.nodup_singleton 0) Place.ready rfl ?_).congr fun t => ?_
    · intro q hq
      cases q with
      | ready => exact absurd rfl hq
      | _ => rfl
    · rw [halive]
      simp [boot]
  · intro t ht
    cases ht
  · intro t ht
    have hne : t ≠ 0 := by
      intro h0
      subst h0
      exact absurd ht (by decide)
    simp [boot, hne]

/-- An invariant that holds at the start and is kept by each effect holds along every run. -/
theorem Run.invariant {I : History → State → Prop} (h : Run ok hist s)
    (hstart : I [.threadCreated daemon 0 0] boot)
    (hstep : ∀ {hist events : History} {s s' : State} {action : Action}, Run ok hist s → I hist s →
      ok s action → Processes.step s action = some (s', events) → Effect s action s' events →
        I (hist ++ events) s') :
    I hist s := by
  induction h with
  | start => exact hstart
  | step hrun hok hs ih => exact hstep hrun ih hok hs (step_effect hs)

theorem Run.seated (h : Run ok hist s) : Seated s :=
  h.invariant (I := fun _ s => Seated s) seated_boot fun _ hs _ _ heffect => hs.effect heffect

/-! ### The two tables agree -/

structure Filed (s : State) : Prop where
  /-- the task table of a process lists threads of that process -/
  tasks : ∀ p pcb t, s.pcbs p = some pcb → some t ∈ pcb.tasks →
    ∃ tcb, s.tcbs t = some tcb ∧ tcb.process = p
  process_lt : ∀ t tcb, s.tcbs t = some tcb → tcb.process < s.nextProc
  fresh : ∀ p, s.nextProc ≤ p → s.pcbs p = none

theorem Filed.pcb_lt (hs : Filed s) {p : Proc} {pcb : Pcb} (h : s.pcbs p = some pcb) :
    p < s.nextProc := by
  by_contra hge
  rw [hs.fresh p (Nat.le_of_not_lt hge)] at h
  cases h

theorem update_exited {t₀ t : Thread} {tcb₀ tcb : Tcb} (h₀ : s.tcbs t₀ = some tcb₀)
    (ht : s.tcbs t = some tcb) (code : ℤ) :
    ∃ tcb', Function.update s.tcbs t₀ (some ⟨tcb₀.process, none, some code⟩) t = some tcb' ∧
      tcb'.process = tcb.process := by
  by_cases heq : t = t₀
  · rw [heq, h₀] at ht
    cases ht
    exact ⟨⟨tcb₀.process, none, some code⟩, by rw [heq]; exact Function.update_self t₀ _ _, rfl⟩
  · exact ⟨tcb, (Function.update_of_ne heq _ _).trans ht, rfl⟩

/-- Along a step a thread keeps its process. -/
theorem Effect.process {action : Action} (hs : Seated s) (h : Effect s action s' events) {t : Thread}
    {tcb : Tcb} (ht : s.tcbs t = some tcb) :
    ∃ tcb', s'.tcbs t = some tcb' ∧ tcb'.process = tcb.process := by
  have hne : t ≠ s.nextThread := by
    intro heq
    rw [heq, hs.fresh _ (le_refl _)] at ht
    cases ht
  cases h with
  | dispatch hcur hready => exact ⟨tcb, ht, rfl⟩
  | wakeup haction hq hq' hplace htables hcur => exact ⟨tcb, by rw [htables.tcbs, ht], rfl⟩
  | park place haction hcur hq' htables hcur' => exact ⟨tcb, by rw [htables.tcbs, ht], rfl⟩
  | fork hcur htcb hpcb hone => exact ⟨tcb, (Function.update_of_ne hne _ _).trans ht, rfl⟩
  | threadCreate hcur htcb hpcb => exact ⟨tcb, (Function.update_of_ne hne _ _).trans ht, rfl⟩
  | waittid hcur htcb hpcb hres houtcome => exact ⟨tcb, ht, rfl⟩
  | waittidExited hcur htcb hpcb hres hne hw hwtcb hcode => exact ⟨tcb, ht, rfl⟩
  | waitpid hcur htcb hpcb hresult => exact ⟨tcb, ht, rfl⟩
  | reap hcur htcb hpcb hchildren hchild hzombie hmatch halloc => exact ⟨tcb, ht, rfl⟩
  | @threadExit t₀ tcb₀ pcb tid code a hcur htcb hpcb hres htid halloc =>
    exact update_exited htcb ht code
  | @processExit t₀ tcb₀ pcb code a hcur htcb hpcb hres hpid =>
    obtain ⟨tcb', htcb', hproc⟩ := update_exited htcb ht code
    obtain ⟨tcb'', htcb'', hproc', _⟩ := stripped_of_some htcb' pcb.tasks
    exact ⟨tcb'', htcb'', hproc'.trans hproc⟩

theorem mem_resize {tasks : List (Option Thread)} {n : ℕ} {t : Thread}
    (h : some t ∈ resize tasks n) : some t ∈ tasks := by
  rw [resize, List.mem_append] at h
  cases h with
  | inl h => exact List.mem_of_mem_take h
  | inr h => simp [List.mem_replicate] at h

theorem Filed.of_tables (hs : Filed s)
    (hkeep : ∀ t tcb, s.tcbs t = some tcb → ∃ tcb', s'.tcbs t = some tcb' ∧ tcb'.process = tcb.process)
    (hnext : s.nextProc ≤ s'.nextProc)
    (htcbs : ∀ t tcb, s'.tcbs t = some tcb →
      (∃ tcb₀, s.tcbs t = some tcb₀ ∧ tcb.process = tcb₀.process) ∨ tcb.process < s'.nextProc)
    (hpcbs : ∀ p pcb, s'.pcbs p = some pcb →
      ((s.pcbs p).isSome ∨ p < s'.nextProc) ∧ ∀ t, some t ∈ pcb.tasks →
        (∃ pcb₀, s.pcbs p = some pcb₀ ∧ some t ∈ pcb₀.tasks) ∨
        ∃ tcb, s'.tcbs t = some tcb ∧ tcb.process = p) : Filed s' := by
  refine ⟨?_, ?_, ?_⟩
  · intro p pcb t hpcb ht
    cases (hpcbs p pcb hpcb).2 t ht with
    | inl hold =>
      obtain ⟨pcb₀, hpcb₀, ht₀⟩ := hold
      obtain ⟨tcb, htcb, hp⟩ := hs.tasks p pcb₀ t hpcb₀ ht₀
      obtain ⟨tcb', htcb', hp'⟩ := hkeep t tcb htcb
      exact ⟨tcb', htcb', hp'.trans hp⟩
    | inr hnew => exact hnew
  · intro t tcb ht
    cases htcbs t tcb ht with
    | inl hold =>
      obtain ⟨tcb₀, htcb₀, hp⟩ := hold
      rw [hp]
      exact Nat.lt_of_lt_of_le (hs.process_lt t tcb₀ htcb₀) hnext
    | inr hlt => exact hlt
  · intro p hp
    cases hpcb : s'.pcbs p with
    | none => rfl
    | some pcb =>
      cases (hpcbs p pcb hpcb).1 with
      | inl hold =>
        rw [hs.fresh p (Nat.le_trans hnext hp)] at hold
        cases hold
      | inr hlt => exact absurd hlt (Nat.not_lt.mpr hp)

theorem Filed.effect {action : Action} (hseat : Seated s) (hs : Filed s)
    (h : Effect s action s' events) : Filed s' := by
  have hkeep := fun t tcb (ht : s.tcbs t = some tcb) => Effect.process hseat h ht
  cases h with
  | dispatch hcur hready => exact ⟨hs.tasks, hs.process_lt, hs.fresh⟩
  | wakeup haction hq hq' hplace htables hcur =>
    exact ⟨by rw [htables.pcbs, htables.tcbs]; exact hs.tasks,
      by rw [htables.tcbs, htables.nextProc]; exact hs.process_lt,
      by rw [htables.pcbs, htables.nextProc]; exact hs.fresh⟩
  | park place haction hcur hq' htables hcur' =>
    exact ⟨by rw [htables.pcbs, htables.tcbs]; exact hs.tasks,
      by rw [htables.tcbs, htables.nextProc]; exact hs.process_lt,
      by rw [htables.pcbs, htables.nextProc]; exact hs.fresh⟩
  | @fork t₀ tcb₀ pcb₀ hcur htcb hpcb hone =>
    refine hs.of_tables hkeep (Nat.le_succ _) ?_ ?_
    · intro t tcb ht
      simp only [Function.update_apply] at ht
      split at ht
      · cases ht
        exact Or.inr (Nat.lt_succ_self _)
      · exact Or.inl ⟨tcb, ht, rfl⟩
    · intro p pcb hp
      simp only [Function.update_apply] at hp
      split at hp
      · rename_i hpnew
        cases hp
        refine ⟨Or.inr (by rw [hpnew]; exact Nat.lt_succ_self _), ?_⟩
        intro t ht
        obtain rfl : t = s.nextThread := by simpa using ht
        exact Or.inr ⟨_, Function.update_self _ _ _, hpnew.symm⟩
      · split at hp
        · rename_i hpar
          cases hp
          rw [hpar, hpcb]
          exact ⟨Or.inl rfl, fun t ht => Or.inl ⟨pcb₀, rfl, ht⟩⟩
        · rw [hp]
          exact ⟨Or.inl rfl, fun t ht => Or.inl ⟨pcb, rfl, ht⟩⟩
  | @threadCreate t₀ tcb₀ pcb₀ hcur htcb hpcb =>
    refine hs.of_tables hkeep (Nat.le_refl _) ?_ ?_
    · intro t tcb ht
      simp only [Function.update_apply] at ht
      split at ht
      · cases ht
        exact Or.inr (hs.process_lt t₀ tcb₀ htcb)
      · exact Or.inl ⟨tcb, ht, rfl⟩
    · intro p pcb hp
      simp only [Function.update_apply] at hp
      split at hp
      · rename_i hpar
        cases hp
        rw [hpar, hpcb]
        refine ⟨Or.inl rfl, fun t ht => ?_⟩
        cases List.mem_or_eq_of_mem_set ht with
        | inl hold => exact Or.inl ⟨pcb₀, rfl, mem_resize hold⟩
        | inr hnew =>
          cases hnew
          exact Or.inr ⟨_, Function.update_self _ _ _, rfl⟩
      · rw [hp]
        exact ⟨Or.inl rfl, fun t ht => Or.inl ⟨pcb, rfl, ht⟩⟩
  | waittid hcur htcb hpcb hres houtcome => exact hs
  | @waittidExited t₀ w tcb₀ wtcb pcb₀ tid own code hcur htcb hpcb hres hne hw hwtcb hcode =>
    refine hs.of_tables hkeep (Nat.le_refl _) (fun t tcb ht => Or.inl ⟨tcb, ht, rfl⟩) ?_
    intro p pcb hp
    simp only [Function.update_apply] at hp
    split at hp
    · rename_i hpar
      cases hp
      rw [hpar, hpcb]
      refine ⟨Or.inl rfl, fun t ht => Or.inl ⟨pcb₀, rfl, ?_⟩⟩
      cases List.mem_or_eq_of_mem_set ht with
      | inl hold => exact hold
      | inr hnew => cases hnew
    · rw [hp]
      exact ⟨Or.inl rfl, fun t ht => Or.inl ⟨pcb, rfl, ht⟩⟩
  | waitpid hcur htcb hpcb hresult => exact hs
  | @reap t₀ tcb₀ pcb₀ childPcb pid child l r a hcur htcb hpcb hchildren hchild hzombie hmatch halloc =>
    refine hs.of_tables hkeep (Nat.le_refl _) (fun t tcb ht => Or.inl ⟨tcb, ht, rfl⟩) ?_
    intro p pcb hp
    simp only [Function.update_apply] at hp
    split at hp
    · cases hp
    · split at hp
      · rename_i hpar
        cases hp
        rw [hpar, hpcb]
        exact ⟨Or.inl rfl, fun t ht => Or.inl ⟨pcb₀, rfl, ht⟩⟩
      · rw [hp]
        exact ⟨Or.inl rfl, fun t ht => Or.inl ⟨pcb, rfl, ht⟩⟩
  | @threadExit t₀ tcb₀ pcb₀ tid code a hcur htcb hpcb hres htid halloc =>
    refine hs.of_tables hkeep (Nat.le_refl _) ?_ ?_
    · intro t tcb ht
      simp only [Function.update_apply] at ht
      split at ht
      · cases ht
        exact Or.inr (hs.process_lt t₀ tcb₀ htcb)
      · exact Or.inl ⟨tcb, ht, rfl⟩
    · intro p pcb hp
      simp only [Function.update_apply] at hp
      split at hp
      · rename_i hpar
        cases hp
        rw [hpar, hpcb]
        exact ⟨Or.inl rfl, fun t ht => Or.inl ⟨pcb₀, rfl, ht⟩⟩
      · rw [hp]
        exact ⟨Or.inl rfl, fun t ht => Or.inl ⟨pcb, rfl, ht⟩⟩
  | @processExit t₀ tcb₀ pcb₀ code a hcur htcb hpcb hres hpid =>
    refine hs.of_tables hkeep (Nat.le_refl _) ?_ ?_
    · intro t tcb ht
      obtain ⟨tcb₁, htcb₁, hproc, _⟩ := stripped_some ht
      rw [hproc]
      simp only [Function.update_apply] at htcb₁
      split at htcb₁
      · cases htcb₁
        exact Or.inr (hs.process_lt t₀ tcb₀ htcb)
      · exact Or.inl ⟨tcb₁, htcb₁, rfl⟩
    · intro p pcb hp
      simp only [Function.update_apply] at hp
      split at hp
      · rename_i hpar
        cases hp
        rw [hpar, hpcb]
        exact ⟨Or.inl rfl, fun t ht => Or.inl ⟨pcb₀, rfl, List.mem_of_mem_take ht⟩⟩
      · obtain ⟨pcb₁, hpcb₁, rfl⟩ := adopted_some hp
        rw [hpcb₁]
        exact ⟨Or.inl rfl, fun t ht => Or.inl ⟨pcb₁, rfl, ht⟩⟩

theorem filed_boot : Filed boot := by
  refine ⟨?_, ?_, ?_⟩
  · intro p pcb t hp ht
    simp only [boot, Function.update_apply] at hp
    split at hp
    · rename_i hp0
      cases hp
      obtain rfl : t = 0 := by simpa using ht
      exact ⟨⟨daemon, some 0, none⟩, rfl, hp0.symm⟩
    · cases hp
  · intro t tcb ht
    simp only [boot, Function.update_apply] at ht
    split at ht
    · cases ht
      decide
    · cases ht
  · intro p hp
    have hne : p ≠ daemon := Nat.ne_of_gt hp
    simp [boot, hne]

theorem Run.filed (h : Run ok hist s) : Filed s :=
  h.invariant (I := fun _ s => Filed s) filed_boot fun hrun hs _ _ heffect => hs.effect hrun.seated heffect

/-! ### What the history says about exits -/

/-- The main thread of the process has exited. -/
def Exited (hist : History) (p : Proc) : Prop := ∃ code, .processExited p code ∈ hist

structure Recorded (hist : History) (s : State) : Prop where
  taken : ∀ t tcb, s.tcbs t = some tcb → tcb.exitCode = none → tcb.res = none →
    Exited hist tcb.process
  known : ∀ p, Exited hist p → p < s.nextProc
  live : ∀ p, p < s.nextProc → ¬ Exited hist p → (s.pcbs p).map Pcb.isZombie = some false
  zombie : ∀ p, Exited hist p → (s.pcbs p).map Pcb.isZombie ≠ some false

theorem Exited.append {p : Proc} (h : Exited hist p) (events : History) : Exited (hist ++ events) p := by
  obtain ⟨code, hcode⟩ := h
  exact ⟨code, List.mem_append_left events hcode⟩

theorem exited_append (hist : History) (hno : ∀ p code, .processExited p code ∉ events) (p : Proc) :
    Exited (hist ++ events) p ↔ Exited hist p := by
  simp [Exited, hno]

theorem exited_append_processExited (hist : History) (e : Event) (he : ∀ p code, e ≠ .processExited p code)
    (q : Proc) (code : ℤ) (p : Proc) :
    Exited (hist ++ [e, .processExited q code]) p ↔ p = q ∨ Exited hist p := by
  constructor
  · rintro ⟨code', hp⟩
    simp only [List.mem_append, List.mem_cons, Event.processExited.injEq, List.not_mem_nil, or_false] at hp
    rcases hp with hp | hp | hp
    · exact Or.inr ⟨code', hp⟩
    · exact absurd hp.symm (he p code')
    · exact Or.inl hp.1
  · intro hp
    cases hp with
    | inl hp => exact ⟨code, by simp [hp]⟩
    | inr hp => exact hp.append _

theorem alive_before_exit {t t₀ : Thread} {tcb tcb' : Tcb} {code : ℤ} {tasks : List (Option Thread)}
    (ht : stripped (Function.update s.tcbs t₀ (some ⟨tcb.process, none, some code⟩)) tasks t = some tcb')
    (hcode : tcb'.exitCode = none) : t ≠ t₀ ∧ ∃ tcb₁, s.tcbs t = some tcb₁ ∧
      tcb₁.process = tcb'.process ∧ tcb₁.exitCode = none ∧ (some t ∉ tasks → tcb₁.res = tcb'.res) := by
  obtain ⟨tcb₁, htcb₁, hproc, hcode₁, hres₁⟩ := stripped_some ht
  rw [hcode] at hcode₁
  rw [Function.update_apply] at htcb₁
  split at htcb₁
  · cases htcb₁
    cases hcode₁
  · rename_i hne
    exact ⟨hne, tcb₁, htcb₁, hproc.symm, hcode₁.symm, fun hmem => (hres₁ hmem).symm⟩

namespace Recorded

theorem of_same (h : Recorded hist s) (hno : ∀ p code, .processExited p code ∉ events)
    (htcbs : ∀ t tcb, s'.tcbs t = some tcb → tcb.exitCode = none → tcb.res = none →
      s.tcbs t = some tcb)
    (hnext : s'.nextProc = s.nextProc)
    (hpcbs : ∀ p, (s'.pcbs p).map Pcb.isZombie = (s.pcbs p).map Pcb.isZombie) :
    Recorded (hist ++ events) s' := by
  have hsame := exited_append hist hno
  refine ⟨?_, ?_, ?_, ?_⟩
  · intro t tcb ht hcode hnone
    rw [hsame]
    exact h.taken t tcb (htcbs t tcb ht hcode hnone) hcode hnone
  · intro p hp
    rw [hsame] at hp
    rw [hnext]
    exact h.known p hp
  · intro p hp hlive
    rw [hsame] at hlive
    rw [hnext] at hp
    rw [hpcbs]
    exact h.live p hp hlive
  · intro p hp
    rw [hsame] at hp
    rw [hpcbs]
    exact h.zombie p hp

theorem res_ne_none (h : Recorded hist s) (hs : Seated s) {t : Thread} {tcb : Tcb}
    (hcur : s.current = some t) (htcb : s.tcbs t = some tcb) (hlive : ¬ Exited hist tcb.process) :
    tcb.res ≠ none := by
  intro hnone
  obtain ⟨tcb', htcb', hcode⟩ := hs.current t hcur
  rw [htcb] at htcb'
  cases htcb'
  exact hlive (h.taken t tcb htcb hcode hnone)

theorem effect {action : Action} (h : Recorded hist s) (hf : Filed s)
    (heffect : Effect s action s' events) : Recorded (hist ++ events) s' := by
  cases heffect with
  | dispatch hcur hready => exact h.of_same (by simp) (fun t tcb ht _ _ => ht) rfl (fun p => rfl)
  | wakeup haction hq hq' hplace htables hcur =>
    refine h.of_same (by simp) ?_ htables.nextProc (by rw [htables.pcbs]; exact fun p => rfl)
    rw [htables.tcbs]
    exact fun t tcb ht _ _ => ht
  | park place haction hcur hq' htables hcur' =>
    refine h.of_same (by simp) ?_ htables.nextProc (by rw [htables.pcbs]; exact fun p => rfl)
    rw [htables.tcbs]
    exact fun t tcb ht _ _ => ht
  | @fork t₀ tcb₀ pcb₀ hcur htcb hpcb hone =>
    have hsame : ∀ p, Exited (hist ++ [.forked tcb₀.process s.nextProc s.pidAllocator.alloc.1,
        .threadCreated s.nextProc 0 s.nextThread]) p ↔ Exited hist p := exited_append hist (by simp)
    have hold : ∀ p, p ≠ s.nextProc → (Function.update (Function.update s.pcbs tcb₀.process
        (some { pcb₀ with children := pcb₀.children ++ [s.nextProc] })) s.nextProc
        (some ⟨s.pidAllocator.alloc.1, false, 0, some tcb₀.process, [], [some s.nextThread],
          RecycleAllocator.new.alloc.2⟩) p).map Pcb.isZombie = (s.pcbs p).map Pcb.isZombie := by
      intro p hp
      rw [Function.update_of_ne hp]
      exact map_update (f := Pcb.isZombie) hpcb (by rfl) p
    refine ⟨?_, ?_, ?_, ?_⟩
    · intro t tcb ht hcode hnone
      rw [hsame]
      simp only [Function.update_apply] at ht
      split at ht
      · cases ht
        cases hnone
      · exact h.taken t tcb ht hcode hnone
    · intro p hp
      rw [hsame] at hp
      exact Nat.lt_succ_of_lt (h.known p hp)
    · intro p hp hlive
      rw [hsame] at hlive
      by_cases hnew : p = s.nextProc
      · simp [hnew]
      · exact (hold p hnew).trans (h.live p (Nat.lt_of_le_of_ne (Nat.le_of_lt_succ hp) hnew) hlive)
    · intro p hp
      rw [hsame] at hp
      have hne : p ≠ s.nextProc := Nat.ne_of_lt (h.known p hp)
      exact fun hz => h.zombie p hp ((hold p hne).symm.trans hz)
  | @threadCreate t₀ tcb₀ pcb₀ hcur htcb hpcb =>
    refine h.of_same (by simp) ?_ rfl (fun p => map_update (f := Pcb.isZombie) hpcb (by rfl) p)
    intro t tcb ht _ hnone
    simp only [Function.update_apply] at ht
    split at ht
    · cases ht
      cases hnone
    · exact ht
  | waittid hcur htcb hpcb hres houtcome =>
    exact h.of_same (by simp) (fun t tcb ht _ _ => ht) rfl (fun p => rfl)
  | waittidExited hcur htcb hpcb hres hne hw hwtcb hcode =>
    exact h.of_same (by simp) (fun t tcb ht _ _ => ht) rfl
      (fun p => map_update (f := Pcb.isZombie) hpcb (by rfl) p)
  | waitpid hcur htcb hpcb hresult =>
    exact h.of_same (by simp) (fun t tcb ht _ _ => ht) rfl (fun p => rfl)
  | @reap t₀ tcb₀ pcb₀ childPcb pid child l r a hcur htcb hpcb hchildren hchild hzombie hmatch halloc =>
    have hsame : ∀ p, Exited (hist ++ [.waitpidReturned tcb₀.process pid childPcb.pid,
        .reaped tcb₀.process child childPcb.pid childPcb.exitCode]) p ↔ Exited hist p :=
      exited_append hist (by simp)
    have hold : ∀ p, p ≠ child → (Function.update (Function.update s.pcbs tcb₀.process
        (some { pcb₀ with children := l ++ r })) child none p).map Pcb.isZombie =
          (s.pcbs p).map Pcb.isZombie := by
      intro p hp
      rw [Function.update_of_ne hp]
      exact map_update (f := Pcb.isZombie) hpcb (by rfl) p
    refine ⟨?_, ?_, ?_, ?_⟩
    · intro t tcb ht hcode hnone
      rw [hsame]
      exact h.taken t tcb ht hcode hnone
    · intro p hp
      rw [hsame] at hp
      exact h.known p hp
    · intro p hp hlive
      rw [hsame] at hlive
      have hz := h.live p hp hlive
      have hne : p ≠ child := by
        intro heq
        rw [heq, hchild, Option.map_some, hzombie] at hz
        cases hz
      exact (hold p hne).trans hz
    · intro p hp
      rw [hsame] at hp
      by_cases hc : p = child
      · simp [hc]
      · exact fun hz => h.zombie p hp ((hold p hc).symm.trans hz)
  | @threadExit t₀ tcb₀ pcb₀ tid code a hcur htcb hpcb hres htid halloc =>
    refine h.of_same (by simp) ?_ rfl (fun p => map_update (f := Pcb.isZombie) hpcb (by rfl) p)
    intro t tcb ht hcode _
    simp only [Function.update_apply] at ht
    split at ht
    · cases ht
      cases hcode
    · exact ht
  | @processExit t₀ tcb₀ pcb₀ code a hcur htcb hpcb hres hpid =>
    have hexit := exited_append_processExited hist (.threadExited tcb₀.process 0 t₀ code)
      (by simp) tcb₀.process code
    have hold : ∀ p, p ≠ tcb₀.process → (Function.update (adopted s.pcbs pcb₀.children) tcb₀.process
        (some (pcb₀.exited tcb₀.process code a)) p).map Pcb.isZombie =
          (s.pcbs p).map Pcb.isZombie := by
      intro p hp
      rw [Function.update_of_ne hp]
      exact map_adopted (f := Pcb.isZombie) (fun _ _ _ => rfl) s.pcbs pcb₀.children p
    refine ⟨?_, ?_, ?_, ?_⟩
    · intro t tcb ht hcode hnone
      rw [hexit]
      obtain ⟨_, tcb₁, htcb₁, hproc, hcode₁, hres₁⟩ := alive_before_exit ht hcode
      rw [← hproc]
      by_cases hmem : some t ∈ pcb₀.tasks
      · obtain ⟨tcb₂, htcb₂, hp⟩ := hf.tasks _ pcb₀ t hpcb hmem
        rw [htcb₁] at htcb₂
        cases htcb₂
        exact Or.inl hp
      · exact Or.inr (h.taken t tcb₁ htcb₁ hcode₁ ((hres₁ hmem).trans hnone))
    · intro p hp
      rw [hexit] at hp
      cases hp with
      | inl hp =>
        rw [hp]
        exact hf.process_lt t₀ tcb₀ htcb
      | inr hp => exact h.known p hp
    · intro p hp hlive
      rw [hexit, not_or] at hlive
      exact (hold p hlive.1).trans (h.live p hp hlive.2)
    · intro p hp
      rw [hexit] at hp
      by_cases hq : p = tcb₀.process
      · simp [hq, Pcb.exited]
      · exact fun hz => h.zombie p (hp.resolve_left hq) ((hold p hq).symm.trans hz)

end Recorded

theorem not_exited_start (p : Proc) : ¬ Exited [.threadCreated daemon 0 0] p := by
  rintro ⟨code, hcode⟩
  simp at hcode

theorem recorded_boot : Recorded [.threadCreated daemon 0 0] boot := by
  refine ⟨?_, fun p hp => absurd hp (not_exited_start p), ?_, fun p hp => absurd hp (not_exited_start p)⟩
  · intro t tcb ht _ hnone
    simp only [boot, Function.update_apply] at ht
    split at ht
    · cases ht
      cases hnone
    · cases ht
  · intro p hp _
    have hp0 : p = daemon := Nat.lt_one_iff.mp hp
    simp [boot, hp0]

theorem Run.recorded (h : Run ok hist s) : Recorded hist s :=
  h.invariant recorded_boot fun hrun hs _ _ heffect => hs.effect hrun.filed heffect

end

end LemonCore.Kernel.Processes
