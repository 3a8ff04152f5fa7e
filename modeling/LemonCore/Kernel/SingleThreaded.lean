import LemonCore.Kernel.ProcessTables

/-!
# Processes with one thread each

Runs in which no process creates a second thread.

* `Single`: a process that has not exited has its main thread and no other;
* `Change`: so a step changes the process table only by a `fork`, the exit of a main thread or a `waitpid`
  that reaps;
* `TreeStep`: what of this concerns the processes as a whole, also when they have several threads;
* `Named`: the pids in use are those of the processes in the table, each of one process only.
-/

namespace LemonCore.Kernel.Processes

/-- No process creates a second thread. -/
def SingleThreaded (_ : State) (action : Action) : Prop := action ≠ .call .threadCreate

instance (s : State) (action : Action) : Decidable (SingleThreaded s action) :=
  inferInstanceAs (Decidable (action ≠ .call .threadCreate))

def pidOf (s : State) (c : Proc) : Option ℕ := (s.pcbs c).map Pcb.pid

/-! ### One thread for each process -/

structure Single (hist : History) (s : State) : Prop where
  main : ∀ t tcb, s.tcbs t = some tcb → ¬ Exited hist tcb.process →
    tcb.res = some 0 ∧ ∃ pcb, s.pcbs tcb.process = some pcb ∧ pcb.tasks = [some t] ∧
      pcb.taskResAllocator = RecycleAllocator.new.alloc.2
  dead : ∀ t tcb, s.tcbs t = some tcb → Exited hist tcb.process → tcb.exitCode ≠ none

/-- The event is about no process as a whole. -/
def Event.isQuiet : Event → Bool
  | .forked .. | .processExited .. | .reaped .. => false
  | _ => true

/-- What a step does to the process table. -/
inductive Change (hist : History) (s s' : State) : History → Prop where
  | quiet {events : History} (htables : SameTables s s') (hquiet : ∀ e ∈ events, e.isQuiet = true) :
      Change hist s s' events
  | fork {p : Proc} {pcb : Pcb} (hlive : ¬ Exited hist p) (hpcb : s.pcbs p = some pcb)
      (hpcbs : s'.pcbs = Function.update (Function.update s.pcbs p
          (some { pcb with children := pcb.children ++ [s.nextProc] })) s.nextProc
        (some { pid := s.pidAllocator.alloc.1, isZombie := false, exitCode := 0, parent := some p
                children := [], tasks := [some s.nextThread]
                taskResAllocator := RecycleAllocator.new.alloc.2 }))
      (htcbs : s'.tcbs = Function.update s.tcbs s.nextThread (some ⟨s.nextProc, some 0, none⟩))
      (hnext : s'.nextProc = s.nextProc + 1) (hallocator : s'.pidAllocator = s.pidAllocator.alloc.2)
      (hmap : s'.pid2process =
        Function.update s.pid2process s.pidAllocator.alloc.1 (some s.nextProc)) :
      Change hist s s' [.forked p s.nextProc s.pidAllocator.alloc.1,
        .threadCreated s.nextProc 0 s.nextThread]
  | reap {p child : Proc} {pcb childPcb : Pcb} {pid : ℤ} {l r : List Proc} (hlive : ¬ Exited hist p)
      (hpcb : s.pcbs p = some pcb) (hchildren : pcb.children = l ++ child :: r)
      (hchild : s.pcbs child = some childPcb) (hexit : Exited hist child)
      (hpcbs : s'.pcbs = Function.update (Function.update s.pcbs p
        (some { pcb with children := l ++ r })) child none)
      (htcbs : s'.tcbs = s.tcbs) (hnext : s'.nextProc = s.nextProc)
      (hallocator : s.pidAllocator.dealloc childPcb.pid = some s'.pidAllocator)
      (hmap : s'.pid2process = s.pid2process) :
      Change hist s s' [.waitpidReturned p pid childPcb.pid,
        .reaped p child childPcb.pid childPcb.exitCode]
  | exit {t : Thread} {p : Proc} {pcb : Pcb} {code : ℤ} {a : RecycleAllocator}
      (hlive : ¬ Exited hist p) (hpcb : s.pcbs p = some pcb) (hpid : pcb.pid ≠ idlePid)
      (htasks : pcb.tasks = [some t])
      (hpcbs : s'.pcbs = Function.update (adopted s.pcbs pcb.children) p (some (pcb.exited p code a)))
      (htcbs : s'.tcbs = stripped (Function.update s.tcbs t (some ⟨p, none, some code⟩)) pcb.tasks)
      (hnext : s'.nextProc = s.nextProc) (hallocator : s'.pidAllocator = s.pidAllocator)
      (hmap : s'.pid2process = Function.update s.pid2process pcb.pid none) :
      Change hist s s' [.threadExited p 0 t code, .processExited p code]

section

variable {hist events : History} {s s' : State} {t : Thread} {tcb : Tcb} {action : Action}

theorem Recorded.exited_of_zombie (h : Recorded hist s) (hf : Filed s) {c : Proc} {pcb : Pcb}
    (hpcb : s.pcbs c = some pcb) (hz : pcb.isZombie = true) : Exited hist c := by
  by_contra hlive
  have hstatus := h.live c (hf.pcb_lt hpcb) hlive
  rw [hpcb, Option.map_some, hz] at hstatus
  cases hstatus

theorem isZombie_iff (h : Recorded hist s) (hf : Filed s) {c : Proc} (hc : (s.pcbs c).isSome) :
    isZombie s c = true ↔ Exited hist c := by
  obtain ⟨pcb, hpcb⟩ := Option.isSome_iff_exists.mp hc
  rw [isZombie, hpcb]
  constructor
  · exact h.exited_of_zombie hf hpcb
  · intro hexit
    have hz := h.zombie c hexit
    rw [hpcb, Option.map_some] at hz
    simpa using hz

namespace Single

/-- The process of the current thread has not exited. -/
theorem current (h : Single hist s) (hs : Seated s) (hcur : s.current = some t)
    (htcb : s.tcbs t = some tcb) : ¬ Exited hist tcb.process := by
  intro hexit
  obtain ⟨tcb', htcb', hcode⟩ := hs.current t hcur
  rw [htcb] at htcb'
  cases htcb'
  exact h.dead t tcb htcb hexit hcode

theorem main_of_pcb (h : Single hist s) {pcb : Pcb} (htcb : s.tcbs t = some tcb)
    (hlive : ¬ Exited hist tcb.process) (hpcb : s.pcbs tcb.process = some pcb) :
    tcb.res = some 0 ∧ pcb.tasks = [some t] ∧ pcb.taskResAllocator = RecycleAllocator.new.alloc.2 := by
  obtain ⟨hres, pcb', hpcb', htasks, halloc⟩ := h.main t tcb htcb hlive
  rw [hpcb] at hpcb'
  cases hpcb'
  exact ⟨hres, htasks, halloc⟩

theorem change (h : Single hist s) (hs : Seated s) (hf : Filed s) (hr : Recorded hist s)
    (hok : SingleThreaded s action) (heffect : Effect s action s' events) :
    Change hist s s' events := by
  cases heffect with
  | dispatch hcur hready => exact .quiet ⟨rfl, rfl, rfl, rfl, rfl, rfl⟩ (by simp [Event.isQuiet])
  | wakeup haction hq hq' hplace htables hcur => exact .quiet htables (by simp)
  | park place haction hcur hq' htables hcur' => exact .quiet htables (by simp)
  | fork hcur htcb hpcb hone => exact .fork (h.current hs hcur htcb) hpcb rfl rfl rfl rfl rfl
  | threadCreate hcur htcb hpcb => exact absurd rfl hok
  | waittid hcur htcb hpcb hres houtcome =>
    exact .quiet ⟨rfl, rfl, rfl, rfl, rfl, rfl⟩ (by simp [Event.isQuiet])
  | @waittidExited t w tcb wtcb pcb tid own code hcur htcb hpcb hres hne hw hwtcb hcode =>
    -- the only entry of the table is the caller's own
    obtain ⟨hres', htasks, _⟩ := h.main_of_pcb htcb (h.current hs hcur htcb) hpcb
    rw [hres] at hres'
    cases hres'
    rw [htasks, List.getElem?_eq_none (Nat.one_le_iff_ne_zero.mpr (Ne.symm hne))] at hw
    cases hw
  | waitpid hcur htcb hpcb hresult =>
    exact .quiet ⟨rfl, rfl, rfl, rfl, rfl, rfl⟩ (by simp [Event.isQuiet])
  | reap hcur htcb hpcb hchildren hchild hzombie hmatch halloc =>
    exact .reap (h.current hs hcur htcb) hpcb hchildren hchild (hr.exited_of_zombie hf hchild hzombie)
      rfl rfl rfl halloc rfl
  | threadExit hcur htcb hpcb hres htid halloc =>
    obtain ⟨hres', _⟩ := h.main_of_pcb htcb (h.current hs hcur htcb) hpcb
    rw [hres] at hres'
    cases hres'
    exact absurd rfl htid
  | processExit hcur htcb hpcb hres hpid =>
    have hlive := h.current hs hcur htcb
    exact .exit hlive hpcb hpid (h.main_of_pcb htcb hlive hpcb).2.1 rfl rfl rfl rfl rfl

end Single

theorem quiet_events (hquiet : ∀ e ∈ events, e.isQuiet = true) :
    (∀ p c pid, Event.forked p c pid ∉ events) ∧ (∀ p code, Event.processExited p code ∉ events) ∧
      ∀ p c pid code, Event.reaped p c pid code ∉ events := by
  refine ⟨?_, ?_, ?_⟩
  · intro p c pid hmem
    exact absurd (hquiet _ hmem) (by simp [Event.isQuiet])
  · intro p code hmem
    exact absurd (hquiet _ hmem) (by simp [Event.isQuiet])
  · intro p c pid code hmem
    exact absurd (hquiet _ hmem) (by simp [Event.isQuiet])

theorem children_updated {pcbs : Proc → Option Pcb} {p q : Proc} {pcb pcb' : Pcb} (hpcb : pcbs p = some pcb)
    (children : List Proc) (hq : pcbs q = some pcb') :
    ∃ pcb'', Function.update pcbs p (some { pcb with children := children }) q = some pcb'' ∧
      pcb''.tasks = pcb'.tasks ∧ pcb''.taskResAllocator = pcb'.taskResAllocator := by
  by_cases hp : q = p
  · rw [hp, hpcb] at hq
    cases hq
    rw [hp, Function.update_self]
    exact ⟨_, rfl, rfl, rfl⟩
  · exact ⟨pcb', by rw [Function.update_of_ne hp, hq], rfl, rfl⟩

theorem Single.step (h : Single hist s) (hf : Filed s) (hr : Recorded hist s)
    (hchange : Change hist s s' events) : Single (hist ++ events) s' := by
  cases hchange with
  | quiet htables hquiet =>
    have hsame := exited_append hist (quiet_events hquiet).2.1
    refine ⟨?_, ?_⟩
    · intro t tcb ht hlive
      rw [hsame] at hlive
      rw [htables.tcbs] at ht
      rw [htables.pcbs]
      exact h.main t tcb ht hlive
    · intro t tcb ht hexit
      rw [hsame] at hexit
      rw [htables.tcbs] at ht
      exact h.dead t tcb ht hexit
  | @fork p pcb hlive hpcb hpcbs htcbs hnext hallocator hmap =>
    have hsame : ∀ q, Exited (hist ++ [.forked p s.nextProc s.pidAllocator.alloc.1,
        .threadCreated s.nextProc 0 s.nextThread]) q ↔ Exited hist q := exited_append hist (by simp)
    refine ⟨?_, ?_⟩
    · intro t tcb ht hlive'
      rw [hsame] at hlive'
      rw [htcbs, Function.update_apply] at ht
      split at ht
      · rename_i hnew
        cases ht
        exact ⟨rfl, _, by rw [hpcbs, Function.update_self], by rw [hnew], rfl⟩
      · have hne : tcb.process ≠ s.nextProc := Nat.ne_of_lt (hf.process_lt t tcb ht)
        obtain ⟨hres, pcb', hpcb', htasks, halloc⟩ := h.main t tcb ht hlive'
        refine ⟨hres, ?_⟩
        rw [hpcbs, Function.update_of_ne hne]
        obtain ⟨pcb'', hpcb'', htasks', halloc'⟩ :=
          children_updated hpcb (pcb.children ++ [s.nextProc]) hpcb'
        exact ⟨pcb'', hpcb'', htasks'.trans htasks, halloc'.trans halloc⟩
    · intro t tcb ht hexit
      rw [hsame] at hexit
      rw [htcbs, Function.update_apply] at ht
      split at ht
      · cases ht
        exact absurd (hr.known _ hexit) (Nat.lt_irrefl _)
      · exact h.dead t tcb ht hexit
  | @reap p child pcb childPcb pid l r hlive hpcb hchildren hchild hexit hpcbs htcbs hnext hallocator hmap =>
    have hsame : ∀ q, Exited (hist ++ [.waitpidReturned p pid childPcb.pid,
        .reaped p child childPcb.pid childPcb.exitCode]) q ↔ Exited hist q := exited_append hist (by simp)
    refine ⟨?_, ?_⟩
    · intro t tcb ht hlive'
      rw [hsame] at hlive'
      rw [htcbs] at ht
      have hne : tcb.process ≠ child := fun heq => hlive' (heq ▸ hexit)
      obtain ⟨hres, pcb', hpcb', htasks, halloc⟩ := h.main t tcb ht hlive'
      refine ⟨hres, ?_⟩
      rw [hpcbs, Function.update_of_ne hne]
      obtain ⟨pcb'', hpcb'', htasks', halloc'⟩ := children_updated hpcb (l ++ r) hpcb'
      exact ⟨pcb'', hpcb'', htasks'.trans htasks, halloc'.trans halloc⟩
    · intro t tcb ht hexit'
      rw [hsame] at hexit'
      rw [htcbs] at ht
      exact h.dead t tcb ht hexit'
  | @exit t₀ p pcb code a hlive hpcb hpid htasks hpcbs htcbs hnext hallocator hmap =>
    have hexited := exited_append_processExited hist (.threadExited p 0 t₀ code) (by simp) p code
    -- the thread that exits is the only one of its process
    have hother : ∀ t tcb, s'.tcbs t = some tcb → tcb.process ≠ p → s.tcbs t = some tcb := by
      intro t tcb ht hp
      rw [htcbs, htasks] at ht
      have hne : t ≠ t₀ := by
        intro heq
        obtain ⟨tcb₁, htcb₁, hproc, _⟩ := stripped_some ht
        rw [heq, Function.update_self] at htcb₁
        cases htcb₁
        exact hp hproc
      simpa [stripped, hne] using ht
    refine ⟨?_, ?_⟩
    · intro t tcb ht hlive'
      rw [hexited, not_or] at hlive'
      obtain ⟨hres, pcb', hpcb', htasks', halloc⟩ := h.main t tcb (hother t tcb ht hlive'.1) hlive'.2
      refine ⟨hres, ?_⟩
      rw [hpcbs, Function.update_of_ne hlive'.1, adopted, hpcb']
      exact ⟨_, rfl, htasks', halloc⟩
    · intro t tcb ht hexit
      rw [hexited] at hexit
      by_cases hp : tcb.process = p
      · rw [htcbs] at ht
        obtain ⟨tcb₁, htcb₁, hproc, hcode, _⟩ := stripped_some ht
        rw [hcode]
        rw [Function.update_apply] at htcb₁
        split at htcb₁
        · cases htcb₁
          exact Option.some_ne_none code
        · rename_i hne
          have hp₁ : tcb₁.process = p := hproc.symm.trans hp
          obtain ⟨_, htasks', _⟩ := h.main_of_pcb (t := t) htcb₁ (hp₁ ▸ hlive) (hp₁ ▸ hpcb)
          rw [htasks] at htasks'
          cases htasks'
          exact absurd rfl hne
      · exact h.dead t tcb (hother t tcb ht hp) (hexit.resolve_left hp)

theorem single_boot : Single [.threadCreated daemon 0 0] boot := by
  refine ⟨?_, fun t tcb _ hexit => absurd hexit (not_exited_start _)⟩
  intro t tcb ht _
  simp only [boot, Function.update_apply] at ht
  split at ht
  · rename_i h0
    cases ht
    exact ⟨rfl, _, rfl, by rw [h0], rfl⟩
  · cases ht

theorem Run.single (h : Run SingleThreaded hist s) : Single hist s :=
  h.invariant single_boot fun hrun hs hok _ heffect =>
    hs.step hrun.filed hrun.recorded
      (hs.change hrun.seated hrun.filed hrun.recorded hok heffect)

theorem Run.treeInvariant {I : History → State → Prop} (h : Run SingleThreaded hist s)
    (hstart : I [.threadCreated daemon 0 0] boot)
    (hstep : ∀ {hist events : History} {s s' : State}, Run SingleThreaded hist s → I hist s →
      Change hist s s' events → I (hist ++ events) s') : I hist s :=
  h.invariant hstart fun hrun hi hok _ heffect =>
    hstep hrun hi (hrun.single.change hrun.seated hrun.filed hrun.recorded hok heffect)

/-! ### What a step does to the process tree -/

/-- What a control block says about the process as a whole. -/
def Pcb.kin (pcb : Pcb) : ℕ × Bool × Option Proc × List Proc :=
  (pcb.pid, pcb.isZombie, pcb.parent, pcb.children)

/-- Nothing changes for the processes as a whole. -/
structure SameKin (s s' : State) : Prop where
  kin : ∀ q, (s'.pcbs q).map Pcb.kin = (s.pcbs q).map Pcb.kin
  nextProc : s'.nextProc = s.nextProc
  pidAllocator : s'.pidAllocator = s.pidAllocator
  pid2process : s'.pid2process = s.pid2process

theorem SameKin.map {β : Type} (h : SameKin s s') (f : ℕ × Bool × Option Proc × List Proc → β) (q : Proc) :
    (s'.pcbs q).map (fun pcb => f pcb.kin) = (s.pcbs q).map (fun pcb => f pcb.kin) := by
  have hkin := congrArg (Option.map f) (h.kin q)
  rw [Option.map_map, Option.map_map] at hkin
  exact hkin

theorem SameTables.sameKin (h : SameTables s s') : SameKin s s' :=
  ⟨fun q => by rw [h.pcbs], h.nextProc, h.pidAllocator, h.pid2process⟩

/-- What a step does to the process tree, whatever the processes do with their threads. -/
inductive TreeStep (hist : History) (s s' : State) : History → Prop where
  | quiet {events : History} (hkin : SameKin s s') (hquiet : ∀ e ∈ events, e.isQuiet = true) :
      TreeStep hist s s' events
  | fork {p : Proc} {pcb : Pcb} (hlive : ¬ Exited hist p) (hpcb : s.pcbs p = some pcb)
      (hpcbs : s'.pcbs = Function.update (Function.update s.pcbs p
          (some { pcb with children := pcb.children ++ [s.nextProc] })) s.nextProc
        (some { pid := s.pidAllocator.alloc.1, isZombie := false, exitCode := 0, parent := some p
                children := [], tasks := [some s.nextThread]
                taskResAllocator := RecycleAllocator.new.alloc.2 }))
      (hallocator : s'.pidAllocator = s.pidAllocator.alloc.2)
      (hmap : s'.pid2process =
        Function.update s.pid2process s.pidAllocator.alloc.1 (some s.nextProc)) :
      TreeStep hist s s' [.forked p s.nextProc s.pidAllocator.alloc.1,
        .threadCreated s.nextProc 0 s.nextThread]
  | reap {p child : Proc} {pcb childPcb : Pcb} {pid : ℤ} {l r : List Proc} (hlive : ¬ Exited hist p)
      (hpcb : s.pcbs p = some pcb) (hchildren : pcb.children = l ++ child :: r)
      (hchild : s.pcbs child = some childPcb) (hexit : Exited hist child)
      (hpcbs : s'.pcbs = Function.update (Function.update s.pcbs p
        (some { pcb with children := l ++ r })) child none)
      (hallocator : s.pidAllocator.dealloc childPcb.pid = some s'.pidAllocator)
      (hmap : s'.pid2process = s.pid2process) :
      TreeStep hist s s' [.waitpidReturned p pid childPcb.pid,
        .reaped p child childPcb.pid childPcb.exitCode]
  | exit {t : Thread} {p : Proc} {pcb : Pcb} {code : ℤ} {a : RecycleAllocator}
      (hlive : ¬ Exited hist p) (hpcb : s.pcbs p = some pcb) (hpid : pcb.pid ≠ idlePid)
      (hpcbs : s'.pcbs = Function.update (adopted s.pcbs pcb.children) p (some (pcb.exited p code a)))
      (hallocator : s'.pidAllocator = s.pidAllocator)
      (hmap : s'.pid2process = Function.update s.pid2process pcb.pid none) :
      TreeStep hist s s' [.threadExited p 0 t code, .processExited p code]

theorem Change.treeStep (h : Change hist s s' events) : TreeStep hist s s' events := by
  cases h with
  | quiet htables hquiet => exact .quiet htables.sameKin hquiet
  | fork hlive hpcb hpcbs htcbs hnext hallocator hmap => exact .fork hlive hpcb hpcbs hallocator hmap
  | reap hlive hpcb hchildren hchild hexit hpcbs htcbs hnext hallocator hmap =>
    exact .reap hlive hpcb hchildren hchild hexit hpcbs hallocator hmap
  | exit hlive hpcb hpid htasks hpcbs htcbs hnext hallocator hmap =>
    exact .exit hlive hpcb hpid hpcbs hallocator hmap

/-! ### Pids -/

structure Named (hist : History) (s : State) : Prop where
  inUse : ∀ c pid, pidOf s c = some pid → s.pidAllocator.InUse pid
  distinct : ∀ c c' pid, pidOf s c = some pid → pidOf s c' = some pid → c = c'
  daemon_pid : pidOf s daemon = some idlePid
  daemon_live : ¬ Exited hist daemon
  mapped : ∀ pid c, s.pid2process pid = some c ↔
    (s.pcbs c).map (fun pcb => (pcb.pid, pcb.isZombie)) = some (pid, false)

theorem pidOf_of_pcb {c : Proc} {pcb : Pcb} (h : s.pcbs c = some pcb) : pidOf s c = some pcb.pid := by
  rw [pidOf, h, Option.map_some]

theorem status_eq {o : Option Pcb} {pid : ℕ} :
    o.map (fun pcb => (pcb.pid, pcb.isZombie)) = some (pid, false) ↔
      ∃ pcb, o = some pcb ∧ pcb.pid = pid ∧ pcb.isZombie = false := by
  simp [Option.map_eq_some_iff]

theorem Named.pid_of_mapped (h : Named hist s) {pid : ℕ} {c : Proc} (hmap : s.pid2process pid = some c) :
    pidOf s c = some pid := by
  obtain ⟨pcb, hpcb, hpid, _⟩ := status_eq.mp ((h.mapped pid c).mp hmap)
  rw [← hpid]
  exact pidOf_of_pcb hpcb

theorem Named.pcb_of_mapped (h : Named hist s) {pid : ℕ} {c : Proc} {pcb : Pcb}
    (hmap : s.pid2process pid = some c) (hpcb : s.pcbs c = some pcb) :
    pcb.pid = pid ∧ pcb.isZombie = false := by
  obtain ⟨pcb', hpcb', hpid, hz⟩ := status_eq.mp ((h.mapped pid c).mp hmap)
  rw [hpcb] at hpcb'
  cases hpcb'
  exact ⟨hpid, hz⟩

theorem Named.ne_daemon (h : Named hist s) {p : Proc} {pcb : Pcb} (hpcb : s.pcbs p = some pcb)
    (hpid : pcb.pid ≠ idlePid) : p ≠ daemon := by
  intro heq
  have hd := h.daemon_pid
  rw [← heq, pidOf_of_pcb hpcb] at hd
  exact hpid (Option.some.inj hd)

theorem Named.step (h : Named hist s) (hf : Filed s) (hr : Recorded hist s)
    (hstep : TreeStep hist s s' events) : Named (hist ++ events) s' := by
  cases hstep with
  | quiet hkin hquiet =>
    have hpid : ∀ c, pidOf s' c = pidOf s c := hkin.map Prod.fst
    refine ⟨?_, ?_, ?_, ?_, ?_⟩
    · simp only [hpid, hkin.pidAllocator]
      exact h.inUse
    · simp only [hpid]
      exact h.distinct
    · rw [hpid]
      exact h.daemon_pid
    · rw [exited_append hist (quiet_events hquiet).2.1]
      exact h.daemon_live
    · intro pid c
      have hstatus : (s'.pcbs c).map (fun pcb => (pcb.pid, pcb.isZombie)) =
          (s.pcbs c).map (fun pcb => (pcb.pid, pcb.isZombie)) := hkin.map (fun kin => (kin.1, kin.2.1)) c
      rw [hkin.pid2process, hstatus]
      exact h.mapped pid c
  | @fork p pcb hlive hpcb hpcbs hallocator hmap =>
    obtain ⟨hnew, huse, _⟩ := s.pidAllocator.alloc_spec
    have hpid : ∀ c, pidOf s' c = if c = s.nextProc then some s.pidAllocator.alloc.1 else pidOf s c := by
      intro c
      rw [pidOf, hpcbs, Function.update_apply]
      split
      · rfl
      · exact map_update hpcb (by rfl) c
    have hfree : ∀ c, pidOf s c ≠ some s.pidAllocator.alloc.1 := fun c hc => hnew (h.inUse c _ hc)
    have hunborn : s.pcbs s.nextProc = none := hf.fresh _ (Nat.le_refl _)
    refine ⟨?_, ?_, ?_, ?_, ?_⟩
    · intro c pid hc
      rw [hallocator, huse]
      rw [hpid] at hc
      split at hc
      · cases hc
        exact Or.inr rfl
      · exact Or.inl (h.inUse c pid hc)
    · intro c c' pid hc hc'
      rw [hpid] at hc hc'
      split at hc <;> split at hc'
      · rename_i h₁ h₂
        rw [h₁, h₂]
      · cases hc
        exact absurd hc' (hfree c')
      · cases hc'
        exact absurd hc (hfree c)
      · exact h.distinct c c' pid hc hc'
    · rw [hpid, if_neg]
      · exact h.daemon_pid
      · intro heq
        have hd := h.daemon_pid
        rw [pidOf, heq, hunborn] at hd
        cases hd
    · rw [exited_append hist (by simp)]
      exact h.daemon_live
    · intro pid c
      rw [hmap, hpcbs, Function.update_apply, Function.update_apply]
      by_cases hpid' : pid = s.pidAllocator.alloc.1 <;> by_cases hc : c = s.nextProc
      · simp [hpid', hc]
      · rw [if_pos hpid', if_neg hc, map_update hpcb (by rfl)]
        constructor
        · intro heq
          cases heq
          exact absurd rfl hc
        · intro hstatus
          obtain ⟨pcb', hpcb', hpid'', _⟩ := status_eq.mp hstatus
          rw [← hpid', ← hpid''] at hfree
          exact absurd (pidOf_of_pcb hpcb') (hfree c)
      · rw [if_neg hpid', if_pos hc]
        constructor
        · intro heq
          have hold := h.pid_of_mapped heq
          rw [pidOf, hc, hunborn] at hold
          cases hold
        · intro hstatus
          cases hstatus
          exact absurd rfl hpid'
      · rw [if_neg hpid', if_neg hc, map_update hpcb (by rfl)]
        exact h.mapped pid c
  | @reap p child pcb childPcb pid l r hlive hpcb hchildren hchild hexit hpcbs hallocator hmap =>
    obtain ⟨_, huse, _⟩ := RecycleAllocator.dealloc_spec hallocator
    have hpid : ∀ c, pidOf s' c = if c = child then none else pidOf s c := by
      intro c
      rw [pidOf, hpcbs, Function.update_apply]
      split
      · rfl
      · exact map_update hpcb (by rfl) c
    refine ⟨?_, ?_, ?_, ?_, ?_⟩
    · intro c pid' hc
      rw [hpid] at hc
      split at hc
      · cases hc
      · rename_i hne
        rw [huse]
        refine ⟨h.inUse c pid' hc, fun heq => hne ?_⟩
        exact h.distinct c child pid' hc (heq ▸ pidOf_of_pcb hchild)
    · intro c c' pid' hc hc'
      rw [hpid] at hc hc'
      split at hc
      · cases hc
      · split at hc'
        · cases hc'
        · exact h.distinct c c' pid' hc hc'
    · rw [hpid, if_neg]
      · exact h.daemon_pid
      · exact fun heq => h.daemon_live (heq ▸ hexit)
    · rw [exited_append hist (by simp)]
      exact h.daemon_live
    · intro pid' c
      rw [hmap, hpcbs, Function.update_apply]
      split
      · rename_i hc
        constructor
        · intro heq
          rw [hc] at heq
          have hz := hr.zombie child hexit
          rw [hchild, Option.map_some, (h.pcb_of_mapped heq hchild).2] at hz
          exact absurd rfl hz
        · intro hnone
          cases hnone
      · rw [map_update hpcb (by rfl)]
        exact h.mapped pid' c
  | @exit t₀ p pcb code a hlive hpcb hpid hpcbs hallocator hmap =>
    have hsame : ∀ c, pidOf s' c = pidOf s c := by
      intro c
      rw [pidOf, hpcbs, Function.update_apply]
      split
      · rename_i hc
        rw [hc, pidOf_of_pcb hpcb]
        rfl
      · exact map_adopted (fun _ _ _ => rfl) s.pcbs pcb.children c
    refine ⟨?_, ?_, ?_, ?_, ?_⟩
    · simp only [hsame, hallocator]
      exact h.inUse
    · simp only [hsame]
      exact h.distinct
    · rw [hsame]
      exact h.daemon_pid
    · rw [exited_append_processExited hist (.threadExited p 0 t₀ code) (by simp) p code, not_or]
      exact ⟨(h.ne_daemon hpcb hpid).symm, h.daemon_live⟩
    · intro pid' c
      rw [hmap, hpcbs, Function.update_apply, Function.update_apply]
      by_cases hpid' : pid' = pcb.pid <;> by_cases hc : c = p
      · simp [hpid', hc, Pcb.exited]
      · rw [if_pos hpid', if_neg hc, map_adopted (fun _ _ _ => rfl)]
        constructor
        · intro hnone
          cases hnone
        · intro hstatus
          obtain ⟨pcb', hpcb', hpid'', _⟩ := status_eq.mp hstatus
          have hc' := pidOf_of_pcb hpcb'
          rw [hpid'', hpid'] at hc'
          exact absurd (h.distinct c p _ hc' (pidOf_of_pcb hpcb)) hc
      · rw [if_neg hpid', if_pos hc]
        constructor
        · intro heq
          rw [hc] at heq
          exact absurd (h.pcb_of_mapped heq hpcb).1.symm hpid'
        · intro hstatus
          cases hstatus
      · rw [if_neg hpid', if_neg hc, map_adopted (fun _ _ _ => rfl)]
        exact h.mapped pid' c

theorem named_boot : Named [.threadCreated daemon 0 0] boot := by
  have hpid : ∀ c pid, pidOf boot c = some pid → c = daemon ∧ pid = 0 := by
    intro c pid hc
    simp only [pidOf, boot, Function.update_apply] at hc
    split at hc
    · rename_i h0
      cases hc
      exact ⟨h0, rfl⟩
    · cases hc
  refine ⟨?_, ?_, rfl, not_exited_start daemon, ?_⟩
  · intro c pid hc
    rw [(hpid c pid hc).2]
    decide
  · intro c c' pid hc hc'
    rw [(hpid c pid hc).1, (hpid c' pid hc').1]
  · intro pid c
    simp only [boot, Function.update_apply]
    by_cases hp : pid = 0 <;> by_cases hc : c = daemon <;>
      simp [hp, hc, RecycleAllocator.alloc, RecycleAllocator.new, eq_comm]

theorem Run.named (h : Run SingleThreaded hist s) : Named hist s :=
  h.treeInvariant named_boot fun hrun hn hchange => hn.step hrun.filed hrun.recorded hchange.treeStep

end

end LemonCore.Kernel.Processes
