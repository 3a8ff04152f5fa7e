import LemonCore.Kernel.SingleThreaded
import LemonCore.Foundation.EventLog

/-!
# The process tree

`fork`, `exit` and `waitpid` by processes with one thread each, in any order.

* `Family`: every process but the daemon is in one list of children, that of its parent;
* `Logged`: the process table agrees with the history;
* `process_tree`: these together, with what the next `exit` and the next `waitpid` do.
-/

namespace LemonCore.Kernel.Processes

open Foundation.QueueFamily Foundation.EventLog

/-- The process was forked and got this pid. -/
def Forked (hist : History) (c : Proc) (pid : ℕ) : Prop := ∃ p, .forked p c pid ∈ hist

def Reaped (hist : History) (c : Proc) : Prop := ∃ p pid code, .reaped p c pid code ∈ hist

def parentOf (s : State) (c : Proc) : Option Proc := (s.pcbs c).bind Pcb.parent

section

variable {hist events : History} {s s' : State}

/-! ### Parents and children -/

structure Family (hist : History) (s : State) : Prop where
  spread : Spread (childrenOf s) fun c => (s.pcbs c).isSome ∧ c ≠ daemon
  parent : ∀ q, ∀ c ∈ childrenOf s q, parentOf s c = some q
  exited : ∀ c, Exited hist c → childrenOf s c = []

theorem childrenOf_of_pcb {p : Proc} {pcb : Pcb} (h : s.pcbs p = some pcb) :
    childrenOf s p = pcb.children := by
  rw [childrenOf, h]

theorem childrenOf_of_none {p : Proc} (h : s.pcbs p = none) : childrenOf s p = [] := by
  rw [childrenOf, h]

theorem childrenOf_eq (s : State) (p : Proc) :
    childrenOf s p = ((s.pcbs p).map Pcb.children).getD [] := by
  rw [childrenOf]
  cases s.pcbs p <;> rfl

theorem parentOf_eq (s : State) (c : Proc) : parentOf s c = ((s.pcbs c).map Pcb.parent).join := by
  rw [parentOf]
  cases s.pcbs c <;> rfl

theorem Family.isSome_of_mem (h : Family hist s) {q c : Proc} (hc : c ∈ childrenOf s q) :
    (s.pcbs c).isSome := (h.spread.of_mem hc).1

theorem parentOf_update {p : Proc} {pcb : Pcb} (hpcb : s.pcbs p = some pcb) (children : List Proc)
    (c : Proc) :
    (Function.update s.pcbs p (some { pcb with children := children }) c).bind Pcb.parent =
      parentOf s c := by
  rw [parentOf, Function.update_apply]
  split
  · rename_i hc
    rw [hc, hpcb]
    rfl
  · rfl

theorem childrenOf_exit {p : Proc} {pcb daemonPcb : Pcb} {code : ℤ} {a : RecycleAllocator}
    (hpcb : s.pcbs p = some pcb) (hdaemon : s.pcbs daemon = some daemonPcb) (hne : p ≠ daemon)
    (hpcbs : s'.pcbs = Function.update (adopted s.pcbs pcb.children) p (some (pcb.exited p code a))) :
    childrenOf s' = Function.update (Function.update (childrenOf s) p []) daemon
      (childrenOf s daemon ++ childrenOf s p) := by
  funext q
  by_cases hq : q = p
  · rw [hq, Function.update_of_ne hne, Function.update_self]
    exact childrenOf_of_pcb (by rw [hpcbs, Function.update_self])
  · have hq' : s'.pcbs q = adopted s.pcbs pcb.children q := by
      rw [hpcbs, Function.update_of_ne hq]
    by_cases hd : q = daemon
    · rw [hd] at hq' ⊢
      rw [Function.update_self, childrenOf_of_pcb hpcb, childrenOf_of_pcb hdaemon, childrenOf, hq',
        adopted, hdaemon]
      simp
    · rw [Function.update_of_ne hd, Function.update_of_ne hq, childrenOf, childrenOf, hq', adopted]
      cases s.pcbs q with
      | none => rfl
      | some pcb' => simp [hd]

theorem parentOf_exit {p c : Proc} {pcb : Pcb} {code : ℤ} {a : RecycleAllocator}
    (hpcb : s.pcbs p = some pcb) (hc : (s.pcbs c).isSome)
    (hpcbs : s'.pcbs = Function.update (adopted s.pcbs pcb.children) p (some (pcb.exited p code a))) :
    parentOf s' c = if c ∈ childrenOf s p then some daemon else parentOf s c := by
  obtain ⟨pcb', hpcb'⟩ := Option.isSome_iff_exists.mp hc
  rw [parentOf, parentOf, hpcbs, childrenOf_of_pcb hpcb, Function.update_apply]
  split
  · rename_i hcp
    rw [hcp, hpcb]
    rfl
  · rw [adopted, hpcb']
    rfl

theorem Family.step (h : Family hist s) (hf : Filed s) (hn : Named hist s)
    (hstep : TreeStep hist s s' events) : Family (hist ++ events) s' := by
  cases hstep with
  | quiet hkin hquiet =>
    have hchildren : childrenOf s' = childrenOf s := by
      funext q
      rw [childrenOf_eq, childrenOf_eq]
      exact congrArg (·.getD []) (hkin.map (·.2.2.2) q)
    have hsome : ∀ c, (s'.pcbs c).isSome = (s.pcbs c).isSome := by
      intro c
      rw [← Option.isSome_map, hkin.kin c, Option.isSome_map]
    have hparent : ∀ c, parentOf s' c = parentOf s c := by
      intro c
      rw [parentOf_eq, parentOf_eq]
      exact congrArg Option.join (hkin.map (·.2.2.1) c)
    refine ⟨?_, ?_, ?_⟩
    · rw [hchildren]
      exact h.spread.congr fun c => by rw [hsome]
    · intro q c hc
      rw [hchildren] at hc
      rw [hparent]
      exact h.parent q c hc
    · intro c hexit
      rw [exited_append hist (quiet_events hquiet).2.1] at hexit
      rw [hchildren]
      exact h.exited c hexit
  | @fork p pcb hlive hpcb hpcbs hallocator hmap =>
    have hunborn : s.pcbs s.nextProc = none := hf.fresh _ (Nat.le_refl _)
    have hp : p ≠ s.nextProc := Nat.ne_of_lt (hf.pcb_lt hpcb)
    have hdaemon : s.nextProc ≠ daemon := by
      intro heq
      have hd := hn.daemon_pid
      rw [pidOf, ← heq, hunborn] at hd
      cases hd
    have hchildren : childrenOf s' = push (childrenOf s) p s.nextProc := by
      funext q
      rw [push, Function.update_apply, childrenOf, hpcbs]
      by_cases hq : q = s.nextProc
      · rw [hq, Function.update_self, if_neg (Ne.symm hp), childrenOf_of_none hunborn]
      · rw [Function.update_of_ne hq]
        by_cases hq' : q = p
        · rw [hq', Function.update_self, if_pos rfl, childrenOf_of_pcb hpcb]
        · rw [Function.update_of_ne hq', if_neg hq', childrenOf]
    refine ⟨?_, ?_, ?_⟩
    · rw [hchildren]
      refine (h.spread.push p (a := s.nextProc) (by simp [hunborn])).congr fun c => ?_
      rw [hpcbs, Function.update_apply, Function.update_apply]
      by_cases hc : c = s.nextProc
      · simp [hc, hdaemon]
      · by_cases hc' : c = p
        · simp [hc', hp, hpcb]
        · simp [hc, hc']
    · intro q c hc
      rw [hchildren, push, Function.update_apply] at hc
      have hold : c ∈ childrenOf s q → parentOf s' c = some q := by
        intro hmem
        have hne : c ≠ s.nextProc := by
          intro heq
          have hsome := h.isSome_of_mem hmem
          rw [heq, hunborn] at hsome
          cases hsome
        rw [parentOf, hpcbs, Function.update_of_ne hne, parentOf_update hpcb]
        exact h.parent q c hmem
      split at hc
      · rename_i hq
        rw [List.mem_append, List.mem_singleton] at hc
        cases hc with
        | inl hmem => exact hold (hq ▸ hmem)
        | inr hnew =>
          rw [parentOf, hpcbs, hnew, Function.update_self, hq]
          rfl
      · exact hold hc
    · intro c hexit
      rw [exited_append hist (by simp)] at hexit
      have hcp : c ≠ p := fun heq => hlive (heq ▸ hexit)
      rw [hchildren, push, Function.update_of_ne hcp]
      exact h.exited c hexit
  | @reap p child pcb childPcb pid l r hlive hpcb hchildren hchild hexit hpcbs hallocator hmap =>
    have hp : p ≠ child := fun heq => hlive (heq ▸ hexit)
    have hlists : childrenOf s' = Function.update (childrenOf s) p (l ++ r) := by
      funext q
      rw [Function.update_apply, childrenOf, hpcbs]
      by_cases hq : q = child
      · rw [hq, Function.update_self, if_neg (Ne.symm hp), h.exited child hexit]
      · rw [Function.update_of_ne hq]
        by_cases hq' : q = p
        · rw [hq', Function.update_self, if_pos rfl]
        · rw [Function.update_of_ne hq', if_neg hq', childrenOf]
    have heq : childrenOf s p = l ++ child :: r := (childrenOf_of_pcb hpcb).trans hchildren
    have hspread := h.spread.remove heq
    refine ⟨?_, ?_, ?_⟩
    · rw [hlists]
      refine hspread.congr fun c => ?_
      rw [hpcbs, Function.update_apply, Function.update_apply]
      by_cases hc : c = child
      · simp [hc]
      · by_cases hc' : c = p
        · simp [hc', hp, hpcb]
        · simp [hc, hc']
    · intro q c hc
      rw [hlists] at hc
      have hne : c ≠ child := (hspread.of_mem hc).2
      rw [parentOf, hpcbs, Function.update_of_ne hne, parentOf_update hpcb]
      refine h.parent q c ?_
      rw [Function.update_apply] at hc
      split at hc
      · rename_i hq
        rw [hq, heq]
        rw [List.mem_append] at hc ⊢
        exact hc.imp_right (List.mem_cons_of_mem child)
      · exact hc
    · intro c hexit'
      rw [exited_append hist (by simp)] at hexit'
      have hcp : c ≠ p := fun heq => hlive (heq ▸ hexit')
      rw [hlists, Function.update_of_ne hcp]
      exact h.exited c hexit'
  | @exit t₀ p pcb code a hlive hpcb hpid hpcbs hallocator hmap =>
    have hne := hn.ne_daemon hpcb hpid
    obtain ⟨daemonPcb, hdaemon, _⟩ := Option.map_eq_some_iff.mp hn.daemon_pid
    have hlists := childrenOf_exit hpcb hdaemon hne hpcbs
    have hspread := h.spread.moveAll hne (childrenOf s p) rfl
    rw [← hlists] at hspread
    refine ⟨?_, ?_, ?_⟩
    · refine hspread.congr fun c => ?_
      rw [hpcbs, Function.update_apply, adopted]
      split
      · rename_i hc
        simp [hc, hpcb]
      · simp
    · intro q c hc
      have hsome : (s.pcbs c).isSome := (hspread.of_mem hc).1
      rw [parentOf_exit hpcb hsome hpcbs]
      rw [hlists, Function.update_apply] at hc
      split at hc
      · rename_i hq
        rw [hq]
        split
        · rfl
        · rename_i hmem
          exact h.parent daemon c ((List.mem_append.mp hc).resolve_right hmem)
      · rw [Function.update_apply] at hc
        split at hc
        · cases hc
        · rename_i hq
          rw [if_neg (fun hmem => hq (h.spread.eq_of_mem hc hmem))]
          exact h.parent q c hc
    · intro c hexit
      rw [exited_append_processExited hist (.threadExited p 0 t₀ code) (by simp) p code] at hexit
      rw [hlists]
      by_cases hcp : c = p
      · rw [hcp, Function.update_of_ne hne, Function.update_self]
      · have hexit' := hexit.resolve_left hcp
        have hcd : c ≠ daemon := fun heq => hn.daemon_live (heq ▸ hexit')
        rw [Function.update_of_ne hcd, Function.update_of_ne hcp]
        exact h.exited c hexit'

theorem family_boot : Family [.threadCreated daemon 0 0] boot := by
  have hnone : ∀ q, childrenOf boot q = [] := by
    intro q
    by_cases hq : q = daemon <;> simp [childrenOf, boot, hq]
  refine ⟨?_, ?_, ?_⟩
  · refine (spread_single List.nodup_nil daemon (hnone daemon) fun q _ => hnone q).congr fun c => ?_
    by_cases hc : c = daemon <;> simp [boot, hc]
  · intro q c hc
    rw [hnone q] at hc
    cases hc
  · exact fun c _ => hnone c

theorem Run.family (h : Run SingleThreaded hist s) : Family hist s :=
  h.treeInvariant family_boot fun hrun hfam hchange =>
    hfam.step hrun.filed hrun.named hchange.treeStep

/-! ### The history of the process table -/

/-- A process is reaped once, after it exited, with its own pid and exit code. -/
def ReapDue (before : History) : Event → Prop
  | .reaped _ c pid code => ¬ Reaped before c ∧ Forked before c pid ∧ .processExited c code ∈ before
  | _ => True

structure Logged (hist : History) (s : State) : Prop where
  present : ∀ c, (s.pcbs c).isSome ↔ c < s.nextProc ∧ ¬ Reaped hist c
  created : ∀ c, c < s.nextProc ↔ c = daemon ∨ ∃ pid, Forked hist c pid
  pid : ∀ c pid, Forked hist c pid → ¬ Reaped hist c → pidOf s c = some pid
  code : ∀ c pcb, s.pcbs c = some pcb → Exited hist c → .processExited c pcb.exitCode ∈ hist
  known : ∀ c, Reaped hist c → c < s.nextProc
  not_daemon : ∀ pid, ¬ Forked hist daemon pid
  due : Always ReapDue hist

theorem reaped_append (hist : History) (hno : ∀ p c pid code, Event.reaped p c pid code ∉ events)
    (c : Proc) : Reaped (hist ++ events) c ↔ Reaped hist c := by
  simp [Reaped, hno]

theorem forked_append (hist : History) (hno : ∀ p c pid, Event.forked p c pid ∉ events) (c : Proc)
    (pid : ℕ) : Forked (hist ++ events) c pid ↔ Forked hist c pid := by
  simp [Forked, hno]

theorem Logged.step (h : Logged hist s) (hr : Recorded hist s) (hn : Named hist s)
    (hchange : Change hist s s' events) : Logged (hist ++ events) s' := by
  cases hchange with
  | quiet htables hquiet =>
    obtain ⟨hnofork, hnoexit, hnoreap⟩ := quiet_events hquiet
    have hexited := exited_append hist hnoexit
    have hreaped := reaped_append hist hnoreap
    have hforked := forked_append hist hnofork
    refine ⟨?_, ?_, ?_, ?_, ?_, ?_, ?_⟩
    · simp only [htables.pcbs, htables.nextProc, hreaped]
      exact h.present
    · simp only [htables.nextProc, hforked]
      exact h.created
    · simp only [pidOf, htables.pcbs, hforked, hreaped]
      exact h.pid
    · intro c pcb hpcb hexit
      rw [hexited] at hexit
      rw [htables.pcbs] at hpcb
      exact List.mem_append_left _ (h.code c pcb hpcb hexit)
    · simp only [htables.nextProc, hreaped]
      exact h.known
    · simp only [hforked]
      exact h.not_daemon
    · refine h.due.append fun e he before => ?_
      cases e with
      | reaped p c pid code => exact absurd he (hnoreap p c pid code)
      | _ => trivial
  | @fork p pcb hlive hpcb hpcbs htcbs hnext hallocator hmap =>
    have hreaped : ∀ c, Reaped (hist ++ [.forked p s.nextProc s.pidAllocator.alloc.1,
        .threadCreated s.nextProc 0 s.nextThread]) c ↔ Reaped hist c := reaped_append hist (by simp)
    have hexited : ∀ c, Exited (hist ++ [.forked p s.nextProc s.pidAllocator.alloc.1,
        .threadCreated s.nextProc 0 s.nextThread]) c ↔ Exited hist c := exited_append hist (by simp)
    have hforked : ∀ c pid, Forked (hist ++ [.forked p s.nextProc s.pidAllocator.alloc.1,
        .threadCreated s.nextProc 0 s.nextThread]) c pid ↔
          Forked hist c pid ∨ (c = s.nextProc ∧ pid = s.pidAllocator.alloc.1) := by
      intro c pid
      simp [Forked, exists_or]
    have hkeep : ∀ c, c ≠ s.nextProc → pidOf s' c = pidOf s c := by
      intro c hc
      rw [pidOf, hpcbs, Function.update_of_ne hc]
      exact map_update hpcb (by rfl) c
    have hnew : ¬ Reaped hist s.nextProc := fun hx => absurd (h.known _ hx) (Nat.lt_irrefl _)
    refine ⟨?_, ?_, ?_, ?_, ?_, ?_, ?_⟩
    · intro c
      rw [hnext, hreaped]
      by_cases hc : c = s.nextProc
      · simp [hpcbs, hc, hnew]
      · have hsome : (s'.pcbs c).isSome = (s.pcbs c).isSome := by
          have := congrArg Option.isSome (hkeep c hc)
          simpa [pidOf] using this
        rw [hsome, h.present]
        have hlt : c < s.nextProc + 1 ↔ c < s.nextProc :=
          ⟨fun hx => Nat.lt_of_le_of_ne (Nat.le_of_lt_succ hx) hc, Nat.lt_succ_of_lt⟩
        rw [hlt]
    · intro c
      simp only [hnext, hforked, exists_or]
      have hlt : c < s.nextProc + 1 ↔ c < s.nextProc ∨ c = s.nextProc := by omega
      rw [hlt, h.created]
      simp [or_assoc]
    · intro c pid hc hlive'
      rw [hreaped] at hlive'
      rw [hforked] at hc
      by_cases hcn : c = s.nextProc
      · cases hc with
        | inl hold =>
          have hlt := (h.created c).mpr (Or.inr ⟨pid, hold⟩)
          exact absurd hcn (Nat.ne_of_lt hlt)
        | inr hnow => rw [pidOf, hpcbs, hcn, Function.update_self, hnow.2, Option.map_some]
      · rw [hkeep c hcn]
        exact h.pid c pid (hc.resolve_right fun hx => hcn hx.1) hlive'
    · intro c pcb' hpcb' hexit
      rw [hexited] at hexit
      have hcn : c ≠ s.nextProc := Nat.ne_of_lt (hr.known c hexit)
      rw [hpcbs, Function.update_of_ne hcn] at hpcb'
      refine List.mem_append_left _ ?_
      rw [Function.update_apply] at hpcb'
      split at hpcb'
      · rename_i hcp
        exact absurd (hcp ▸ hexit) hlive
      · exact h.code c pcb' hpcb' hexit
    · intro c hc
      rw [hreaped] at hc
      rw [hnext]
      exact Nat.lt_succ_of_lt (h.known c hc)
    · intro pid hpid
      have hlt : daemon < s.nextProc := (h.created daemon).mpr (Or.inl rfl)
      rw [hforked] at hpid
      cases hpid with
      | inl hold => exact h.not_daemon pid hold
      | inr hnow => exact absurd hnow.1 (Nat.ne_of_lt hlt)
    · exact h.due.append (by simp [ReapDue])
  | @reap p child pcb childPcb pid l r hlive hpcb hchildren hchild hexit hpcbs htcbs hnext hallocator hmap =>
    have hforked : ∀ c pid', Forked (hist ++ [.waitpidReturned p pid childPcb.pid,
        .reaped p child childPcb.pid childPcb.exitCode]) c pid' ↔ Forked hist c pid' :=
      forked_append hist (by simp)
    have hexited : ∀ c, Exited (hist ++ [.waitpidReturned p pid childPcb.pid,
        .reaped p child childPcb.pid childPcb.exitCode]) c ↔ Exited hist c := exited_append hist (by simp)
    have hreaped : ∀ c, Reaped (hist ++ [.waitpidReturned p pid childPcb.pid,
        .reaped p child childPcb.pid childPcb.exitCode]) c ↔ Reaped hist c ∨ c = child := by
      intro c
      simp [Reaped, exists_or]
    have hkeep : ∀ c, c ≠ child → pidOf s' c = pidOf s c := by
      intro c hc
      rw [pidOf, hpcbs, Function.update_of_ne hc]
      exact map_update hpcb (by rfl) c
    have hpresent := (h.present child).mp (by rw [hchild]; rfl)
    refine ⟨?_, ?_, ?_, ?_, ?_, ?_, ?_⟩
    · intro c
      rw [hnext, hreaped]
      by_cases hc : c = child
      · simp [hpcbs, hc]
      · have hsome : (s'.pcbs c).isSome = (s.pcbs c).isSome := by
          have := congrArg Option.isSome (hkeep c hc)
          simpa [pidOf] using this
        rw [hsome, h.present]
        simp [hc]
    · simp only [hnext, hforked]
      exact h.created
    · intro c pid' hc hnot
      rw [hreaped, not_or] at hnot
      rw [hforked] at hc
      rw [hkeep c hnot.2]
      exact h.pid c pid' hc hnot.1
    · intro c pcb' hpcb' hexit'
      rw [hexited] at hexit'
      refine List.mem_append_left _ ?_
      rw [hpcbs, Function.update_apply] at hpcb'
      split at hpcb'
      · cases hpcb'
      · rw [Function.update_apply] at hpcb'
        split at hpcb'
        · rename_i hcp
          exact absurd (hcp ▸ hexit') hlive
        · exact h.code c pcb' hpcb' hexit'
    · intro c hc
      rw [hreaped] at hc
      rw [hnext]
      cases hc with
      | inl hold => exact h.known c hold
      | inr hnow =>
        rw [hnow]
        exact hpresent.1
    · simp only [hforked]
      exact h.not_daemon
    · rw [List.append_cons, always_concat, always_concat]
      refine ⟨⟨h.due, trivial⟩, ?_, ?_, ?_⟩
      · rw [reaped_append hist (by simp)]
        exact hpresent.2
      · rw [forked_append hist (by simp)]
        have hdaemon : child ≠ daemon := fun heq => hn.daemon_live (heq ▸ hexit)
        obtain ⟨pid', hpid'⟩ := ((h.created child).mp hpresent.1).resolve_left hdaemon
        have hsame := h.pid child pid' hpid' hpresent.2
        rw [pidOf_of_pcb hchild] at hsame
        rw [Option.some.inj hsame]
        exact hpid'
      · exact List.mem_append_left _ (h.code child childPcb hchild hexit)
  | @exit t₀ p pcb code a hlive hpcb hpid htasks hpcbs htcbs hnext hallocator hmap =>
    have hreaped : ∀ c, Reaped (hist ++ [.threadExited p 0 t₀ code, .processExited p code]) c ↔
        Reaped hist c := reaped_append hist (by simp)
    have hforked : ∀ c pid, Forked (hist ++ [.threadExited p 0 t₀ code, .processExited p code]) c pid ↔
        Forked hist c pid := forked_append hist (by simp)
    have hkeep : ∀ c, pidOf s' c = pidOf s c := by
      intro c
      rw [pidOf, hpcbs, Function.update_apply]
      split
      · rename_i hc
        rw [hc, pidOf_of_pcb hpcb]
        rfl
      · exact map_adopted (fun _ _ _ => rfl) s.pcbs pcb.children c
    refine ⟨?_, ?_, ?_, ?_, ?_, ?_, ?_⟩
    · intro c
      have hsome : (s'.pcbs c).isSome = (s.pcbs c).isSome := by
        have := congrArg Option.isSome (hkeep c)
        simpa [pidOf] using this
      rw [hnext, hreaped, hsome]
      exact h.present c
    · simp only [hnext, hforked]
      exact h.created
    · simp only [hkeep, hforked, hreaped]
      exact h.pid
    · intro c pcb' hpcb' hexit
      rw [exited_append_processExited hist (.threadExited p 0 t₀ code) (by simp) p code] at hexit
      rw [hpcbs, Function.update_apply] at hpcb'
      split at hpcb'
      · rename_i hc
        cases hpcb'
        rw [hc]
        simp [Pcb.exited]
      · rename_i hc
        obtain ⟨pcb₀, hpcb₀, rfl⟩ := adopted_some hpcb'
        exact List.mem_append_left _ (h.code c pcb₀ hpcb₀ (hexit.resolve_left hc))
    · simp only [hnext, hreaped]
      exact h.known
    · simp only [hforked]
      exact h.not_daemon
    · exact h.due.append (by simp [ReapDue])

theorem logged_boot : Logged [.threadCreated daemon 0 0] boot := by
  have hreaped : ∀ c, ¬ Reaped [.threadCreated daemon 0 0] c := by
    intro c hc
    simp [Reaped] at hc
  have hforked : ∀ c pid, ¬ Forked [.threadCreated daemon 0 0] c pid := by
    intro c pid hc
    simp [Forked] at hc
  refine ⟨?_, ?_, ?_, ?_, ?_, ?_, ?_⟩
  · intro c
    by_cases hc : c = daemon
    · rw [hc]
      exact iff_of_true rfl ⟨Nat.zero_lt_one, hreaped daemon⟩
    · have hge : ¬ c < boot.nextProc := fun hlt => hc (Nat.lt_one_iff.mp hlt)
      have hnone : boot.pcbs c = none := by simp [boot, hc]
      exact iff_of_false (by simp [hnone]) fun h => hge h.1
  · intro c
    simp only [hforked, exists_false, or_false]
    exact Nat.lt_one_iff
  · exact fun c pid hc _ => absurd hc (hforked c pid)
  · exact fun c _ _ hexit => absurd hexit (not_exited_start c)
  · exact fun c hc => absurd hc (hreaped c)
  · exact hforked daemon
  · show Always ReapDue ([] ++ [.threadCreated daemon 0 0])
    exact always_concat.mpr ⟨always_nil, trivial⟩

theorem Run.logged (h : Run SingleThreaded hist s) : Logged hist s :=
  h.treeInvariant logged_boot fun hrun hl hchange =>
    hl.step hrun.recorded hrun.named hchange

/-! ### The next call -/

variable {t : Thread} {tcb : Tcb}

/-- What is known of the process that has the hart. -/
theorem Run.current_pcb (h : Run SingleThreaded hist s) (hcur : s.current = some t)
    (htcb : s.tcbs t = some tcb) :
    tcb.res = some 0 ∧ ∃ pcb, s.pcbs tcb.process = some pcb ∧ pcb.tasks = [some t] ∧
      pcb.taskResAllocator = RecycleAllocator.new.alloc.2 ∧ s.pid2process pcb.pid = some tcb.process := by
  have hlive := h.single.current h.seated hcur htcb
  obtain ⟨hres, pcb, hpcb, htasks, halloc⟩ := h.single.main t tcb htcb hlive
  refine ⟨hres, pcb, hpcb, htasks, halloc, ?_⟩
  have hz := h.recorded.live _ (h.filed.pcb_lt hpcb) hlive
  rw [hpcb, Option.map_some] at hz
  exact (h.named.mapped pcb.pid tcb.process).mpr (status_eq.mpr ⟨pcb, hpcb, rfl, Option.some.inj hz⟩)

theorem exit_succeeds (h : Run SingleThreaded hist s) (hcur : s.current = some t)
    (htcb : s.tcbs t = some tcb) (hne : tcb.process ≠ daemon) (code : ℤ) :
    ∃ s', step s (.call (.exit code)) =
      some (s', [.threadExited tcb.process 0 t code, .processExited tcb.process code]) := by
  obtain ⟨hres, pcb, hpcb, htasks, halloc, hmap⟩ := h.current_pcb hcur htcb
  have hpid : pcb.pid ≠ idlePid := by
    intro heq
    have hp := pidOf_of_pcb hpcb
    rw [heq] at hp
    exact hne (h.named.distinct _ _ _ hp h.named.daemon_pid)
  have huse : RecycleAllocator.new.alloc.2.InUse 0 := by decide
  obtain ⟨a, ha⟩ := Option.isSome_iff_exists.mp (RecycleAllocator.dealloc_isSome_iff.mpr huse)
  rw [← halloc] at ha
  simp [step, call, exit, hcur, htcb, hres, deallocTid, State.setTcb, State.setPcb, hpcb, ha, exitMain,
    hpid, hmap, adopt_eq, htasks, takeRes, adopted]

theorem strongCount_eq_zero {c : Proc} (hlists : ∀ q, (childrenOf s q).count c = 0)
    (hmap : ∀ pid, s.pid2process pid ≠ some c) : strongCount s c = 0 := by
  simp [strongCount, hlists, hmap]

theorem reap_succeeds (h : Run SingleThreaded hist s) {p child : Proc} {pcb childPcb : Pcb}
    {l r : List Proc} (hpcb : s.pcbs p = some pcb) (hchildren : pcb.children = l ++ child :: r)
    (hchild : s.pcbs child = some childPcb) (hzombie : childPcb.isZombie = true) :
    strongCount (s.setPcb p { pcb with children := l ++ r }) child = 0 ∧
      ∃ a, s.pidAllocator.dealloc childPcb.pid = some a := by
  constructor
  · have heq : childrenOf s p = l ++ child :: r := (childrenOf_of_pcb hpcb).trans hchildren
    have hlists : childrenOf (s.setPcb p { pcb with children := l ++ r }) =
        Function.update (childrenOf s) p (l ++ r) := by
      funext q
      rw [childrenOf, State.setPcb, Function.update_apply]
      by_cases hq : q = p
      · simp [hq]
      · simp [hq, childrenOf]
    refine strongCount_eq_zero ?_ ?_
    · rw [hlists]
      exact (h.family.spread.remove heq).nowhere fun hx => hx.2 rfl
    · intro pid hmap
      have hz := (h.named.pcb_of_mapped hmap hchild).2
      rw [hzombie] at hz
      cases hz
  · have huse := h.named.inUse child _ (pidOf_of_pcb hchild)
    exact Option.isSome_iff_exists.mp (RecycleAllocator.dealloc_isSome_iff.mpr huse)

/-- What `waitpid` answers to a process `p`. -/
structure WaitpidAnswers (hist : History) (s : State) (p : Proc) (pid : ℤ) (s' : State) (result : ℤ)
    (events : History) : Prop where
  none_matches : result = -1 ↔ ∀ c ∈ childrenOf s p, matchesPid s pid c = false
  none_exited : result = -2 ↔ (∃ c ∈ childrenOf s p, matchesPid s pid c = true) ∧
    ∀ c ∈ childrenOf s p, matchesPid s pid c = true → ¬ Exited hist c
  reaps : (∃ c ∈ childrenOf s p, matchesPid s pid c = true ∧ Exited hist c) →
    ∃ c ∈ childrenOf s p, matchesPid s pid c = true ∧ Exited hist c ∧
      ∃ pcb, s.pcbs c = some pcb ∧ .processExited c pcb.exitCode ∈ hist ∧ result = pcb.pid ∧
        events = [.reaped p c pcb.pid pcb.exitCode] ∧ s'.pcbs c = none ∧ ∀ q, c ∉ childrenOf s' q

theorem waitpid_answers (h : Run SingleThreaded hist s) (hcur : s.current = some t)
    (htcb : s.tcbs t = some tcb) (pid : ℤ) :
    ∃ s' result events, step s (.call (.waitpid pid)) =
      some (s', .waitpidReturned tcb.process pid result :: events) ∧
        WaitpidAnswers hist s tcb.process pid s' result events := by
  obtain ⟨_, pcb, hpcb, _, _, _⟩ := h.current_pcb hcur htcb
  have hlist := childrenOf_of_pcb hpcb
  have hzombie : ∀ c ∈ childrenOf s tcb.process, isZombie s c = true ↔ Exited hist c :=
    fun c hc => isZombie_iff h.recorded h.filed (h.family.isSome_of_mem hc)
  have hstep : step s (.call (.waitpid pid)) = waitpid s t pid := by
    simp [step, call, hcur]
  by_cases hany : (childrenOf s tcb.process).any (matchesPid s pid) = true
  · obtain ⟨m, hm, hmatch⟩ := List.any_eq_true.mp hany
    have hsome : ¬ ∀ c ∈ childrenOf s tcb.process, matchesPid s pid c = false := by
      intro hall
      rw [hall m hm] at hmatch
      cases hmatch
    cases hfind : (childrenOf s tcb.process).find?
        fun child => isZombie s child && matchesPid s pid child with
    | none =>
      have hnone : ∀ c ∈ childrenOf s tcb.process, matchesPid s pid c = true → ¬ Exited hist c := by
        intro c hc hcm hexit
        have hnot := List.find?_eq_none.mp hfind c hc
        simp [hcm, (hzombie c hc).mpr hexit] at hnot
      have hresult : waitpid s t pid = some (s, [.waitpidReturned tcb.process pid (-2)]) := by
        simp only [waitpid, htcb, hpcb, Option.bind_eq_bind, Option.bind_some, ← hlist, if_pos hany, hfind]
      refine ⟨s, -2, [], hstep.trans hresult, ?_, ?_, ?_⟩
      · exact iff_of_false (by decide) hsome
      · exact iff_of_true rfl ⟨⟨m, hm, hmatch⟩, hnone⟩
      · rintro ⟨c, hc, hcm, hexit⟩
        exact absurd hexit (hnone c hc hcm)
    | some child =>
      obtain ⟨hboth, l, r, hchildren, herase⟩ := eraseP_of_find hfind
      rw [Bool.and_eq_true] at hboth
      have hmem : child ∈ childrenOf s tcb.process := by
        rw [hchildren]
        simp
      have hexit := (hzombie child hmem).mp hboth.1
      obtain ⟨childPcb, hchild⟩ := Option.isSome_iff_exists.mp (h.family.isSome_of_mem hmem)
      have hz : childPcb.isZombie = true := by
        have := hboth.1
        rw [isZombie, hchild] at this
        exact this
      obtain ⟨hcount, a, ha⟩ := reap_succeeds h hpcb (hlist.symm.trans hchildren) hchild hz
      have hresult : waitpid s t pid = some
          ({ s with
              pcbs := Function.update (Function.update s.pcbs tcb.process
                (some { pcb with children := l ++ r })) child none
              pidAllocator := a },
            [.waitpidReturned tcb.process pid childPcb.pid,
              .reaped tcb.process child childPcb.pid childPcb.exitCode]) := by
        simp only [waitpid, htcb, hpcb, Option.bind_eq_bind, Option.bind_some, ← hlist, if_pos hany, hfind,
          herase, hcount, ne_eq, not_true_eq_false, if_false, hchild, ha]
        rfl
      have hrun' := h.step (by simp [SingleThreaded]) (hstep.trans hresult)
      refine ⟨_, childPcb.pid, _, hstep.trans hresult, ?_, ?_, ?_⟩
      · exact iff_of_false (by omega) hsome
      · refine iff_of_false (by omega) ?_
        rintro ⟨_, hnone⟩
        exact hnone child hmem hboth.2 hexit
      · intro _
        refine ⟨child, hmem, hboth.2, hexit, childPcb, hchild, h.logged.code child childPcb hchild hexit,
          rfl, rfl, Function.update_self _ _ _, ?_⟩
        intro q hq
        have hsome' := hrun'.family.isSome_of_mem hq
        simp only [Function.update_self] at hsome'
        cases hsome'
  · have hresult : waitpid s t pid = some (s, [.waitpidReturned tcb.process pid (-1)]) := by
      simp only [waitpid, htcb, hpcb, Option.bind_eq_bind, Option.bind_some, ← hlist, if_neg hany]
    have hnone : ∀ c ∈ childrenOf s tcb.process, matchesPid s pid c = false := by
      intro c hc
      by_contra hne
      exact hany (List.any_eq_true.mpr ⟨c, hc, by simpa using hne⟩)
    refine ⟨s, -1, [], hstep.trans hresult, ?_, ?_, ?_⟩
    · exact iff_of_true rfl hnone
    · refine iff_of_false (by decide) ?_
      rintro ⟨⟨c, hc, hcm⟩, _⟩
      rw [hnone c hc] at hcm
      cases hcm
    · rintro ⟨c, hc, hcm, _⟩
      rw [hnone c hc] at hcm
      cases hcm

end

/-- What holds of the processes in a state, and of the next `exit` and `waitpid`. -/
structure ProcessTree (hist : History) (s : State) : Prop where
  /-- each unreaped process but the daemon is once in one list of children, that of its parent -/
  one_parent : ∀ c pid, Forked hist c pid → ¬ Reaped hist c →
    ∃ p, parentOf s c = some p ∧ ∀ q, (childrenOf s q).count c = if q = p then 1 else 0
  /-- an exiting process leaves all its children to the daemon -/
  adopts : ∀ t tcb code, s.current = some t → s.tcbs t = some tcb → tcb.process ≠ daemon →
    ∃ s' events, step s (.call (.exit code)) = some (s', events) ∧
      .processExited tcb.process code ∈ events ∧ childrenOf s' tcb.process = [] ∧
        ∀ c ∈ childrenOf s tcb.process, c ∈ childrenOf s' daemon ∧ parentOf s' c = some daemon
  /-- an unreaped process keeps the pid that it got -/
  pid_kept : ∀ c pid, Forked hist c pid → ¬ Reaped hist c → pidOf s c = some pid
  pids_distinct : ∀ c c' pid, pidOf s c = some pid → pidOf s c' = some pid → c = c'
  reaped_once : Always ReapDue hist
  waits : ∀ t tcb pid, s.current = some t → s.tcbs t = some tcb →
    ∃ s' result events, step s (.call (.waitpid pid)) =
      some (s', .waitpidReturned tcb.process pid result :: events) ∧
        WaitpidAnswers hist s tcb.process pid s' result events

/-- **The process tree.**  In every run of single-threaded processes the unreaped processes form a tree, with
distinct pids, and `waitpid` returns and reaps as it should. -/
theorem process_tree {hist : History} {s : State} (h : Run SingleThreaded hist s) :
    ProcessTree hist s := by
  have hfamily := h.family
  have hlogged := h.logged
  have hnamed := h.named
  refine ⟨?_, ?_, hlogged.pid, hnamed.distinct, hlogged.due, ?_⟩
  · intro c pid hforked hreaped
    have hdaemon : c ≠ daemon := fun heq => hlogged.not_daemon pid (heq ▸ hforked)
    have hsome : (s.pcbs c).isSome :=
      (hlogged.present c).mpr ⟨(hlogged.created c).mpr (Or.inr ⟨pid, hforked⟩), hreaped⟩
    obtain ⟨p, hp⟩ := hfamily.spread.once ⟨hsome, hdaemon⟩
    have hmem : c ∈ childrenOf s p := by
      rw [← List.count_pos_iff, hp p, if_pos rfl]
      exact Nat.zero_lt_one
    exact ⟨p, hfamily.parent p c hmem, hp⟩
  · intro t tcb code hcur htcb hne
    obtain ⟨s', hstep⟩ := exit_succeeds h hcur htcb hne code
    refine ⟨s', _, hstep, by simp, ?_⟩
    have hchange := h.single.change h.seated h.filed h.recorded (by simp [SingleThreaded])
      (step_effect hstep)
    cases hchange with
    | quiet htables hquiet =>
      have hexit := hquiet (.processExited tcb.process code) (by simp)
      cases hexit
    | exit hlive hpcb hpid htasks hpcbs htcbs hnext hallocator hmap =>
      obtain ⟨daemonPcb, hdaemon, _⟩ := Option.map_eq_some_iff.mp hnamed.daemon_pid
      have hlists := childrenOf_exit hpcb hdaemon hne hpcbs
      refine ⟨?_, ?_⟩
      · rw [hlists, Function.update_of_ne hne, Function.update_self]
      · intro c hc
        rw [parentOf_exit hpcb (hfamily.isSome_of_mem hc) hpcbs, if_pos hc, hlists, Function.update_self]
        exact ⟨List.mem_append_right _ hc, rfl⟩
  · intro t tcb pid hcur htcb
    exact waitpid_answers h hcur htcb pid

/-- A child forks a grandchild and exits before it; the daemon reaps both, and their pids are used again. -/
theorem process_tree_orphan : ∃ hist s, Run SingleThreaded hist s ∧
    (.reaped 0 1 1 7 ∈ hist ∧ .reaped 0 2 2 9 ∈ hist ∧ .forked 0 3 2 ∈ hist) ∧ ProcessTree hist s := by
  obtain ⟨hist, s, hrun, hP⟩ := exists_run SingleThreaded
    (fun hist _ => .reaped 0 1 1 7 ∈ hist ∧ .reaped 0 2 2 9 ∈ hist ∧ .forked 0 3 2 ∈ hist)
    [.dispatch, .call .fork, .call .yield, .dispatch, .call .fork, .call (.exit 7), .dispatch,
      .call (.waitpid (-1)), .call .yield, .dispatch, .call (.exit 9), .dispatch, .call (.waitpid 2),
      .call .fork] (by decide)
  exact ⟨hist, s, hrun, hP, process_tree hrun⟩

end LemonCore.Kernel.Processes
