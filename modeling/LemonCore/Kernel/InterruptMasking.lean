import Mathlib
import LemonCore.Kernel.Sync

/-!
# Masking interrupts (`kernel/src/sync/up.rs`, `kernel/src/trap/mod.rs`)

Every guard of a `UPIntrFreeCell` masks supervisor interrupts.  One counter of live guards and one saved
bit serve the whole kernel: the outermost `enter` saves the bit, the `exit` that brings the counter to zero
restores it.  `user_handler` sets the bit directly when a system call comes in, and `__switch` leaves it
as it is.

* `Cpu.enter`, `Cpu.exit`: `IntrMaskingInfo` with the bit it works on;
* `State`, `Step`, `Run`: tasks that acquire and release guards, enter and leave the kernel, are
  interrupted and are switched, also while they hold guards;
* `Masked`: while a guard of the running task is live the bit is clear.  This needs no condition, because
  `schedule` and the idle loop acquire guards themselves before they switch;
* `Exclusive`: if no task is switched out while it holds a guard, all live guards are the running task's;
* `interrupt_bit_restored`: both together;
* `release_after_switch_keeps_masked`: a guard held across a switch makes another task lose its bit.
-/

namespace LemonCore.Kernel.InterruptMasking

/-! ### The counter and the bit -/

/-- `IntrMaskingInfo`, and the `SIE` bit of `sstatus`. -/
structure Cpu where
  nestedLevel : ℕ
  sieBeforeMasking : Bool
  sie : Bool
  deriving DecidableEq, Repr

namespace Cpu

/-- `IntrMaskingInfo::enter`. -/
def enter (c : Cpu) : Cpu where
  nestedLevel := c.nestedLevel + 1
  sieBeforeMasking := if c.nestedLevel = 0 then c.sie else c.sieBeforeMasking
  sie := false

/-- `IntrMaskingInfo::exit`. -/
def exit (c : Cpu) : Cpu where
  nestedLevel := c.nestedLevel - 1
  sieBeforeMasking := c.sieBeforeMasking
  sie := if c.nestedLevel - 1 = 0 ∧ c.sieBeforeMasking = true then true else c.sie

/-- A guard that is acquired and released at once. -/
def session (c : Cpu) : Cpu := c.enter.exit

/-- `schedule`: it accesses `PROCESSOR`, then switches. -/
def schedule (c : Cpu) : Cpu := c.session

/-- A turn of the idle loop: `manager::fetch`, then `PROCESSOR` and inside it the task, then the switch. -/
def dispatch (c : Cpu) : Cpu := c.session.enter.session.exit

/-- A handler of an interrupt that the idle loop takes: the trap clears the bit, the return sets it. -/
def interrupted (c : Cpu) : Cpu := { { c with sie := false }.session with sie := true }

theorem session_sie {c : Cpu} (h : 0 < c.nestedLevel) : c.session.sie = false := by
  have hlevel : ¬ (c.nestedLevel + 1 - 1 = 0 ∧ c.enter.sieBeforeMasking = true) := by
    rintro ⟨hzero, _⟩
    omega
  exact if_neg hlevel

theorem dispatch_sie {c : Cpu} (h : 0 < c.nestedLevel) : c.dispatch.sie = false := by
  have hlevel : ¬ (c.nestedLevel + 1 - 1 = 0 ∧ c.session.enter.session.sieBeforeMasking = true) := by
    rintro ⟨hzero, _⟩
    omega
  have hinner : c.session.enter.session.sie = false := session_sie (Nat.succ_pos _)
  exact (if_neg hlevel).trans hinner

end Cpu

/-! ### The machine -/

structure State where
  cpu : Cpu
  /-- the task whose code runs; `none` in the idle loop -/
  running : Option Task
  /-- is the task in user mode? -/
  user : Task → Bool
  /-- the owners of the live guards -/
  guards : List Task
  /-- the bit when the task acquired the first of the guards it holds -/
  first : Task → Bool
  /-- the interrupt handlers on the kernel stack of the running task -/
  handlers : ℕ

namespace State

variable (s : State)

/-- `UPIntrFreeCell::exclusive_access` by `t`. -/
def acquire (t : Task) : State :=
  { s with
    cpu := s.cpu.enter
    guards := t :: s.guards
    first := if t ∈ s.guards then s.first else Function.update s.first t s.cpu.sie }

/-- `t` drops a guard. -/
def release (t : Task) : State := { s with cpu := s.cpu.exit, guards := s.guards.erase t }

def setSie (sie : Bool) : State := { s with cpu := { s.cpu with sie := sie } }

def boot : State := ⟨⟨0, false, false⟩, none, fun _ => false, [], fun _ => false, 0⟩

end State

/-- What can happen next; `ok` restricts the states in which the running task gives up the hart. -/
inductive Step (ok : State → Prop) (s : State) : State → Prop where
  | acquire {t : Task} (hrun : s.running = some t) (huser : s.user t = false) : Step ok s (s.acquire t)
  | release {t : Task} (hrun : s.running = some t) (hguard : t ∈ s.guards) : Step ok s (s.release t)
  /-- `user_handler`: the trap clears the bit, and for a system call it is set again -/
  | trap {t : Task} (syscall : Bool) (hrun : s.running = some t) (huser : s.user t = true) :
      Step ok s ({ s with user := Function.update s.user t false }.setSie syscall)
  /-- `trap::leave`; in user mode the bit is what the trap context says -/
  | leave {t : Task} (sie : Bool) (hrun : s.running = some t) (huser : s.user t = false)
      (hguard : t ∉ s.guards) (hhandlers : s.handlers = 0) :
      Step ok s ({ s with user := Function.update s.user t true }.setSie sie)
  /-- `__alltraps_k`: an interrupt in the kernel -/
  | interrupt {t : Task} (hrun : s.running = some t) (huser : s.user t = false)
      (hsie : s.cpu.sie = true) : Step ok s ({ s with handlers := s.handlers + 1 }.setSie false)
  /-- `__restore_k` -/
  | interruptReturn {t : Task} (hrun : s.running = some t) (hguard : t ∉ s.guards)
      (hhandlers : 0 < s.handlers) :
      Step ok s ({ s with handlers := s.handlers - 1 }.setSie true)
  /-- the running task calls `schedule`, which no interrupt handler does -/
  | schedule {t : Task} (hrun : s.running = some t) (huser : s.user t = false)
      (hhandlers : s.handlers = 0) (hok : ok s) :
      Step ok s { s with cpu := s.cpu.schedule, running := none }
  | dispatch {t : Task} (hrun : s.running = none) (huser : s.user t = false) :
      Step ok s { s with cpu := s.cpu.dispatch, running := some t }
  | idleInterrupt (hrun : s.running = none) (hsie : s.cpu.sie = true) :
      Step ok s { s with cpu := s.cpu.interrupted }

inductive Run (ok : State → Prop) : State → Prop where
  | boot : Run ok .boot
  | step {s s' : State} (h : Run ok s) (hstep : Step ok s s') : Run ok s'

variable {ok : State → Prop} {s s' : State} {t : Task}

/-! ### While a guard is held -/

/-- The counter counts the live guards, and the bit is clear while the running task holds one, and in the
idle loop while anybody does. -/
structure Masked (s : State) : Prop where
  level : s.cpu.nestedLevel = s.guards.length
  user : ∀ t, s.user t = true → t ∉ s.guards
  held : ∀ t, s.running = some t → t ∈ s.guards → s.cpu.sie = false
  idle : s.running = none → s.guards ≠ [] → s.cpu.sie = false

theorem Masked.boot : Masked .boot :=
  ⟨rfl, fun _ _ => List.not_mem_nil, fun _ hrun => (by cases hrun), fun _ hne => absurd rfl hne⟩

theorem Masked.release (h : Masked s) (hrun : s.running = some t) (hguard : t ∈ s.guards) :
    Masked (s.release t) := by
  have hlength : (s.release t).guards.length = s.guards.length - 1 := List.length_erase_of_mem hguard
  have hlevel : (s.release t).cpu.nestedLevel = (s.release t).guards.length := by
    show s.cpu.nestedLevel - 1 = _
    rw [hlength, h.level]
  refine ⟨hlevel, fun u hu hmem => h.user u hu (List.mem_of_mem_erase hmem), ?_, ?_⟩
  · intro u hu hmem
    -- a guard is left, so `exit` does not touch the bit
    have hpos : (s.release t).guards.length ≠ 0 := by
      intro hzero
      rw [List.length_eq_zero_iff.mp hzero] at hmem
      cases hmem
    show (if s.cpu.nestedLevel - 1 = 0 ∧ _ then true else s.cpu.sie) = false
    rw [if_neg fun hexit => hpos (hlevel ▸ hexit.1)]
    exact h.held u hu (List.mem_of_mem_erase hmem)
  · intro hnone
    rw [show (s.release t).running = s.running from rfl, hrun] at hnone
    cases hnone

/-- One step keeps interrupts masked. -/
theorem Masked.step (h : Masked s) (hstep : Step ok s s') : Masked s' := by
  have hpos : s.guards ≠ [] → 0 < s.cpu.nestedLevel := by
    intro hne
    rw [h.level]
    exact List.length_pos_iff.mpr hne
  cases hstep with
  | @acquire t hrun huser =>
    refine ⟨congrArg (· + 1) h.level, ?_, fun _ _ _ => rfl, fun _ _ => rfl⟩
    intro u hu hmem
    rcases List.mem_cons.mp hmem with heq | hmem
    · rw [heq] at hu
      exact absurd (huser.symm.trans hu) (by simp)
    · exact h.user u hu hmem
  | release hrun hguard => exact h.release hrun hguard
  | @trap t syscall hrun huser =>
    refine ⟨h.level, ?_, ?_, fun hnone => absurd (hnone.symm.trans hrun) (by simp)⟩
    · intro u hu
      by_cases hut : u = t
      · rw [hut]
        exact h.user t huser
      · exact h.user u ((Function.update_of_ne hut _ _).symm.trans hu)
    · intro u hu hmem
      have hut : u = t := Option.some.inj (hu.symm.trans hrun)
      exact absurd (hut ▸ hmem) (h.user t huser)
  | @leave t sie hrun huser hguard hhandlers =>
    refine ⟨h.level, ?_, ?_, fun hnone => absurd (hnone.symm.trans hrun) (by simp)⟩
    · intro u hu
      by_cases hut : u = t
      · rw [hut]
        exact hguard
      · exact h.user u ((Function.update_of_ne hut _ _).symm.trans hu)
    · intro u hu hmem
      have hut : u = t := Option.some.inj (hu.symm.trans hrun)
      exact absurd (hut ▸ hmem) hguard
  | interrupt hrun huser hsie => exact ⟨h.level, h.user, fun _ _ _ => rfl, fun _ _ => rfl⟩
  | interruptReturn hrun hguard hhandlers =>
    refine ⟨h.level, h.user, ?_, fun hnone => absurd (hnone.symm.trans hrun) (by simp)⟩
    intro u hu hmem
    have hut := Option.some.inj (hu.symm.trans hrun)
    exact absurd (hut ▸ hmem) hguard
  | schedule hrun huser hhandlers hok =>
    exact ⟨h.level, h.user, fun _ hnone => (by cases hnone), fun _ hne => Cpu.session_sie (hpos hne)⟩
  | dispatch hrun huser =>
    refine ⟨h.level, h.user, fun u _ hmem => ?_, fun hnone => (by cases hnone)⟩
    exact Cpu.dispatch_sie (hpos (List.ne_nil_of_mem hmem))
  | idleInterrupt hrun hsie =>
    have hnil : s.guards = [] := by
      by_contra hne
      rw [h.idle hrun hne] at hsie
      cases hsie
    exact ⟨h.level, h.user, fun u hu => absurd (hrun.symm.trans hu) (by simp),
      fun _ hne => absurd hnil hne⟩

theorem Run.masked (h : Run ok s) : Masked s := by
  induction h with
  | boot => exact .boot
  | step _ hstep ih => exact ih.step hstep

/-! ### When the last guard is released -/

/-- All live guards are the running task's, and the bit it is to get back is the saved one. -/
structure Exclusive (s : State) : Prop where
  owner : ∀ t ∈ s.guards, s.running = some t
  saved : ∀ t ∈ s.guards, s.cpu.sieBeforeMasking = s.first t

theorem Exclusive.of_nil (h : s.guards = []) : Exclusive s := by
  constructor
  · rw [h]
    exact fun _ hmem => absurd hmem List.not_mem_nil
  · rw [h]
    exact fun _ hmem => absurd hmem List.not_mem_nil

theorem Exclusive.nil_of_not_mem (h : Exclusive s) (hrun : s.running = some t) (hguard : t ∉ s.guards) :
    s.guards = [] := by
  refine List.eq_nil_iff_forall_not_mem.mpr fun u hu => hguard ?_
  rw [← Option.some.inj ((h.owner u hu).symm.trans hrun)]
  exact hu

theorem Exclusive.nil_of_idle (h : Exclusive s) (hidle : s.running = none) : s.guards = [] := by
  refine List.eq_nil_iff_forall_not_mem.mpr fun u hu => ?_
  exact absurd ((h.owner u hu).symm.trans hidle) (by simp)

theorem Exclusive.release (h : Exclusive s) : Exclusive (s.release t) :=
  ⟨fun u hu => h.owner u (List.mem_of_mem_erase hu), fun u hu => h.saved u (List.mem_of_mem_erase hu)⟩

theorem Exclusive.acquire (h : Exclusive s) (hmasked : Masked s) (hrun : s.running = some t) :
    Exclusive (s.acquire t) := by
  constructor
  · intro u hu
    rcases List.mem_cons.mp hu with heq | hu
    · rw [heq]
      exact hrun
    · exact h.owner u hu
  · intro u hu
    have hut : u = t := by
      rcases List.mem_cons.mp hu with heq | hu
      · exact heq
      · exact Option.some.inj ((h.owner u hu).symm.trans hrun)
    rw [hut]
    show (if s.cpu.nestedLevel = 0 then s.cpu.sie else s.cpu.sieBeforeMasking) =
      (if t ∈ s.guards then s.first else Function.update s.first t s.cpu.sie) t
    by_cases hguard : t ∈ s.guards
    · have hlevel : s.cpu.nestedLevel ≠ 0 := by
        rw [hmasked.level]
        exact List.length_pos_iff.mpr (List.ne_nil_of_mem hguard) |>.ne'
      rw [if_neg hlevel, if_pos hguard]
      exact h.saved t hguard
    · -- nobody else holds a guard, so this one is the outermost
      have hnil := h.nil_of_not_mem hrun hguard
      rw [if_pos (by rw [hmasked.level, hnil]; rfl), if_neg hguard, Function.update_self]

/-- One step keeps the guards exclusive, if a task that gives up the hart holds none. -/
theorem Exclusive.step (h : Exclusive s) (hmasked : Masked s)
    (hok : ∀ s t, ok s → s.running = some t → t ∉ s.guards) (hstep : Step ok s s') : Exclusive s' := by
  cases hstep with
  | acquire hrun huser => exact h.acquire hmasked hrun
  | release hrun hguard => exact h.release
  | trap syscall hrun huser => exact .of_nil (h.nil_of_not_mem hrun (hmasked.user _ huser))
  | leave sie hrun huser hguard hhandlers => exact .of_nil (h.nil_of_not_mem hrun hguard)
  | interrupt hrun huser hsie =>
    refine .of_nil (h.nil_of_not_mem hrun fun hguard => ?_)
    rw [hmasked.held _ hrun hguard] at hsie
    cases hsie
  | interruptReturn hrun hguard hhandlers => exact .of_nil (h.nil_of_not_mem hrun hguard)
  | schedule hrun huser hhandlers hswitch =>
    exact .of_nil (h.nil_of_not_mem hrun (hok s _ hswitch hrun))
  | dispatch hrun huser => exact .of_nil (h.nil_of_idle hrun)
  | idleInterrupt hrun hsie => exact .of_nil (h.nil_of_idle hrun)

theorem Run.exclusive (h : Run ok s) (hok : ∀ s t, ok s → s.running = some t → t ∉ s.guards) :
    Exclusive s := by
  induction h with
  | boot => exact .of_nil rfl
  | step hrun hstep ih => exact ih.step hrun.masked hok hstep

theorem Exclusive.release_sie (h : Exclusive s) (hmasked : Masked s) (hrun : s.running = some t)
    (hguard : t ∈ s.guards) (hlast : t ∉ (s.release t).guards) : (s.release t).cpu.sie = s.first t := by
  have hnil : (s.release t).guards = [] := h.release.nil_of_not_mem hrun hlast
  have hlevel : s.cpu.nestedLevel - 1 = 0 := by
    have := (hmasked.release hrun hguard).level
    rw [hnil] at this
    exact this
  show (if s.cpu.nestedLevel - 1 = 0 ∧ s.cpu.sieBeforeMasking = true then true else s.cpu.sie) = _
  rw [h.saved t hguard, hmasked.held t hrun hguard]
  cases hfirst : s.first t with
  | true => rw [if_pos ⟨hlevel, rfl⟩]
  | false => rw [if_neg fun hbit => Bool.false_ne_true hbit.2]

/-- **Interrupts and guards.**  In every state of every run, interrupts are disabled while the running task
holds a guard.  If moreover no task of the run gives up the hart while it holds a guard, then the release
of the last guard of a task leaves the bit as it was when the task acquired the first one. -/
theorem interrupt_bit_restored (h : Run ok s) :
    (∀ t, s.running = some t → t ∈ s.guards → s.cpu.sie = false) ∧
    ((∀ s t, ok s → s.running = some t → t ∉ s.guards) →
      ∀ t, s.running = some t → t ∈ s.guards → t ∉ (s.release t).guards →
        (s.release t).cpu.sie = s.first t) :=
  ⟨h.masked.held, fun hok _ hrun hguard hlast =>
    (h.exclusive hok).release_sie h.masked hrun hguard hlast⟩

/-- A system call that acquires two guards, one inside the other, and has released the inner one. -/
theorem interrupt_bit_restored_nested :
    ∃ s, Run (fun s => ∀ t, s.running = some t → t ∉ s.guards) s ∧ s.running = some 1 ∧
      s.guards = [1] ∧ s.cpu.sie = false ∧ (s.release 1).cpu.sie = s.first 1 ∧ s.first 1 = true := by
  have hboot : Run (fun s => ∀ t, s.running = some t → t ∉ s.guards) _ := .boot
  have hrun := ((((((hboot.step (.dispatch (t := 1) rfl rfl)).step
    (.leave false rfl rfl List.not_mem_nil rfl)).step
    (.trap true rfl rfl)).step (.acquire rfl rfl)).step (.acquire rfl rfl)).step
    (.release rfl List.mem_cons_self))
  obtain ⟨hmasked, hrestored⟩ := interrupt_bit_restored hrun
  exact ⟨_, hrun, rfl, rfl, hmasked 1 rfl List.mem_cons_self,
    hrestored (fun _ t hok => hok t) 1 rfl List.mem_cons_self (by decide), rfl⟩

/-- Task 1 reads a file: it holds the guard of the `OSInode` while it waits for the disk.  Task 2 makes a
system call meanwhile; interrupts are enabled when it acquires a guard, and disabled after it has released
it. -/
theorem release_after_switch_keeps_masked :
    ∃ s, Run (fun _ => True) s ∧ s.running = some 2 ∧ 2 ∈ s.guards ∧ 2 ∉ (s.release 2).guards ∧
      s.first 2 = true ∧ (s.release 2).cpu.sie = false := by
  have hboot : Run (fun _ => True) _ := .boot
  have hread := ((((hboot.step (.dispatch (t := 1) rfl rfl)).step
    (.leave false rfl rfl List.not_mem_nil rfl)).step (.trap true rfl rfl)).step
    (.acquire rfl rfl)).step (.schedule rfl rfl rfl trivial)
  have hcall := (((hread.step (.dispatch (t := 2) rfl rfl)).step
    (.leave false rfl rfl (by decide) rfl)).step (.trap true rfl rfl)).step (.acquire rfl rfl)
  exact ⟨_, hcall, rfl, List.mem_cons_self, by decide, rfl, rfl⟩

end LemonCore.Kernel.InterruptMasking
