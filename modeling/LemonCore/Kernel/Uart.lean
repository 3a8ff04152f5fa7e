import Mathlib
import LemonCore.Kernel.DeviceQueue

/-!
# The serial port (`kernel/src/drivers/chardev/ns16550a.rs`)

Tasks call `NS16550a::read`; bytes arrive at the device, and interrupts move them into the driver's
buffer.  Interrupts are taken between any two sections, also after a reader has put itself into the wait
queue and before it has given up the hart.

* `System`, `Step`, `Run`: the driver, the tasks and the scheduler; what a task does when it is not in
  `read` is left open, and so is when bytes arrive and when interrupts are taken;
* `Placed`: where the readers are, an invariant of every run;
* `Covered`: while readers wait, every buffered byte has a woken reader of its own on its way.  An
  interrupt signals once however many bytes it moved, so this needs `Modest` interrupts;
* `uart_read`: the bytes are returned in the order of arrival, and none is stranded if the interrupts are
  modest;
* `second_byte_stranded`: two readers wait, two bytes arrive with one interrupt, one reader is woken.
-/

namespace LemonCore.Kernel.Uart

variable {t : Task}

/-- Where a task is. -/
inductive Pc where
  /-- not in `read` -/
  | user
  /-- before the first turn of the loop of `read` -/
  | read
  /-- in the wait queue, before the call of `schedule` that ends the turn -/
  | schedule
  /-- off the hart since then; another turn follows -/
  | again
  deriving DecidableEq, Repr

structure System where
  /-- what the device has received and the driver has not read yet -/
  fifo : List UInt8
  queue : DeviceQueue UInt8
  /-- the task whose code runs; `none` in the idle loop -/
  hart : Option Task
  /-- `Processor::current` -/
  current : Option Task
  readyQueue : List Task
  pc : Task → Pc

inductive Event where
  | arrived (byte : UInt8)
  | returned (reader : Task) (byte : UInt8)
  deriving DecidableEq, Repr

/-- The bytes that arrived. -/
def arrivals (hist : List Event) : List UInt8 :=
  hist.filterMap fun
    | .arrived byte => some byte
    | .returned _ _ => none

/-- The bytes that were returned, each with its reader. -/
def returns (hist : List Event) : List (Task × UInt8) :=
  hist.filterMap fun
    | .arrived _ => none
    | .returned reader byte => some (reader, byte)

namespace System

variable (s : System)

def setPc (t : Task) (pc : Pc) : System := { s with pc := Function.update s.pc t pc }

def waitQueue : List Task := s.queue.condvar.waitQueue

/-- `handle_irq`, and `manager::wakeup` of the task that its signal pops. -/
def irq : System :=
  let (woken, queue) := s.queue.handleIrq s.fifo
  { s with fifo := [], queue := queue, readyQueue := s.readyQueue ++ woken.toList }

def boot : System := ⟨[], .new, none, none, [], fun _ => .user⟩

end System

/-- What can happen next; `ok` restricts the states in which an interrupt is taken. -/
inductive Step (ok : System → Prop) (s : System) : List Event → System → Prop where
  | receive (byte : UInt8) : Step ok s [.arrived byte] { s with fifo := s.fifo ++ [byte] }
  | irq (hok : ok s) : Step ok s [] s.irq
  | call {t : Task} (hhart : s.hart = some t) (hpc : s.pc t = .user) : Step ok s [] (s.setPc t .read)
  | take {t : Task} {byte : UInt8} {queue : DeviceQueue UInt8} (hhart : s.hart = some t)
      (hpc : s.pc t = .read ∨ s.pc t = .again)
      (hread : s.queue.read s.current = some (some byte, queue)) :
      Step ok s [.returned t byte] ({ s with queue := queue }.setPc t .user)
  /-- `wait_no_sched`: the task queues itself and is no longer the current one -/
  | wait {t : Task} {queue : DeviceQueue UInt8} (hhart : s.hart = some t)
      (hpc : s.pc t = .read ∨ s.pc t = .again) (hread : s.queue.read s.current = some (none, queue)) :
      Step ok s [] ({ s with queue := queue, current := none }.setPc t .schedule)
  | switch {t : Task} (hhart : s.hart = some t) (hpc : s.pc t = .schedule) :
      Step ok s [] ({ s with hart := none }.setPc t .again)
  /-- the task is suspended, or blocks, outside `read` -/
  | leave {t : Task} (hhart : s.hart = some t) (hpc : s.pc t = .user) :
      Step ok s [] { s with hart := none, current := none }
  /-- a task outside `read` becomes ready -/
  | arrive {t : Task} (hpc : s.pc t = .user) (hhart : s.hart ≠ some t) (hready : t ∉ s.readyQueue) :
      Step ok s [] { s with readyQueue := s.readyQueue ++ [t] }
  | fetch {t : Task} {readyQueue : List Task} (hhart : s.hart = none)
      (hready : s.readyQueue = t :: readyQueue) :
      Step ok s [] { s with hart := some t, current := some t, readyQueue := readyQueue }

/-- The runs whose interrupts are taken in states with `ok`, with their histories. -/
inductive Run (ok : System → Prop) : List Event → System → Prop where
  | boot : Run ok [] .boot
  | step {hist events : List Event} {s s' : System} (h : Run ok hist s) (hstep : Step ok s events s') :
      Run ok (hist ++ events) s'

/-- A reader that was woken and is still on its way to the next turn of its loop. -/
structure OnItsWay (s : System) (t : Task) : Prop where
  woken : t ∉ s.waitQueue
  coming : (s.pc t = .schedule ∧ t ∈ s.readyQueue) ∨
    (s.pc t = .again ∧ (t ∈ s.readyQueue ∨ s.hart = some t))

/-- Bytes are there and readers wait, but nobody is on the way to take a byte. -/
def Stranded (s : System) : Prop :=
  s.queue.buffer ≠ [] ∧ s.waitQueue ≠ [] ∧ ∀ t, ¬ OnItsWay s t

/-- The interrupt finds at most one byte, or at most one waiting reader. -/
def Modest (s : System) : Prop := s.fifo.length ≤ 1 ∨ s.waitQueue.length ≤ 1

variable {ok : System → Prop} {hist events : List Event} {s s' : System}

/-! ### Where the readers are -/

/-- A waiting reader is in the wait queue only, once; the others are where the scheduler expects them. -/
structure Placed (s : System) : Prop where
  nodup : s.waitQueue.Nodup
  ready : s.readyQueue.Nodup
  waiting : ∀ t ∈ s.waitQueue, t ∉ s.readyQueue ∧
    (s.pc t = .schedule ∨ s.pc t = .again ∧ s.hart ≠ some t)
  leaving : ∀ t, s.pc t = .schedule → s.hart = some t
  running : ∀ t, s.hart = some t → s.pc t ≠ .schedule → s.current = some t ∧ t ∉ s.readyQueue

theorem Placed.boot : Placed .boot :=
  ⟨List.nodup_nil, List.nodup_nil, fun _ hmem => absurd hmem List.not_mem_nil,
    fun _ hpc => (by cases hpc), fun _ hhart => (by cases hhart)⟩

theorem Placed.not_mem (h : Placed s) {t : Task} (hhart : s.hart = some t) (hpc : s.pc t ≠ .schedule) :
    t ∉ s.waitQueue := by
  intro hmem
  rcases (h.waiting t hmem).2 with hsched | ⟨_, hno⟩
  · exact hpc hsched
  · exact hno hhart

theorem Placed.advance {queue : DeviceQueue UInt8} {pc : Pc} (h : Placed s)
    (hqueue : queue.condvar = s.queue.condvar) (hhart : s.hart = some t) (hold : s.pc t ≠ .schedule)
    (hnew : pc ≠ .schedule) : Placed ({ s with queue := queue }.setPc t pc) := by
  have hwait : ({ s with queue := queue }.setPc t pc).waitQueue = s.waitQueue :=
    congrArg Condvar.waitQueue hqueue
  have hother : ∀ u, u ≠ t → ({ s with queue := queue }.setPc t pc).pc u = s.pc u := fun u hu =>
    Function.update_of_ne hu _ _
  have hself : ({ s with queue := queue }.setPc t pc).pc t = pc := Function.update_self _ _ _
  refine ⟨hwait ▸ h.nodup, h.ready, ?_, ?_, ?_⟩
  · intro u hu
    rw [hwait] at hu
    have hut : u ≠ t := fun heq => h.not_mem hhart hold (heq ▸ hu)
    rw [hother u hut]
    exact h.waiting u hu
  · intro u hu
    by_cases hut : u = t
    · rw [hut, hself] at hu
      exact absurd hu hnew
    · rw [hother u hut] at hu
      exact h.leaving u hu
  · intro u hu _
    have hut : u = t := Option.some.inj (hu.symm.trans hhart)
    subst hut
    exact h.running u hhart hold

theorem irq_queues (s : System) :
    (s.irq.waitQueue = s.waitQueue ∧ s.irq.readyQueue = s.readyQueue) ∨
    ∃ task, s.waitQueue = task :: s.irq.waitQueue ∧ s.irq.readyQueue = s.readyQueue ++ [task] := by
  have hready : s.irq.readyQueue = s.readyQueue ++ (s.queue.handleIrq s.fifo).1.toList := rfl
  rcases (s.queue.handleIrq_cases s.fifo).2 with
    ⟨_, hnone, hcondvar⟩ | ⟨_, hempty, hnone, hleft⟩ | ⟨_, task, hsome, hqueue⟩
  · rw [hnone] at hready
    exact Or.inl ⟨congrArg Condvar.waitQueue hcondvar, hready.trans (List.append_nil _)⟩
  · rw [hnone] at hready
    exact Or.inl ⟨hleft.trans hempty.symm, hready.trans (List.append_nil _)⟩
  · rw [hsome] at hready
    exact Or.inr ⟨task, hqueue, hready⟩

theorem Placed.irq (h : Placed s) : Placed s.irq := by
  rcases irq_queues s with ⟨hwait, hready⟩ | ⟨task, hwait, hready⟩
  · refine ⟨hwait ▸ h.nodup, hready ▸ h.ready, ?_, h.leaving, ?_⟩
    · rw [hwait, hready]
      exact h.waiting
    · rw [hready]
      exact h.running
  · have hnodup := h.nodup
    rw [hwait] at hnodup
    obtain ⟨hfirst, hrest⟩ := List.nodup_cons.mp hnodup
    obtain ⟨hnot, _⟩ := h.waiting task (hwait ▸ List.mem_cons_self)
    have hmem : ∀ t, t ∈ s.irq.readyQueue ↔ t ∈ s.readyQueue ∨ t = task := by
      intro t
      rw [hready, List.mem_append, List.mem_singleton]
    refine ⟨hrest, ?_, ?_, h.leaving, ?_⟩
    · rw [hready]
      exact List.nodup_append.mpr ⟨h.ready, List.nodup_singleton task, fun a ha b hb heq =>
        hnot (List.mem_singleton.mp hb ▸ heq ▸ ha)⟩
    · intro t ht
      obtain ⟨hnot', hpc⟩ := h.waiting t (hwait ▸ List.mem_cons_of_mem _ ht)
      refine ⟨fun hin => ?_, hpc⟩
      rcases (hmem t).mp hin with hin | heq
      · exact hnot' hin
      · exact hfirst (heq ▸ ht)
    · intro t hhart hpc
      obtain ⟨hcurrent, hnot'⟩ := h.running t hhart hpc
      refine ⟨hcurrent, fun hin => ?_⟩
      rcases (hmem t).mp hin with hin | heq
      · exact hnot' hin
      · exact h.not_mem hhart hpc (by rw [hwait, heq]; exact List.mem_cons_self)

theorem ne_schedule (h : s.pc t = .read ∨ s.pc t = .again) : s.pc t ≠ .schedule := by
  intro hsched
  rcases h with h | h
  · rw [hsched] at h
    cases h
  · rw [hsched] at h
    cases h

theorem Placed.wait {queue : DeviceQueue UInt8} (h : Placed s) (hhart : s.hart = some t)
    (hpc : s.pc t ≠ .schedule) (hwait : queue.condvar.waitQueue = s.waitQueue ++ [t]) :
    Placed ({ s with queue := queue, current := none }.setPc t .schedule) := by
  have hnew := h.not_mem hhart hpc
  have hready := (h.running t hhart hpc).2
  generalize hs' : ({ s with queue := queue, current := none }.setPc t .schedule) = s'
  have hwait' : s'.waitQueue = s.waitQueue ++ [t] := by
    rw [← hs']
    exact hwait
  have hother : ∀ u, u ≠ t → s'.pc u = s.pc u := by
    intro u hu
    rw [← hs']
    exact Function.update_of_ne hu _ _
  have hself : s'.pc t = .schedule := by
    rw [← hs']
    exact Function.update_self _ _ _
  have hsame : s'.hart = s.hart ∧ s'.readyQueue = s.readyQueue := by
    rw [← hs']
    exact ⟨rfl, rfl⟩
  refine ⟨?_, hsame.2 ▸ h.ready, ?_, ?_, ?_⟩
  · rw [hwait']
    exact List.nodup_append.mpr ⟨h.nodup, List.nodup_singleton t, fun a ha b hb heq =>
      hnew (List.mem_singleton.mp hb ▸ heq ▸ ha)⟩
  · intro u hu
    rw [hwait'] at hu
    rw [hsame.1, hsame.2]
    rcases List.mem_append.mp hu with hu | hu
    · rw [hother u fun heq => hnew (heq ▸ hu)]
      exact h.waiting u hu
    · rw [List.mem_singleton.mp hu]
      exact ⟨hready, Or.inl hself⟩
  · intro u hu
    rw [hsame.1]
    by_cases hut : u = t
    · rw [hut]
      exact hhart
    · rw [hother u hut] at hu
      exact h.leaving u hu
  · intro u hu hu'
    rw [hsame.1] at hu
    have hut : u = t := Option.some.inj (hu.symm.trans hhart)
    exact absurd (hut ▸ hself) hu'

theorem Placed.switch (h : Placed s) (hhart : s.hart = some t) :
    Placed ({ s with hart := none }.setPc t .again) := by
  have hpc : ∀ u, ({ s with hart := none }.setPc t .again).pc u = if u = t then .again else s.pc u :=
    fun u => Function.update_apply _ _ _ _
  refine ⟨h.nodup, h.ready, ?_, ?_, fun _ hnone => (by cases hnone)⟩
  · intro u hu
    obtain ⟨hready, hplace⟩ := h.waiting u hu
    refine ⟨hready, Or.inr ⟨?_, fun hnone => (by cases hnone)⟩⟩
    rw [hpc]
    split
    · rfl
    · rename_i hut
      rcases hplace with hsched | ⟨hagain, _⟩
      · exact absurd (Option.some.inj ((h.leaving u hsched).symm.trans hhart)) hut
      · exact hagain
  · intro u hu
    rw [hpc] at hu
    split at hu
    · cases hu
    · rename_i hut
      exact absurd (Option.some.inj ((h.leaving u hu).symm.trans hhart)) hut

theorem Placed.fetch {readyQueue : List Task} (h : Placed s) (hhart : s.hart = none)
    (hready : s.readyQueue = t :: readyQueue) :
    Placed { s with hart := some t, current := some t, readyQueue := readyQueue } := by
  have hnodup := h.ready
  rw [hready] at hnodup
  obtain ⟨hfirst, hrest⟩ := List.nodup_cons.mp hnodup
  have hleaving : ∀ u, s.pc u ≠ .schedule := by
    intro u hu
    have := h.leaving u hu
    rw [hhart] at this
    cases this
  refine ⟨h.nodup, hrest, ?_, fun u hu => absurd hu (hleaving u), ?_⟩
  · intro u hu
    obtain ⟨hnot, hplace⟩ := h.waiting u hu
    rw [hready] at hnot
    refine ⟨fun hin => hnot (List.mem_cons_of_mem _ hin), Or.inr ⟨?_, ?_⟩⟩
    · exact (hplace.resolve_left (hleaving u)).1
    · intro heq
      exact hnot (Option.some.inj heq ▸ List.mem_cons_self)
  · intro u hu _
    have hut : t = u := Option.some.inj hu
    subst hut
    exact ⟨rfl, hfirst⟩

/-- One step keeps the readers in their places. -/
theorem Placed.step (h : Placed s) (hstep : Step ok s events s') : Placed s' := by
  cases hstep with
  | receive byte => exact ⟨h.nodup, h.ready, h.waiting, h.leaving, h.running⟩
  | irq _ => exact h.irq
  | call hhart hpc =>
    exact h.advance (rfl : s.queue.condvar = s.queue.condvar) hhart (by rw [hpc]; decide) (by decide)
  | take hhart hpc hread =>
    rcases DeviceQueue.read_cases hread with ⟨_, _, _, hcondvar⟩ | ⟨_, hnone, _⟩
    · exact h.advance hcondvar hhart (ne_schedule hpc) (by decide)
    · cases hnone
  | wait hhart hpc hread =>
    rcases DeviceQueue.read_cases hread with ⟨_, hsome, _⟩ | ⟨task, _, hcurrent, _, _, hwait⟩
    · cases hsome
    · have hself := (h.running _ hhart (ne_schedule hpc)).1
      rw [hself] at hcurrent
      cases hcurrent
      exact h.wait hhart (ne_schedule hpc) hwait
  | switch hhart hpc => exact h.switch hhart
  | leave hhart hpc =>
    refine ⟨h.nodup, h.ready, ?_, ?_, fun _ hnone => (by cases hnone)⟩
    · intro u hu
      obtain ⟨hready, hplace⟩ := h.waiting u hu
      refine ⟨hready, hplace.imp_right fun hagain => ⟨hagain.1, fun hnone => (by cases hnone)⟩⟩
    · intro u hu
      have hut := Option.some.inj ((h.leaving u hu).symm.trans hhart)
      rw [hut, hpc] at hu
      cases hu
  | @arrive t hpc hhart hready =>
    have hmem : ∀ u, u ∈ s.readyQueue ++ [t] ↔ u ∈ s.readyQueue ∨ u = t := by
      intro u
      rw [List.mem_append, List.mem_singleton]
    refine ⟨h.nodup, ?_, ?_, h.leaving, ?_⟩
    · exact List.nodup_append.mpr ⟨h.ready, List.nodup_singleton t, fun a ha b hb heq =>
        hready (List.mem_singleton.mp hb ▸ heq ▸ ha)⟩
    · intro u hu
      obtain ⟨hnot, hplace⟩ := h.waiting u hu
      refine ⟨fun hin => ?_, hplace⟩
      rcases (hmem u).mp hin with hin | heq
      · exact hnot hin
      · rw [heq, hpc] at hplace
        rcases hplace with hsched | ⟨hagain, _⟩
        · cases hsched
        · cases hagain
    · intro u hu hu'
      obtain ⟨hcurrent, hnot⟩ := h.running u hu hu'
      refine ⟨hcurrent, fun hin => ?_⟩
      rcases (hmem u).mp hin with hin | heq
      · exact hnot hin
      · exact hhart (heq ▸ hu)
  | fetch hhart hready => exact h.fetch hhart hready

theorem Run.placed (h : Run ok hist s) : Placed s := by
  induction h with
  | boot => exact .boot
  | step _ hstep ih => exact ih.step hstep

/-! ### The order of the bytes -/

/-- One step keeps the bytes in order. -/
theorem Step.order (hstep : Step ok s events s')
    (h : arrivals hist = (returns hist).map Prod.snd ++ s.queue.buffer ++ s.fifo) :
    arrivals (hist ++ events) =
      (returns (hist ++ events)).map Prod.snd ++ s'.queue.buffer ++ s'.fifo := by
  rw [arrivals, returns, List.filterMap_append, List.filterMap_append, ← arrivals, ← returns, h]
  cases hstep with
  | receive byte => simp
  | irq _ =>
    show _ = _ ++ (s.queue.handleIrq s.fifo).2.buffer ++ []
    rw [(s.queue.handleIrq_cases s.fifo).1]
    simp
  | take hhart hpc hread =>
    rcases DeviceQueue.read_cases hread with ⟨_, hsome, hbuffer, _⟩ | ⟨_, hnone, _⟩
    · cases hsome
      simp [System.setPc, hbuffer]
    · cases hnone
  | wait hhart hpc hread =>
    rcases DeviceQueue.read_cases hread with ⟨_, hsome, _⟩ | ⟨_, _, _, hempty, hempty', _⟩
    · cases hsome
    · simp [System.setPc, hempty, hempty']
  | _ => simp [System.setPc]

theorem Run.order (h : Run ok hist s) :
    arrivals hist = (returns hist).map Prod.snd ++ s.queue.buffer ++ s.fifo := by
  induction h with
  | boot => rfl
  | step _ hstep ih => exact hstep.order ih

/-! ### Bytes for readers -/

/-- If readers wait, as many woken readers are on their way as there are bytes. -/
def Covered (s : System) : Prop :=
  s.waitQueue = [] ∨ ∃ readers : List Task, readers.Nodup ∧ (∀ t ∈ readers, OnItsWay s t) ∧
    s.queue.buffer.length ≤ readers.length

theorem Covered.not_stranded (h : Covered s) : ¬ Stranded s := by
  rintro ⟨hbuffer, hwait, hnobody⟩
  rcases h with hempty | ⟨readers, _, hway, hlen⟩
  · exact hwait hempty
  · cases readers with
    | nil =>
      rw [List.length_nil, Nat.le_zero, List.length_eq_zero_iff] at hlen
      exact hbuffer hlen
    | cons t readers => exact hnobody t (hway t List.mem_cons_self)

/-- A step that wakes nobody and brings no byte, and after which the readers on their way still are. -/
theorem Covered.mono (h : Covered s) (hwait : s'.waitQueue = s.waitQueue)
    (hbuffer : s'.queue.buffer = s.queue.buffer) (hway : ∀ t, OnItsWay s t → OnItsWay s' t) :
    Covered s' := by
  rcases h with hempty | ⟨readers, hnodup, hreaders, hlen⟩
  · exact Or.inl (hwait.trans hempty)
  · exact Or.inr ⟨readers, hnodup, fun t ht => hway t (hreaders t ht), hbuffer ▸ hlen⟩

/-- A task that is not in `read` is not on its way, so what it does next does not matter. -/
theorem OnItsWay.ne {u : Task} (h : OnItsWay s u) (hpc : s.pc t = .user ∨ s.pc t = .read) : u ≠ t := by
  intro heq
  rcases h.coming with ⟨hsched, _⟩ | ⟨hagain, _⟩
  · rw [heq] at hsched
    rw [hsched] at hpc
    rcases hpc with hpc | hpc <;> cases hpc
  · rw [heq] at hagain
    rw [hagain] at hpc
    rcases hpc with hpc | hpc <;> cases hpc

theorem OnItsWay.setPc {u : Task} {pc : Pc} {queue : DeviceQueue UInt8} (h : OnItsWay s u)
    (hne : u ≠ t) (hqueue : queue.condvar = s.queue.condvar) :
    OnItsWay ({ s with queue := queue }.setPc t pc) u := by
  have hother : ({ s with queue := queue }.setPc t pc).pc u = s.pc u := Function.update_of_ne hne _ _
  refine ⟨?_, ?_⟩
  · show u ∉ queue.condvar.waitQueue
    rw [hqueue]
    exact h.woken
  · rw [hother]
    exact h.coming

/-- A reader takes a byte: one byte less, and at most one reader less on the way. -/
theorem Covered.take {queue : DeviceQueue UInt8} {byte : UInt8} (h : Covered s)
    (hbuffer : s.queue.buffer = byte :: queue.buffer) (hqueue : queue.condvar = s.queue.condvar) :
    Covered ({ s with queue := queue }.setPc t .user) := by
  rcases h with hempty | ⟨readers, hnodup, hreaders, hlen⟩
  · exact Or.inl ((congrArg Condvar.waitQueue hqueue).trans hempty)
  · refine Or.inr ⟨readers.erase t, hnodup.erase t, ?_, ?_⟩
    · intro u hu
      have hmem := (hnodup.mem_erase_iff.mp hu)
      exact (hreaders u hmem.2).setPc hmem.1 hqueue
    · rw [hbuffer, List.length_cons] at hlen
      show queue.buffer.length ≤ _
      rw [List.length_erase]
      split <;> omega

theorem OnItsWay.irq (h : OnItsWay s t) : OnItsWay s.irq t := by
  rcases irq_queues s with ⟨hwait, hready⟩ | ⟨task, hwait, hready⟩
  · refine ⟨hwait ▸ h.woken, ?_⟩
    rw [hready]
    exact h.coming
  · refine ⟨fun hmem => h.woken (hwait ▸ List.mem_cons_of_mem _ hmem), ?_⟩
    rw [hready]
    refine h.coming.imp (fun hto => ⟨hto.1, List.mem_append_left _ hto.2⟩) ?_
    exact fun hto => ⟨hto.1, hto.2.imp_left fun hin => List.mem_append_left _ hin⟩

/-- A modest interrupt brings at most one byte for the reader it wakes, or wakes the last reader. -/
theorem Covered.irq (h : Covered s) (hplaced : Placed s) (hmodest : Modest s) : Covered s.irq := by
  obtain ⟨hbuffer, hcases⟩ := s.queue.handleIrq_cases s.fifo
  have hbuffer' : s.irq.queue.buffer = s.queue.buffer ++ s.fifo := hbuffer
  rcases hcases with ⟨hnil, _, hcondvar⟩ | ⟨_, _, _, hleft⟩ | ⟨hsome, task, hwoken, hqueue⟩
  · refine h.mono (congrArg Condvar.waitQueue hcondvar) ?_ fun _ hway => hway.irq
    rw [hbuffer', hnil, List.append_nil]
  · exact Or.inl hleft
  · have hwait : s.waitQueue = task :: s.irq.waitQueue := hqueue
    rcases hmodest with hone | hone
    · rcases h with hempty | ⟨readers, hnodup, hreaders, hlen⟩
      · rw [hempty] at hwait
        cases hwait
      have hfirst : task ∈ s.waitQueue := hwait ▸ List.mem_cons_self
      refine Or.inr ⟨task :: readers, ?_, ?_, ?_⟩
      · exact List.nodup_cons.mpr ⟨fun hmem => (hreaders task hmem).woken hfirst, hnodup⟩
      · intro t ht
        rcases List.mem_cons.mp ht with heq | ht
        · have hnot := hplaced.nodup
          rw [hwait] at hnot
          have hready : t ∈ s.irq.readyQueue := by
            show t ∈ s.readyQueue ++ (s.queue.handleIrq s.fifo).1.toList
            rw [hwoken, heq]
            exact List.mem_append_right _ (List.mem_singleton_self _)
          refine ⟨heq ▸ (List.nodup_cons.mp hnot).1, ?_⟩
          rcases (hplaced.waiting task hfirst).2 with hpc | ⟨hpc, _⟩
          · exact Or.inl ⟨heq ▸ hpc, hready⟩
          · exact Or.inr ⟨heq ▸ hpc, Or.inl hready⟩
        · exact (hreaders t ht).irq
      · rw [hbuffer', List.length_append, List.length_cons]
        omega
    · rw [hwait, List.length_cons] at hone
      exact Or.inl (List.length_eq_zero_iff.mp (by omega))

/-- One step keeps the bytes covered, if an interrupt is modest. -/
theorem Covered.step (h : Covered s) (hplaced : Placed s) (hok : ∀ s, ok s → Modest s)
    (hstep : Step ok s events s') : Covered s' := by
  cases hstep with
  | receive byte => exact h.mono rfl rfl fun _ hway => ⟨hway.woken, hway.coming⟩
  | irq hirq => exact h.irq hplaced (hok s hirq)
  | call hhart hpc =>
    exact h.mono rfl rfl fun _ hway =>
      hway.setPc (hway.ne (Or.inl hpc)) (rfl : s.queue.condvar = s.queue.condvar)
  | take hhart hpc hread =>
    rcases DeviceQueue.read_cases hread with ⟨_, _, hbuffer, hcondvar⟩ | ⟨_, hnone, _⟩
    · exact h.take hbuffer hcondvar
    · cases hnone
  | wait hhart hpc hread =>
    rcases DeviceQueue.read_cases hread with ⟨_, hsome, _⟩ | ⟨_, _, _, _, hempty, _⟩
    · cases hsome
    · refine Or.inr ⟨[], List.nodup_nil, fun _ ht => absurd ht List.not_mem_nil, ?_⟩
      rw [List.length_nil, Nat.le_zero, List.length_eq_zero_iff]
      exact hempty
  | @switch t hhart hpc =>
    refine h.mono rfl rfl fun u hway => ⟨hway.woken, ?_⟩
    have hpc' : ({ s with hart := none }.setPc t .again).pc u = if u = t then .again else s.pc u :=
      Function.update_apply _ _ _ _
    rw [hpc']
    split
    · rename_i hut
      rcases hway.coming with ⟨_, hready⟩ | ⟨hagain, _⟩
      · exact Or.inr ⟨rfl, Or.inl hready⟩
      · rw [hut, hpc] at hagain
        cases hagain
    · rename_i hut
      refine hway.coming.imp_right fun hto => ⟨hto.1, Or.inl ?_⟩
      exact hto.2.resolve_right fun hu => hut (Option.some.inj (hu.symm.trans hhart))
  | leave hhart hpc =>
    refine h.mono rfl rfl fun u hway => ⟨hway.woken, ?_⟩
    refine hway.coming.imp_right fun hto => ⟨hto.1, Or.inl ?_⟩
    exact hto.2.resolve_right fun hu =>
      hway.ne (Or.inl hpc) (Option.some.inj (hu.symm.trans hhart))
  | arrive _ _ _ =>
    refine h.mono rfl rfl fun u hway => ⟨hway.woken, ?_⟩
    refine hway.coming.imp (fun hto => ⟨hto.1, List.mem_append_left _ hto.2⟩) ?_
    exact fun hto => ⟨hto.1, hto.2.imp_left fun hin => List.mem_append_left _ hin⟩
  | fetch hhart hready =>
    refine h.mono rfl rfl fun u hway => ⟨hway.woken, Or.inr ?_⟩
    rcases hway.coming with ⟨hsched, _⟩ | ⟨hagain, hplace⟩
    · have := hplaced.leaving u hsched
      rw [hhart] at this
      cases this
    · refine ⟨hagain, ?_⟩
      rcases hplace with hin | hu
      · rw [hready] at hin
        rcases List.mem_cons.mp hin with heq | hin
        · exact Or.inr (congrArg some heq.symm)
        · exact Or.inl hin
      · rw [hhart] at hu
        cases hu

theorem Run.covered (h : Run ok hist s) (hok : ∀ s, ok s → Modest s) : Covered s := by
  induction h with
  | boot => exact Or.inl rfl
  | step hrun hstep ih => exact ih.step hrun.placed hok hstep

/-- **Reading from the serial port.**  In every run, the bytes that have arrived are, in this order, those
returned, each to one reader, those in the buffer and those still in the device.  If all interrupts of the
run are modest, it never happens that bytes are in the buffer and readers wait while no woken reader is on
its way. -/
theorem uart_read (h : Run ok hist s) :
    arrivals hist = (returns hist).map Prod.snd ++ s.queue.buffer ++ s.fifo ∧
    ((∀ s, ok s → Modest s) → ¬ Stranded s) :=
  ⟨h.order, fun hok => (h.covered hok).not_stranded⟩

/-! ### Two readers -/

/-- The calls of `read` by the tasks 1 and 2 on the empty buffer: both wait. -/
theorem exists_two_readers (ok : System → Prop) : ∃ s, Run ok [] s ∧ s.fifo = [] ∧ s.queue = ⟨[], ⟨[1, 2]⟩⟩ ∧
    s.hart = none ∧ s.readyQueue = [] ∧
    s.pc = Function.update (Function.update (fun _ => .user) 1 .again) 2 .again := by
  have h₀ : Run ok [] _ := .boot
  have h₁ := h₀.step (.arrive (t := 1) rfl (by decide) List.not_mem_nil)
  have h₂ := h₁.step (.arrive (t := 2) rfl (by decide) (by decide))
  have h₃ := (((h₂.step (.fetch rfl rfl)).step (.call rfl rfl)).step
    (.wait rfl (Or.inl rfl) rfl)).step (.switch rfl rfl)
  have h₄ := (((h₃.step (.fetch rfl rfl)).step (.call rfl rfl)).step
    (.wait rfl (Or.inl rfl) rfl)).step (.switch rfl rfl)
  refine ⟨_, h₄, rfl, rfl, rfl, rfl, ?_⟩
  funext t
  simp only [System.setPc, System.boot, Function.update_apply]
  split
  · rfl
  · split
    · rfl
    · rfl

/-- One byte for two waiting readers: one of them is woken, and the other waits on. -/
theorem uart_read_one_byte : ∃ hist s, Run Modest hist s ∧ s.queue.buffer = [7] ∧ s.waitQueue = [2] ∧
    arrivals hist = (returns hist).map Prod.snd ++ [7] ++ s.fifo ∧ ¬ Stranded s := by
  obtain ⟨⟨fifo, queue, hart, current, ready, pc⟩, hrun, hfifo, hqueue, hhart, hready, hpc⟩ :=
    exists_two_readers Modest
  cases hfifo
  cases hqueue
  have hrun' := (hrun.step (.receive 7)).step (.irq (Or.inl (Nat.le_refl 1)))
  obtain ⟨horder, hstranded⟩ := uart_read hrun'
  exact ⟨_, _, hrun', rfl, rfl, horder, hstranded fun _ h => h⟩

/-- Two bytes arrive with one interrupt while two readers wait.  One reader is woken and takes the first
byte; the second byte stays in the buffer while the other reader waits. -/
theorem second_byte_stranded : ∃ hist s, Run (fun _ => True) hist s ∧ returns hist = [(1, 7)] ∧
    s.queue.buffer = [8] ∧ s.waitQueue = [2] ∧ Stranded s := by
  obtain ⟨⟨fifo, queue, hart, current, ready, pc⟩, hrun, hfifo, hqueue, hhart, hready, hpc⟩ :=
    exists_two_readers fun _ => True
  cases hfifo
  cases hqueue
  cases hhart
  cases hready
  cases hpc
  have hrun' := (((hrun.step (.receive 7)).step (.receive 8)).step (.irq trivial)).step (.fetch rfl rfl)
  refine ⟨_, _, hrun'.step (.take rfl (Or.inr rfl) rfl), rfl, rfl, rfl, ?_⟩
  refine ⟨List.cons_ne_nil _ _, List.cons_ne_nil _ _, ?_⟩
  -- reader 2 is in the wait queue, and every other task is outside `read`
  intro t hway
  by_cases h2 : t = 2
  · exact hway.woken (h2 ▸ List.mem_cons_self)
  · refine hway.ne (t := t) (Or.inl ?_) rfl
    by_cases h1 : t = 1
    · simp [System.setPc, h1]
    · simp [System.setPc, System.irq, Function.update_apply, h1, h2]

end LemonCore.Kernel.Uart
