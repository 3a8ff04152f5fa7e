import Mathlib
import LemonCore.Foundation.EventLog
import LemonCore.Kernel.Machine

/-!
# Timers (`kernel/src/timer.rs`, `sys_sleep`)

A task that sleeps is in a heap of timers until `check_timer` finds its time come.  The heap is a
`BinaryHeap`, which shows a maximal element; the order of `TimeCondVar` is reversed, so that this is one that
expires first.  Of several that expire at the same time the heap may show any.

* `sysSleep`, `CheckTimer`: the code; the expiry is a `usize`, and its sum may wrap;
* `Run`: calls of `sys_sleep` and `check_timer` with their clock values, in any order;
* `asleep`: who is still to be woken after a history, and when, with times that are natural numbers;
* `CheckTimer.spec`: the loop pops the timers that have expired, in order of expiry, and leaves the others;
  `checkTimer_of_machine`: the machine of tasks has the same loop;
* `sleepers_woken_on_time`: as long as no sum wraps, each check wakes those whose time has come, and no
  others.
-/

namespace LemonCore.Kernel.Timers

open Foundation.EventLog

/-- A task control block. -/
abbrev Task := ℕ

structure TimeCondVar where
  expireMs : ℕ
  task : Task
  deriving DecidableEq, Repr

/-- `Ord for TimeCondVar`. -/
def TimeCondVar.cmp (timer other : TimeCondVar) : Ordering := compare other.expireMs timer.expireMs

/-- What `peek` may show: an element of the heap that none exceeds. -/
structure Peek (timers : List TimeCondVar) (timer : TimeCondVar) : Prop where
  mem : timer ∈ timers
  top : ∀ other ∈ timers, other.cmp timer ≠ .gt

/-- `add_timer`. -/
def addTimer (timers : List TimeCondVar) (expireMs : ℕ) (task : Task) : List TimeCondVar :=
  timers ++ [⟨expireMs, task⟩]

/-- `sys_sleep` of `task` at the time `timeMs`. -/
def sysSleep (timers : List TimeCondVar) (timeMs ms : ℕ) (task : Task) : List TimeCondVar :=
  addTimer timers ((timeMs + ms) % 2 ^ 64) task

/-- The loop of `check_timer`: the timers before it, those that are popped, and those that are left. -/
inductive CheckTimer (currentMs : ℕ) : List TimeCondVar → List TimeCondVar → List TimeCondVar → Prop
  | empty : CheckTimer currentMs [] [] []
  | stop {timers : List TimeCondVar} {timer : TimeCondVar} (hpeek : Peek timers timer)
      (hlater : currentMs < timer.expireMs) : CheckTimer currentMs timers [] timers
  | wakeup {timers popped left : List TimeCondVar} {timer : TimeCondVar} (hpeek : Peek timers timer)
      (hdue : timer.expireMs ≤ currentMs) (h : CheckTimer currentMs (timers.erase timer) popped left) :
      CheckTimer currentMs timers (timer :: popped) left

inductive Event where
  | slept (timeMs ms : ℕ) (task : Task)
  | checked (timeMs : ℕ) (woken : List Task)
  deriving DecidableEq, Repr

/-- The runs in which every call `sys_sleep(ms)` at a time meets `ok`. -/
inductive Run (ok : ℕ → ℕ → Prop) : List Event → List TimeCondVar → Prop
  | start : Run ok [] []
  | sleep {hist : List Event} {timers : List TimeCondVar} (timeMs ms : ℕ) (task : Task)
      (h : Run ok hist timers) (hok : ok timeMs ms) :
      Run ok (hist ++ [.slept timeMs ms task]) (sysSleep timers timeMs ms task)
  | check {hist : List Event} {timers popped left : List TimeCondVar} {timeMs : ℕ} (h : Run ok hist timers)
      (hcheck : CheckTimer timeMs timers popped left) :
      Run ok (hist ++ [.checked timeMs (popped.map TimeCondVar.task)]) left

/-! ### What the tasks should see -/

/-- A task goes to sleep until the sum of the time and its duration, and no longer than the first check that
is not before. -/
def record (sleepers : List TimeCondVar) : Event → List TimeCondVar
  | .slept timeMs ms task => sleepers ++ [⟨timeMs + ms, task⟩]
  | .checked timeMs _ => sleepers.filter fun sleeper => timeMs < sleeper.expireMs

/-- The tasks that are to be woken later, with the times when they are. -/
def asleep (hist : List Event) : List TimeCondVar := hist.foldl record []

/-- A check wakes the tasks whose time has come, each one once, in order of their times. -/
def OnTime (before : List Event) : Event → Prop
  | .checked timeMs woken => ∃ due : List TimeCondVar,
    due.Perm ((asleep before).filter fun sleeper => sleeper.expireMs ≤ timeMs) ∧
      due.Pairwise (fun first second => first.expireMs ≤ second.expireMs) ∧ woken = due.map TimeCondVar.task
  | .slept _ _ _ => True

/-- The expiry fits in a `usize`. -/
def Fits (timeMs ms : ℕ) : Prop := timeMs + ms < 2 ^ 64

theorem asleep_concat (hist : List Event) (event : Event) :
    asleep (hist ++ [event]) = record (asleep hist) event := by
  rw [asleep, List.foldl_append]
  rfl

/-! ### The loop of `check_timer` -/

variable {timers popped left : List TimeCondVar} {timer other : TimeCondVar} {currentMs : ℕ}

/-- The order is reversed: what the heap shows expires first. -/
theorem cmp_ne_gt_iff : other.cmp timer ≠ .gt ↔ timer.expireMs ≤ other.expireMs := by
  rw [TimeCondVar.cmp, Ne, compare_gt_iff_gt]
  exact Nat.not_lt

theorem Peek.expireMs_le (h : Peek timers timer) (hother : other ∈ timers) :
    timer.expireMs ≤ other.expireMs :=
  cmp_ne_gt_iff.mp (h.top other hother)

/-- **The loop** splits the timers into those that have expired, in order, and the others. -/
theorem CheckTimer.spec (h : CheckTimer currentMs timers popped left) :
    (popped ++ left).Perm timers ∧ (∀ e ∈ popped, e.expireMs ≤ currentMs) ∧
      (∀ e ∈ left, currentMs < e.expireMs) ∧ popped.Pairwise (fun e e' => e.expireMs ≤ e'.expireMs) := by
  induction h with
  | empty => simp
  | stop hpeek hlater =>
    exact ⟨List.Perm.refl _, by simp, fun e he => hlater.trans_le (hpeek.expireMs_le he), .nil⟩
  | @wakeup timers popped left timer hpeek hdue _ ih =>
    obtain ⟨hperm, hdues, hlater, hsorted⟩ := ih
    refine ⟨(hperm.cons timer).trans (List.perm_cons_erase hpeek.mem).symm,
      List.forall_mem_cons.mpr ⟨hdue, hdues⟩, hlater, List.pairwise_cons.mpr ⟨?_, hsorted⟩⟩
    intro e he
    apply hpeek.expireMs_le
    exact List.mem_of_mem_erase (hperm.subset (List.mem_append_left _ he))

theorem CheckTimer.popped_perm (h : CheckTimer currentMs timers popped left) :
    popped.Perm (timers.filter fun e => e.expireMs ≤ currentMs) ∧
      left.Perm (timers.filter fun e => currentMs < e.expireMs) := by
  obtain ⟨hperm, hdues, hlater, -⟩ := h.spec
  constructor
  · refine List.Perm.trans (List.Perm.of_eq ?_) (hperm.filter _)
    rw [List.filter_append, List.filter_eq_self.mpr, List.filter_eq_nil_iff.mpr, List.append_nil]
    · simpa using hlater
    · simpa using hdues
  · refine List.Perm.trans (List.Perm.of_eq ?_) (hperm.filter _)
    rw [List.filter_append, List.filter_eq_nil_iff.mpr, List.filter_eq_self.mpr, List.nil_append]
    · simpa using hlater
    · simpa using hdues

theorem exists_peek {timers : List TimeCondVar} (hne : timers ≠ []) : ∃ timer, Peek timers timer := by
  obtain ⟨timer, hmem, hmin⟩ := timers.toFinset.exists_min_image TimeCondVar.expireMs
    (List.toFinset_nonempty_iff _ |>.mpr hne)
  exact ⟨timer, List.mem_toFinset.mp hmem,
    fun other hother => cmp_ne_gt_iff.mpr (hmin other (List.mem_toFinset.mpr hother))⟩

/-- The loop comes to an end, by induction on the number of timers. -/
theorem exists_checkTimer (currentMs n : ℕ) : ∀ timers : List TimeCondVar, timers.length = n →
    ∃ popped left, CheckTimer currentMs timers popped left := by
  induction n with
  | zero =>
    intro timers hlen
    rw [List.length_eq_zero_iff.mp hlen]
    exact ⟨[], [], .empty⟩
  | succ n ih =>
    intro timers hlen
    obtain ⟨timer, hpeek⟩ := exists_peek (List.ne_nil_of_length_eq_add_one hlen)
    rcases Nat.lt_or_ge currentMs timer.expireMs with hlater | hdue
    · exact ⟨[], timers, .stop hpeek hlater⟩
    · obtain ⟨popped, left, hrest⟩ := ih (timers.erase timer)
        (by rw [List.length_erase_of_mem hpeek.mem, hlen, Nat.add_sub_cancel])
      exact ⟨timer :: popped, left, .wakeup hpeek hdue hrest⟩

/-! ### The same loop in the machine of tasks -/

/-- A timer of the machine. -/
def TimeCondVar.ofPair (timer : ℕ × Task) : TimeCondVar := ⟨timer.1, timer.2⟩

theorem peek_of_pairs {pairs : List (ℕ × Task)} {pair : ℕ × Task}
    (hperm : timers.Perm (pairs.map .ofPair)) (hmem : pair ∈ pairs)
    (hmin : ∀ other ∈ pairs, pair.1 ≤ other.1) : Peek timers (.ofPair pair) := by
  refine ⟨hperm.mem_iff.mpr (List.mem_map_of_mem hmem), fun other hother => cmp_ne_gt_iff.mpr ?_⟩
  obtain ⟨o, ho, rfl⟩ := List.mem_map.mp (hperm.mem_iff.mp hother)
  exact hmin o ho

theorem perm_erase_pair {before after : List (ℕ × Task)} {pair : ℕ × Task}
    (hperm : timers.Perm ((before ++ pair :: after).map .ofPair)) :
    (timers.erase (.ofPair pair)).Perm ((before ++ after).map .ofPair) := by
  have hmid : ((before ++ pair :: after).map TimeCondVar.ofPair).Perm
      (.ofPair pair :: (before ++ after).map .ofPair) := List.perm_middle.map _
  have herase := (hperm.trans hmid).erase (.ofPair pair)
  rwa [List.erase_cons_head] at herase

/-- The machine pops the timers as this loop does, and puts their tasks into the ready queue in this order. -/
theorem checkTimer_of_machine {k k' : KernelState} (h : Kernel.CheckTimer k k') :
    ∀ timers : List TimeCondVar, timers.Perm (k.timers.map .ofPair) → ∃ popped left,
      CheckTimer k.timeMs timers popped left ∧ left.Perm (k'.timers.map .ofPair) ∧
        k'.readyQueue = k.readyQueue ++ popped.map TimeCondVar.task := by
  induction h with
  | @done k hlater =>
    intro timers hperm
    refine ⟨[], timers, ?_, hperm, (List.append_nil _).symm⟩
    cases timers with
    | nil => exact .empty
    | cons first rest =>
      obtain ⟨timer, hpk⟩ := exists_peek (List.cons_ne_nil first rest)
      obtain ⟨o, ho, rfl⟩ := List.mem_map.mp (hperm.mem_iff.mp hpk.mem)
      exact .stop hpk (hlater o ho)
  | @pop k k' before after expireMs task htimers hearliest hexpired _ ih =>
    intro timers hperm
    have hmem : (expireMs, task) ∈ k.timers := by simp [htimers]
    have hpeek := peek_of_pairs hperm hmem hearliest
    rw [htimers] at hperm
    obtain ⟨popped, left, hcheck, hleft, hready⟩ := ih _ (perm_erase_pair hperm)
    refine ⟨⟨expireMs, task⟩ :: popped, left, .wakeup hpeek hexpired hcheck, hleft, ?_⟩
    rw [hready]
    exact List.append_assoc _ _ _

/-! ### Runs -/

variable {hist : List Event}

theorem Run.onTime (h : Run Fits hist timers) : timers.Perm (asleep hist) ∧ Always OnTime hist := by
  induction h with
  | start => exact ⟨.nil, always_nil⟩
  | sleep timeMs ms task _ hok ih =>
    refine ⟨?_, always_concat.mpr ⟨ih.2, trivial⟩⟩
    rw [asleep_concat, sysSleep, addTimer, Nat.mod_eq_of_lt hok]
    exact ih.1.append_right _
  | check _ hcheck ih =>
    obtain ⟨hpopped, hleft⟩ := hcheck.popped_perm
    refine ⟨?_, always_concat.mpr ⟨ih.2, ?_⟩⟩
    · rw [asleep_concat]
      exact hleft.trans (ih.1.filter _)
    · exact ⟨_, hpopped.trans (ih.1.filter _), hcheck.spec.2.2.2, rfl⟩

/-- **Sleepers are woken on time**, if no expiry wraps: every check wakes the tasks whose time has come by the
clock and who were not woken before, in order of expiry, and no others; and a check at any time returns. -/
theorem sleepers_woken_on_time (h : Run Fits hist timers) :
    Always OnTime hist ∧ timers.Perm (asleep hist) ∧
      ∀ timeMs, ∃ popped left, CheckTimer timeMs timers popped left :=
  ⟨h.onTime.2, h.onTime.1, fun timeMs => exists_checkTimer timeMs _ timers rfl⟩

/-- Three tasks sleep.  At time 7 the second and the first one have expired, in this order. -/
theorem sleepers_woken_on_time_order :
    let hist := [.slept 1 5 0, .slept 2 2 1, .slept 3 100 2, .checked 7 [1, 0]]
    ∃ timers, Run Fits hist timers ∧ timers.map TimeCondVar.task = [2] ∧ Always OnTime hist := by
  have hcheck : CheckTimer 7 [⟨6, 0⟩, ⟨4, 1⟩, ⟨103, 2⟩] [⟨4, 1⟩, ⟨6, 0⟩] [⟨103, 2⟩] :=
    .wakeup (show Peek _ ⟨4, 1⟩ from ⟨by decide, by decide⟩) (by decide)
      (.wakeup (show Peek _ ⟨6, 0⟩ from ⟨by decide, by decide⟩) (by decide)
        (.stop (show Peek _ ⟨103, 2⟩ from ⟨by decide, by decide⟩) (by decide)))
  have hrun : Run Fits [.slept 1 5 0, .slept 2 2 1, .slept 3 100 2, .checked 7 [1, 0]] [⟨103, 2⟩] :=
    .check (.sleep 3 100 2 (.sleep 2 2 1 (.sleep 1 5 0 .start (show 1 + 5 < 2 ^ 64 by decide))
      (show 2 + 2 < 2 ^ 64 by decide)) (show 3 + 100 < 2 ^ 64 by decide)) hcheck
  exact ⟨_, hrun, rfl, (sleepers_woken_on_time hrun).1⟩

/-- A task sleeps for the longest time there is from time 1.  Its expiry wraps to 0, and the check at the same
time wakes it. -/
theorem sleep_forever_returns : ∃ hist timers, Run (fun _ _ => True) hist timers ∧ ¬ Always OnTime hist := by
  have hcheck : CheckTimer 1 [⟨0, 0⟩] [⟨0, 0⟩] [] :=
    .wakeup (show Peek [⟨0, 0⟩] ⟨0, 0⟩ from ⟨by decide, by decide⟩) (by decide) .empty
  refine ⟨_, _, .check (.sleep 1 (2 ^ 64 - 1) 0 .start trivial) hcheck, fun halways => ?_⟩
  obtain ⟨due, hdue, -, hwoken⟩ := halways [.slept 1 (2 ^ 64 - 1) 0] (.checked 1 [0]) [] rfl
  rw [show (asleep [.slept 1 (2 ^ 64 - 1) 0]).filter (fun sleeper => sleeper.expireMs ≤ 1) = [] by decide,
    List.perm_nil] at hdue
  rw [hdue] at hwoken
  cases hwoken

end LemonCore.Kernel.Timers
