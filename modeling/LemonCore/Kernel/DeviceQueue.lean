import LemonCore.Kernel.Sync

/-!
# The receive queue of a driver

The UART driver and the input drivers are built alike: an interrupt moves everything that the device has
received into a queue and signals a condition variable once if there was anything; a reader takes the
front of the queue, or waits on the condition variable and tries again.  A section below is what runs
inside one `exclusive_access`; `none` is a panic.
-/

namespace LemonCore.Kernel

structure DeviceQueue (α : Type) where
  buffer : List α
  condvar : Condvar
  deriving DecidableEq, Repr

namespace DeviceQueue

variable {α : Type}

def new : DeviceQueue α := ⟨[], ⟨[]⟩⟩

/-- The loop of `handle_irq` over what the device has received, with the number of elements moved. -/
def receive : List α → ℕ → List α → ℕ × List α
  | [], count, buffer => (count, buffer)
  | x :: received, count, buffer => receive received (count + 1) (buffer ++ [x])

/-- `handle_irq`, with the task it wakes. -/
def handleIrq (received : List α) (q : DeviceQueue α) : Option Task × DeviceQueue α :=
  let (count, buffer) := receive received 0 q.buffer
  if 0 < count then
    let (woken, condvar) := q.condvar.signal
    (woken, ⟨buffer, condvar⟩)
  else (none, ⟨buffer, q.condvar⟩)

/-- One turn of the loop of `read`: the front of the queue, or nothing, and then the current task has been
put into the wait queue. -/
def read (current : Option Task) (q : DeviceQueue α) : Option (Option α × DeviceQueue α) :=
  match q.buffer with
  | x :: buffer => some (some x, ⟨buffer, q.condvar⟩)
  | [] => do
    let condvar ← q.condvar.enqueue current
    some (none, ⟨[], condvar⟩)

theorem receive_eq (received : List α) : ∀ (count : ℕ) (buffer : List α),
    receive received count buffer = (count + received.length, buffer ++ received) := by
  induction received with
  | nil =>
    intro count buffer
    simp [receive]
  | cons x received ih =>
    intro count buffer
    rw [receive, ih]
    simp only [List.length_cons, List.append_assoc, List.singleton_append, Prod.mk.injEq, and_true]
    omega

/-- What `handle_irq` does: the elements are queued, and if there are any, the first waiting task is
woken. -/
theorem handleIrq_cases (received : List α) (q : DeviceQueue α) :
    (q.handleIrq received).2.buffer = q.buffer ++ received ∧
    ((received = [] ∧ (q.handleIrq received).1 = none ∧ (q.handleIrq received).2.condvar = q.condvar) ∨
     (received ≠ [] ∧ q.condvar.waitQueue = [] ∧ (q.handleIrq received).1 = none ∧
      (q.handleIrq received).2.condvar.waitQueue = []) ∨
     (received ≠ [] ∧ ∃ task, (q.handleIrq received).1 = some task ∧
      q.condvar.waitQueue = task :: (q.handleIrq received).2.condvar.waitQueue)) := by
  rw [handleIrq, receive_eq]
  cases received with
  | nil => exact ⟨rfl, Or.inl ⟨rfl, rfl, rfl⟩⟩
  | cons x received =>
    have hcount : 0 < 0 + (x :: received).length := by simp
    simp only [if_pos hcount]
    refine ⟨trivial, Or.inr ?_⟩
    rcases q.condvar.signal_cases with ⟨hnone, hempty, hleft⟩ | ⟨task, hsome, hqueue⟩
    · exact Or.inl ⟨List.cons_ne_nil _ _, hempty, hnone, hleft⟩
    · exact Or.inr ⟨List.cons_ne_nil _ _, task, hsome, hqueue⟩

theorem read_cases {current : Option Task} {q q' : DeviceQueue α} {result : Option α}
    (h : q.read current = some (result, q')) :
    (∃ x, result = some x ∧ q.buffer = x :: q'.buffer ∧ q'.condvar = q.condvar) ∨
    (∃ task, result = none ∧ current = some task ∧ q.buffer = [] ∧ q'.buffer = [] ∧
      q'.condvar.waitQueue = q.condvar.waitQueue ++ [task]) := by
  obtain ⟨buffer, condvar⟩ := q
  cases buffer with
  | cons x buffer =>
    cases h
    exact Or.inl ⟨x, rfl, rfl, rfl⟩
  | nil =>
    cases current with
    | none => cases h
    | some task =>
      cases h
      exact Or.inr ⟨task, rfl, rfl, rfl, rfl, rfl⟩

end DeviceQueue

end LemonCore.Kernel
