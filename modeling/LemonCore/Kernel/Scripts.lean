import Mathlib
import LemonCore.Kernel.Machine

/-!
# Executing the machine

A script names the step to take each time the machine leaves a choice; `System.play` executes it.  What a
script computes is a run of the machine (`Run.play`).
-/

namespace LemonCore.Kernel

/-- The timer the heap yields first: one that expires no later than any other. -/
def KernelState.earliest (k : KernelState) : Option (ℕ × Task) :=
  k.timers.find? fun timer => k.timers.all fun other => timer.1 ≤ other.1

/-- `check_timer`, for at most `n` timers. -/
def KernelState.checkTimer : ℕ → KernelState → Option KernelState
  | 0, k => if k.timers = [] then some k else none
  | n + 1, k =>
    match k.earliest with
    | none => if k.timers = [] then some k else none
    | some timer =>
      if timer.1 ≤ k.timeMs then
        ({ k with timers := k.timers.erase timer }.wakeup (some timer.2)).checkTimer n
      else some k

theorem KernelState.checkTimer_sound (n : ℕ) : ∀ {k k' : KernelState}, k.checkTimer n = some k' →
    CheckTimer k k' := by
  have hempty : ∀ {k k' : KernelState}, (if k.timers = [] then some k else none) = some k' →
      CheckTimer k k' := by
    intro k k' h
    split at h
    · rename_i hnil
      cases h
      exact .done (by simp [hnil])
    · cases h
  induction n with
  | zero => exact hempty
  | succ n ih =>
    intro k k' h
    rw [checkTimer] at h
    cases hearliest : k.earliest with
    | none =>
      rw [hearliest] at h
      exact hempty h
    | some timer =>
      rw [hearliest] at h
      have hmem : timer ∈ k.timers := List.mem_of_find?_eq_some hearliest
      have hleast : ∀ other ∈ k.timers, timer.1 ≤ other.1 := by
        have hall := List.find?_some hearliest
        simpa using hall
      by_cases hexpired : timer.1 ≤ k.timeMs
      · simp only [if_pos hexpired] at h
        obtain ⟨before, after, _, htimers, herase⟩ := List.exists_erase_eq hmem
        rw [herase] at h
        exact .pop htimers hleast hexpired (ih h)
      · simp only [if_neg hexpired] at h
        cases h
        refine .done fun other hother => ?_
        exact lt_of_lt_of_le (not_le.mp hexpired) (hleast other hother)

inductive Action where
  | call (c : Call)
  | exec (bytes : List UInt8)
  | switch
  | fetch
  | start
  | interrupt
  | tick (ms : ℕ)

section

variable (ok : History → Task → Call → Prop) [∀ hist t c, Decidable (ok hist t c)]

/-- One step, if the machine can take it. -/
def System.act (hist : History) (s : System) : Action → Option (History × System)
  | .call c =>
    match s.cpu with
    | .running t (.resume .user) =>
      if ok hist t c then some ([(t, .called c)], { s with cpu := .running t c.entry }) else none
    | _ => none
  | .exec bytes =>
    match s.cpu with
    | .running t pc => do
      let (k', pc', events) ← Kernel.exec (fun i => bytes.getD i 0) s.kernel pc
      some (events.map (Prod.mk t), { s with kernel := k', cpu := .running t pc' })
    | _ => none
  | .switch =>
    match s.cpu with
    | .running _ (.schedule task point) =>
      some ([], { s with cpu := .idle, saved := Function.update s.saved task point })
    | _ => none
  | .fetch =>
    match s.cpu, s.kernel.readyQueue with
    | .idle, task :: readyQueue =>
      some ([], { s with
        kernel := { s.kernel with readyQueue := readyQueue }, cpu := .fetched task })
    | _, _ => none
  | .start =>
    match s.cpu with
    | .fetched task =>
      some ([], { s with
        kernel := { s.kernel.setStatus task .running with current := some task }
        cpu := .running task (.resume (s.saved task)) })
    | _ => none
  | .interrupt => do
    let k' ← s.kernel.checkTimer (s.kernel.timers.length + 1)
    some ([], { s with kernel := k' })
  | .tick ms => some ([], { s with kernel := { s.kernel with timeMs := s.kernel.timeMs + ms } })

def System.play : List Action → History → System → Option (History × System)
  | [], hist, s => some (hist, s)
  | action :: actions, hist, s => do
    let (events, s') ← s.act ok hist action
    s'.play actions (hist ++ events)

variable {ok}

theorem System.act_step {hist events : History} {s s' : System} {action : Action}
    (h : s.act ok hist action = some (events, s')) : Step ok hist s events s' := by
  cases action with
  | call c =>
    rw [act] at h
    split at h
    · rename_i t hcpu
      split at h
      · rename_i hok
        cases h
        exact .call hcpu hok
      · cases h
    · cases h
  | exec bytes =>
    rw [act] at h
    split at h
    · rename_i t pc hcpu
      obtain ⟨⟨k', pc', events⟩, hexec, hrest⟩ := Option.bind_eq_some_iff.mp h
      cases hrest
      exact .exec _ hcpu hexec
    · cases h
  | switch =>
    rw [act] at h
    split at h
    · rename_i hcpu
      cases h
      exact .switch hcpu
    · cases h
  | fetch =>
    rw [act] at h
    split at h
    · rename_i hcpu hready
      cases h
      exact .fetch hcpu hready
    · cases h
  | start =>
    rw [act] at h
    split at h
    · rename_i hcpu
      cases h
      exact .start hcpu
    · cases h
  | interrupt =>
    obtain ⟨k', hcheck, hrest⟩ := Option.bind_eq_some_iff.mp h
    cases hrest
    exact .interrupt (KernelState.checkTimer_sound _ hcheck)
  | tick ms =>
    cases h
    exact .tick ms

theorem Run.play {s₀ s' : System} {hist' : History} (actions : List Action) :
    ∀ {hist : History} {s : System}, Run ok s₀ hist s → s.play ok actions hist = some (hist', s') →
      Run ok s₀ hist' s' := by
  induction actions with
  | nil =>
    intro hist s hrun h
    cases h
    exact hrun
  | cons action actions ih =>
    intro hist s hrun h
    obtain ⟨⟨events, s₁⟩, hact, hrest⟩ := Option.bind_eq_some_iff.mp h
    exact ih (hrun.step (System.act_step hact)) hrest

theorem exists_run (ok : History → Task → Call → Prop) [∀ hist t c, Decidable (ok hist t c)]
    (s₀ : System) (P : History → System → Prop) [∀ hist s, Decidable (P hist s)]
    (actions : List Action)
    (h : ((s₀.play ok actions []).any fun result => decide (P result.1 result.2)) = true) :
    ∃ hist s, Run ok s₀ hist s ∧ P hist s := by
  cases hplay : s₀.play ok actions [] with
  | none =>
    rw [hplay] at h
    cases h
  | some result =>
    rw [hplay] at h
    exact ⟨result.1, result.2, Run.start.play actions hplay, of_decide_eq_true h⟩

end

end LemonCore.Kernel
