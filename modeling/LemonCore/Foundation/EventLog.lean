import Mathlib

/-!
# Logs of events

`Always P log` says that each event of a log met `P` when it happened: `P` is given the log up to the
event, and the event.
-/

namespace LemonCore.Foundation.EventLog

variable {ε : Type} {P : List ε → ε → Prop} {log new : List ε} {e : ε}

def Always (P : List ε → ε → Prop) (log : List ε) : Prop :=
  ∀ before e after, log = before ++ e :: after → P before e

theorem always_nil : Always P [] := by
  intro before e after h
  simp at h

theorem always_concat : Always P (log ++ [e]) ↔ Always P log ∧ P log e := by
  constructor
  · intro h
    refine ⟨?_, h log e [] rfl⟩
    intro before e' after heq
    exact h before e' (after ++ [e]) (by rw [heq]; simp)
  · rintro ⟨hlog, he⟩ before e' after heq
    -- either the event is the last one, or it is in the old log
    rcases List.eq_nil_or_concat after with hnil | ⟨after', last, hafter⟩
    · subst hnil
      obtain ⟨rfl, hlast⟩ := List.append_inj' heq rfl
      cases hlast
      exact he
    · subst hafter
      rw [List.concat_eq_append, ← List.cons_append, ← List.append_assoc] at heq
      obtain ⟨hold, _⟩ := List.append_inj' heq rfl
      exact hlog before e' after' hold

theorem Always.append (h : Always P log) (hnew : ∀ e ∈ new, ∀ before, P before e) :
    Always P (log ++ new) := by
  induction new generalizing log with
  | nil =>
    rw [List.append_nil]
    exact h
  | cons e new ih =>
    rw [List.append_cons]
    refine ih (always_concat.mpr ⟨h, hnew e (by simp) log⟩) ?_
    intro e' he'
    exact hnew e' (List.mem_cons_of_mem e he')

end LemonCore.Foundation.EventLog
