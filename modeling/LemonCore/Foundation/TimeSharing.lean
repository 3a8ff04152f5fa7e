import Mathlib

/-!
# Tasks that share one hart

A hart has one set of registers; those of the tasks that do not run are kept in memory.  A step is labelled
with the task that runs after it and with what it is meant to do to the registers of all tasks.

* `writes`: cells that are written one after the other;
* `registers`: what every task has, wherever it is kept;
* `Run.registers_eq`: if every step does what its label says, then so does every run.
-/

namespace LemonCore.Foundation.TimeSharing

section

variable {ι K V : Type} [DecidableEq K] {key : ι → K} {val : ι → V}

/-- The values `val i` are written to the cells `key i`, in the order of the list. -/
def writes (key : ι → K) (val : ι → V) (is : List ι) (f : K → V) : K → V :=
  is.foldl (fun f i => Function.update f (key i) (val i)) f

theorem writes_of_ne {k : K} (is : List ι) (f : K → V) (h : ∀ i ∈ is, k ≠ key i) :
    writes key val is f k = f k := by
  induction is generalizing f with
  | nil => rfl
  | cons j is ih =>
    rw [writes, List.foldl_cons, ← writes, ih _ fun i hi => h i (List.mem_cons_of_mem j hi)]
    exact Function.update_of_ne (h j List.mem_cons_self) _ _

theorem writes_of_mem {i : ι} {is : List ι} (hi : i ∈ is) (f : K → V)
    (hinj : ∀ j ∈ is, key i = key j → i = j) : writes key val is f (key i) = val i := by
  induction is generalizing f with
  | nil => exact absurd hi List.not_mem_nil
  | cons j is ih =>
    rw [writes, List.foldl_cons, ← writes]
    by_cases hmem : i ∈ is
    · exact ih hmem _ fun k hk => hinj k (List.mem_cons_of_mem j hk)
    · obtain rfl : i = j := (List.mem_cons.mp hi).resolve_right hmem
      rw [writes_of_ne _ _ fun k hk heq => hmem (hinj k (List.mem_cons_of_mem i hk) heq ▸ hk)]
      exact Function.update_self ..

end

/-- What a step does to the registers of the tasks. -/
abbrev Edit (T I W : Type) := (T → I → W) → T → I → W

variable {M T I W : Type} [DecidableEq T] {view : M → I → W} {slot : M → T → I → W} {ok : T → M → Prop}
  {step : T → T → Edit T I W → M → M → Prop} {t : T} {m m' : M}

/-- The registers of the tasks while `t` runs: its own are in the hart, the others are saved. -/
def registers (view : M → I → W) (slot : M → T → I → W) (t : T) (m : M) : T → I → W :=
  Function.update (slot m) t (view m)

/-- Runs, with the task on the hart and the registers that the labels give to every task. -/
inductive Run (view : M → I → W) (slot : M → T → I → W) (ok : T → M → Prop)
    (step : T → T → Edit T I W → M → M → Prop) : T → (T → I → W) → M → Prop
  | start {t : T} {m : M} : ok t m → Run view slot ok step t (registers view slot t m) m
  | step {t u : T} {v : T → I → W} {edit : Edit T I W} {m m' : M} :
      Run view slot ok step t v m → step t u edit m m' → Run view slot ok step u (edit v) m'

theorem registers_self : registers view slot t m t = view m := Function.update_self ..

/-- The running task works, and does `f` to what is saved of the others. -/
theorem registers_work {f : T → (I → W) → I → W} (h : ∀ w, w ≠ t → slot m' w = f w (slot m w)) :
    registers view slot t m' = Function.update (fun w => f w (registers view slot t m w)) t (view m') := by
  funext w
  by_cases hw : w = t
  · rw [hw, registers_self, Function.update_self]
  · rw [registers, registers, Function.update_of_ne hw, Function.update_of_ne hw,
      Function.update_of_ne hw, h w hw]

theorem registers_loaded (h : view m = slot m t) : registers view slot t m = slot m := by
  rw [registers, h, Function.update_eq_self]

theorem Run.registers_eq {v : T → I → W}
    (hstep : ∀ {t u edit m m'}, ok t m → step t u edit m m' →
      ok u m' ∧ registers view slot u m' = edit (registers view slot t m))
    (h : Run view slot ok step t v m) : ok t m ∧ registers view slot t m = v := by
  induction h with
  | start hok => exact ⟨hok, rfl⟩
  | step _ hs ih =>
    obtain ⟨hok, heq⟩ := hstep ih.1 hs
    exact ⟨hok, by rw [heq, ih.2]⟩

end LemonCore.Foundation.TimeSharing
