import Mathlib

/-!
# Programs that borrow the cells of a store

A store is a family of cells `ℕ → β`.  A program borrows one cell, works while it holds the borrow
(it may borrow further cells inside) and gives the cell back, either unchanged (`read`) or with a new
value (`modify`).  Borrows are therefore properly nested, as the scopes of lock guards are.

* `Prog` with its monad structure: the programs;
* `run`: what a program does to the store.  Borrowing a cell that is already held never returns
  (`Fault.locked`), and at most `slots` cells can be held at once (`Fault.outOfSlots`);
* `wp` and its rules: total correctness with an exceptional postcondition for the faults;
* `Machine`, `exec` and `Simulates`: an implementation of the store behind an interface, and the
  theorem `exec_refines` that an implementation whose single steps simulate the store runs every
  program exactly as `run` does;
* `exec_invariant`: what an implementation keeps while a cell is borrowed, or while a program
  only reads.
-/

namespace LemonCore.Foundation.BorrowProgram

variable {b : ℕ} {c : Prop} {α : Type}

/-- Why a program did not return. -/
inductive Fault (ε : Type) where
  | panic (e : ε)
  | locked (b : ℕ)
  | outOfSlots
  deriving DecidableEq, Repr

/-- Programs over cells of type `β` that may panic with an `ε`. -/
inductive Prog (β ε : Type) : Type → Type 1 where
  | pure {α : Type} (a : α) : Prog β ε α
  | panic {α : Type} (e : ε) : Prog β ε α
  | read {γ α : Type} (b : ℕ) (body : β → Prog β ε γ) (k : γ → Prog β ε α) : Prog β ε α
  | modify {γ α : Type} (b : ℕ) (body : β → Prog β ε (β × γ)) (k : γ → Prog β ε α) : Prog β ε α
  | sync {α : Type} (k : Prog β ε α) : Prog β ε α

variable {β ε α γ δ ι σ : Type}

/-! ### The monad of programs -/

/-- Sequential composition. -/
def Prog.bind : {α : Type} → Prog β ε α → (α → Prog β ε δ) → Prog β ε δ
  | _, .pure a, f => f a
  | _, .panic e, _ => .panic e
  | _, .read b body k, f => .read b body fun g => (k g).bind f
  | _, .modify b body k, f => .modify b body fun g => (k g).bind f
  | _, .sync k, f => .sync (k.bind f)

instance : Monad (Prog β ε) where
  pure := Prog.pure
  bind := Prog.bind

/-- Borrow a cell and compute with the value found in it. -/
def Prog.borrow (b : ℕ) (body : β → Prog β ε γ) : Prog β ε γ := .read b body .pure

/-- Borrow a cell and leave a new value in it. -/
def Prog.update (b : ℕ) (body : β → Prog β ε (β × γ)) : Prog β ε γ := .modify b body .pure

/-- Write everything back. -/
def Prog.syncAll : Prog β ε Unit := .sync (.pure ())

/-- An assertion of the program. -/
def Prog.assert (c : Prop) [Decidable c] (e : ε) : Prog β ε Unit :=
  if c then .pure () else .panic e

/-- A loop over a list that carries an accumulator. -/
def Prog.forList (f : ι → σ → Prog β ε σ) : List ι → σ → Prog β ε σ
  | [], s => .pure s
  | i :: is, s => (f i s).bind fun s' => Prog.forList f is s'

/-- A loop over a list that is left at the first accumulator with `stop`. -/
def Prog.forUntil (stop : σ → Bool) (f : ι → σ → Prog β ε σ) : List ι → σ → Prog β ε σ
  | [], s => .pure s
  | i :: is, s => if stop s then .pure s else (f i s).bind fun s' => Prog.forUntil stop f is s'

/-! ### What a program does to the store -/

/-- Hand a result and a state on to a continuation; a fault ends the run. -/
def andThen {σ' : Type} (x : Except (Fault ε) (α × σ)) (f : α → σ → Except (Fault ε) (γ × σ')) :
    Except (Fault ε) (γ × σ') :=
  match x with
  | .error e => .error e
  | .ok r => f r.1 r.2

/-- The effect of a program on the store, with the cells in `held` already borrowed. -/
def run (slots : ℕ) : {α : Type} → Prog β ε α → List ℕ → (ℕ → β) → Except (Fault ε) (α × (ℕ → β))
  | _, .pure a, _, d => .ok (a, d)
  | _, .panic e, _, _ => .error (.panic e)
  | _, .read b body k, held, d =>
      if b ∈ held then .error (.locked b)
      else if slots ≤ held.length then .error .outOfSlots
      else andThen (run slots (body (d b)) (b :: held) d) fun g d' => run slots (k g) held d'
  | _, .modify b body k, held, d =>
      if b ∈ held then .error (.locked b)
      else if slots ≤ held.length then .error .outOfSlots
      else andThen (run slots (body (d b)) (b :: held) d) fun x d' =>
        run slots (k x.2) held (Function.update d' b x.1)
  | _, .sync k, held, d => run slots k held d

theorem andThen_assoc {σ' : Type} (x : Except (Fault ε) (α × σ))
    (f : α → σ → Except (Fault ε) (γ × σ)) (g : γ → σ → Except (Fault ε) (δ × σ')) :
    andThen (andThen x f) g = andThen x fun a s => andThen (f a s) g := by
  cases x with
  | error e => rfl
  | ok r => rfl

/-- Composition runs the first program and hands its result and its store to the second. -/
theorem run_bind (slots : ℕ) {α : Type} (p : Prog β ε α) (f : α → Prog β ε δ) :
    ∀ (held : List ℕ) (d : ℕ → β), run slots (p.bind f) held d =
      andThen (run slots p held d) fun a d' => run slots (f a) held d' := by
  induction p with
  | pure a => intro held d; rfl
  | panic e => intro held d; rfl
  | read b body k _ ihk =>
    intro held d
    simp only [Prog.bind, run, ihk]
    split
    · rfl
    · split
      · rfl
      · rw [andThen_assoc]
  | modify b body k _ ihk =>
    intro held d
    simp only [Prog.bind, run, ihk]
    split
    · rfl
    · split
      · rfl
      · rw [andThen_assoc]
  | sync k ih =>
    intro held d
    exact ih f held d

/-- `run` with every stored value passed through `r`.  Where `r` does not change a value, but writes it in
a form that is read at once, long closed runs can be evaluated. -/
def runVia (r : β → β) (slots : ℕ) :
    {α : Type} → Prog β ε α → List ℕ → (ℕ → β) → Except (Fault ε) (α × (ℕ → β))
  | _, .pure a, _, d => .ok (a, d)
  | _, .panic e, _, _ => .error (.panic e)
  | _, .read b body k, held, d =>
      if b ∈ held then .error (.locked b)
      else if slots ≤ held.length then .error .outOfSlots
      else andThen (runVia r slots (body (d b)) (b :: held) d) fun g d' => runVia r slots (k g) held d'
  | _, .modify b body k, held, d =>
      if b ∈ held then .error (.locked b)
      else if slots ≤ held.length then .error .outOfSlots
      else andThen (runVia r slots (body (d b)) (b :: held) d) fun x d' =>
        runVia r slots (k x.2) held fun c => if c = b then r x.1 else d' c
  | _, .sync k, held, d => runVia r slots k held d

theorem runVia_eq {r : β → β} (hr : ∀ x, r x = x) (slots : ℕ) (p : Prog β ε α) :
    ∀ held d, runVia r slots p held d = run slots p held d := by
  have hupdate : ∀ (d : ℕ → β) b x, (fun c => if c = b then r x else d c) = Function.update d b x := by
    intro d b x
    funext c
    rw [hr, Function.update_apply]
  induction p with
  | pure a => exact fun _ _ => rfl
  | panic e => exact fun _ _ => rfl
  | read b body k ihb ihk =>
    intro held d
    simp only [runVia, run, ihb, ihk]
  | modify b body k ihb ihk =>
    intro held d
    simp only [runVia, run, ihb, ihk, hupdate]
  | sync k ih => exact ih

/-! ### Weakest preconditions -/

/-- The outcome of `p` satisfies `Q` when it returns and `E` when it faults. -/
def wp (slots : ℕ) (p : Prog β ε α) (held : List ℕ) (d : ℕ → β)
    (Q : α → (ℕ → β) → Prop) (E : Fault ε → Prop) : Prop :=
  match run slots p held d with
  | .ok r => Q r.1 r.2
  | .error e => E e

variable {slots : ℕ} {held : List ℕ} {d : ℕ → β} {E : Fault ε → Prop}

@[simp] theorem wp_pure {a : α} {Q : α → (ℕ → β) → Prop} :
    wp slots (.pure a) held d Q E ↔ Q a d := Iff.rfl

@[simp] theorem wp_pure' {a : α} {Q : α → (ℕ → β) → Prop} :
    wp slots (pure a : Prog β ε α) held d Q E ↔ Q a d := Iff.rfl

@[simp] theorem wp_panic {e : ε} {Q : α → (ℕ → β) → Prop} :
    wp slots (.panic e) held d Q E ↔ E (.panic e) := Iff.rfl

@[simp] theorem wp_bind {p : Prog β ε α} {f : α → Prog β ε δ} {Q : δ → (ℕ → β) → Prop} :
    wp slots (p.bind f) held d Q E ↔
      wp slots p held d (fun a d' => wp slots (f a) held d' Q E) E := by
  unfold wp
  rw [run_bind]
  cases run slots p held d with
  | error e => rfl
  | ok r => rfl

@[simp] theorem wp_bind' {p : Prog β ε α} {f : α → Prog β ε δ} {Q : δ → (ℕ → β) → Prop} :
    wp slots (p >>= f) held d Q E ↔
      wp slots p held d (fun a d' => wp slots (f a) held d' Q E) E := wp_bind

@[simp] theorem wp_syncAll {Q : Unit → (ℕ → β) → Prop} :
    wp slots Prog.syncAll held d Q E ↔ Q () d := Iff.rfl

theorem wp_mono {p : Prog β ε α} {Q Q' : α → (ℕ → β) → Prop} {E' : Fault ε → Prop}
    (h : wp slots p held d Q E) (hQ : ∀ a d', Q a d' → Q' a d') (hE : ∀ e, E e → E' e) :
    wp slots p held d Q' E' := by
  unfold wp at h ⊢
  cases hr : run slots p held d with
  | error e => rw [hr] at h; exact hE e h
  | ok r => rw [hr] at h; exact hQ _ _ h

/-- A program that never faults may be used under any exceptional postcondition. -/
theorem wp_weaken {p : Prog β ε α} {Q Q' : α → (ℕ → β) → Prop}
    (h : wp slots p held d Q fun _ => False) (hQ : ∀ a d', Q a d' → Q' a d') :
    wp slots p held d Q' E :=
  wp_mono h hQ fun _ he => he.elim

/-- **Borrow rule.**  A free cell is borrowed while fewer than `slots` cells are held. -/
theorem wp_borrow {body : β → Prog β ε α} {Q : α → (ℕ → β) → Prop}
    (hb : b ∉ held) (hs : held.length < slots)
    (h : wp slots (body (d b)) (b :: held) d Q E) :
    wp slots (Prog.borrow b body) held d Q E := by
  unfold wp at h ⊢
  simp only [Prog.borrow, run, if_neg hb, if_neg (Nat.not_le.mpr hs), andThen]
  cases hr : run slots (body (d b)) (b :: held) d with
  | error e => rw [hr] at h; exact h
  | ok r => rw [hr] at h; exact h

/-- Where every fault is allowed, a cell may be borrowed without knowing that it is free. -/
theorem wp_borrow_any {body : β → Prog β ε α} {Q : α → (ℕ → β) → Prop} (hE : ∀ e, E e)
    (h : wp slots (body (d b)) (b :: held) d Q E) : wp slots (Prog.borrow b body) held d Q E := by
  by_cases hb : b ∈ held
  · unfold wp
    simp only [Prog.borrow, run, if_pos hb]
    exact hE _
  by_cases hs : slots ≤ held.length
  · unfold wp
    simp only [Prog.borrow, run, if_neg hb, if_pos hs]
    exact hE _
  · exact wp_borrow hb (Nat.not_le.mp hs) h

/-- Every program satisfies the trivial postconditions. -/
theorem wp_any {p : Prog β ε α} {Q : α → (ℕ → β) → Prop} (hQ : ∀ a d', Q a d') (hE : ∀ e, E e) :
    wp slots p held d Q E := by
  unfold wp
  cases run slots p held d with
  | error e => exact hE e
  | ok r => exact hQ _ _

/-- **Update rule.**  The value the body leaves is stored when the borrow ends. -/
theorem wp_update {body : β → Prog β ε (β × α)} {Q : α → (ℕ → β) → Prop}
    (hb : b ∉ held) (hs : held.length < slots)
    (h : wp slots (body (d b)) (b :: held) d (fun x d' => Q x.2 (Function.update d' b x.1)) E) :
    wp slots (Prog.update b body) held d Q E := by
  unfold wp at h ⊢
  simp only [Prog.update, run, if_neg hb, if_neg (Nat.not_le.mpr hs), andThen]
  cases hr : run slots (body (d b)) (b :: held) d with
  | error e => rw [hr] at h; exact h
  | ok r => rw [hr] at h; exact h

theorem wp_assert [Decidable c] {e : ε} {Q : Unit → (ℕ → β) → Prop} (hc : c)
    (h : Q () d) : wp slots (Prog.assert c e) held d Q E := by
  rw [Prog.assert, if_pos hc]
  exact h

/-- Where every fault is allowed, what is asserted may be assumed. -/
theorem wp_assert_any [Decidable c] {e : ε} {Q : Unit → (ℕ → β) → Prop} (hE : ∀ e, E e)
    (h : c → Q () d) : wp slots (Prog.assert c e) held d Q E := by
  by_cases hc : c
  · exact wp_assert hc (h hc)
  · rw [Prog.assert, if_neg hc]
    exact wp_panic.mpr (hE _)

/-- **Loop rule.**  `I` holds of the part of the list still ahead, the accumulator and the store. -/
theorem wp_forList {f : ι → σ → Prog β ε σ} (I : List ι → σ → (ℕ → β) → Prop)
    (hstep : ∀ i is s d, I (i :: is) s d →
      wp slots (f i s) held d (fun s' d' => I is s' d') E) :
    ∀ (l : List ι) (s : σ) (d : ℕ → β), I l s d →
      wp slots (Prog.forList f l s) held d (fun s' d' => I [] s' d') E := by
  intro l
  induction l with
  | nil => intro s d h; exact h
  | cons i is ih =>
    intro s d h
    rw [Prog.forList, wp_bind]
    exact wp_mono (hstep i is s d h) (fun s' d' h' => ih s' d' h') fun _ he => he

theorem wp_forList_append {f : ι → σ → Prog β ε σ} {Q : σ → (ℕ → β) → Prop} (l₂ : List ι) :
    ∀ (l₁ : List ι) (s : σ) (d : ℕ → β),
      wp slots (Prog.forList f l₁ s) held d
        (fun s' d' => wp slots (Prog.forList f l₂ s') held d' Q E) E →
      wp slots (Prog.forList f (l₁ ++ l₂) s) held d Q E := by
  intro l₁
  induction l₁ with
  | nil => intro s d h; exact h
  | cons i is ih =>
    intro s d h
    rw [Prog.forList, wp_bind] at h
    rw [List.cons_append, Prog.forList, wp_bind]
    exact wp_mono h (fun s' d' h' => ih s' d' h') fun _ he => he

/-- The loop rule for a loop that can be left early: what each round keeps holds at the end. -/
theorem wp_forUntil {stop : σ → Bool} {f : ι → σ → Prog β ε σ} (I : σ → (ℕ → β) → Prop)
    (hstep : ∀ i s d, I s d → wp slots (f i s) held d I E) :
    ∀ (l : List ι) (s : σ) (d : ℕ → β), I s d → wp slots (Prog.forUntil stop f l s) held d I E := by
  intro l
  induction l with
  | nil => intro s d h; exact h
  | cons i is ih =>
    intro s d h
    rw [Prog.forUntil]
    split
    · exact h
    · rw [wp_bind]
      exact wp_mono (hstep i s d h) (fun s' d' h' => ih s' d' h') fun _ he => he

/-- A program that satisfies a postcondition without faulting returns. -/
theorem wp_returns {p : Prog β ε α} {Q : α → (ℕ → β) → Prop}
    (h : wp slots p held d Q fun _ => False) :
    ∃ a d', run slots p held d = .ok (a, d') ∧ Q a d' := by
  unfold wp at h
  cases hr : run slots p held d with
  | error e => rw [hr] at h; exact h.elim
  | ok r => rw [hr] at h; exact ⟨r.1, r.2, rfl, h⟩

/-- What a program satisfies holds of the result it returned. -/
theorem wp_result {p : Prog β ε α} {Q : α → (ℕ → β) → Prop} {a : α} {d' : ℕ → β}
    (h : wp slots p held d Q E) (hr : run slots p held d = .ok (a, d')) : Q a d' := by
  unfold wp at h
  rw [hr] at h
  exact h

/-- When faults do not matter, a program satisfies what holds of every result. -/
theorem wp_of_result {p : Prog β ε α} {Q : α → (ℕ → β) → Prop} (hE : ∀ e, E e)
    (h : ∀ a d', run slots p held d = .ok (a, d') → Q a d') : wp slots p held d Q E := by
  unfold wp
  cases hr : run slots p held d with
  | error e => exact hE e
  | ok r => exact h r.1 r.2 hr

/-- A program whose only outcome is the fault `f` ends in it. -/
theorem wp_faults {p : Prog β ε α} {f : Fault ε}
    (h : wp slots p held d (fun _ _ => False) fun e => e = f) : run slots p held d = .error f := by
  unfold wp at h
  cases hr : run slots p held d with
  | error e => rw [hr] at h; exact congrArg _ h
  | ok r => rw [hr] at h; exact h.elim

/-- What a program satisfies holds of the fault it ended in. -/
theorem wp_fault {p : Prog β ε α} {Q : α → (ℕ → β) → Prop} {f : Fault ε} (h : wp slots p held d Q E)
    (hr : run slots p held d = .error f) : E f := by
  unfold wp at h
  rw [hr] at h
  exact h

theorem wp_borrow_locked {body : β → Prog β ε α} {Q : α → (ℕ → β) → Prop} (hb : b ∈ held)
    (h : E (.locked b)) : wp slots (Prog.borrow b body) held d Q E := by
  unfold wp
  simp only [Prog.borrow, run, if_pos hb]
  exact h

theorem wp_update_locked {body : β → Prog β ε (β × α)} {Q : α → (ℕ → β) → Prop} (hb : b ∈ held)
    (h : E (.locked b)) : wp slots (Prog.update b body) held d Q E := by
  unfold wp
  simp only [Prog.update, run, if_pos hb]
  exact h

-- From here on programs are reasoned about with the rules above, never by running them.
attribute [irreducible] wp

/-! ### Implementations of the store -/

/-- An implementation of the store: how it hands out a cell, takes a new value for a held one,
takes a borrow back and writes everything back. -/
structure Machine (σ β ε : Type) where
  acquire : ℕ → σ → Except (Fault ε) (β × σ)
  store : ℕ → β → σ → σ
  release : ℕ → σ → σ
  sync : σ → σ

/-- A program on an implementation. -/
def exec (M : Machine σ β ε) : {α : Type} → Prog β ε α → σ → Except (Fault ε) (α × σ)
  | _, .pure a, s => .ok (a, s)
  | _, .panic e, _ => .error (.panic e)
  | _, .read b body k, s =>
      andThen (M.acquire b s) fun x s₁ =>
        andThen (exec M (body x) s₁) fun g s₂ => exec M (k g) (M.release b s₂)
  | _, .modify b body k, s =>
      andThen (M.acquire b s) fun x s₁ =>
        andThen (exec M (body x) s₁) fun y s₂ =>
          exec M (k y.2) (M.release b (M.store b y.1 s₂))
  | _, .sync k, s => exec M k (M.sync s)

theorem exec_bind (M : Machine σ β ε) {α : Type} (p : Prog β ε α) (f : α → Prog β ε δ) :
    ∀ s : σ, exec M (p.bind f) s = andThen (exec M p s) fun a s' => exec M (f a) s' := by
  induction p with
  | pure a => intro s; rfl
  | panic e => intro s; rfl
  | read b body k _ ihk =>
    intro s
    simp only [Prog.bind, exec, ihk, andThen_assoc]
  | modify b body k _ ihk =>
    intro s
    simp only [Prog.bind, exec, ihk, andThen_assoc]
  | sync k ih =>
    intro s
    exact ih f _

/-- The single steps of `M` simulate the store: `R s held d` says that in state `s` the cells `held`
are borrowed (the innermost first) and the store is `d`. -/
structure Simulates (M : Machine σ β ε) (slots : ℕ)
    (R : σ → List ℕ → (ℕ → β) → Prop) : Prop where
  acquire_ok : ∀ {s held d b}, R s held d → b ∉ held → held.length < slots →
    ∃ s', M.acquire b s = .ok (d b, s') ∧ R s' (b :: held) d
  acquire_locked : ∀ {s held d b}, R s held d → b ∈ held → M.acquire b s = .error (.locked b)
  acquire_full : ∀ {s held d b}, R s held d → b ∉ held → slots ≤ held.length →
    M.acquire b s = .error .outOfSlots
  store : ∀ {s held d b x}, R s (b :: held) d →
    R (M.store b x s) (b :: held) (Function.update d b x)
  release : ∀ {s held d b}, R s (b :: held) d → R (M.release b s) held d
  sync : ∀ {s held d}, R s held d → R (M.sync s) held d

/-- Two outcomes agree: the same fault, or the same result and related states. -/
def Agrees (R : σ → List ℕ → (ℕ → β) → Prop) (held : List ℕ) :
    Except (Fault ε) (α × σ) → Except (Fault ε) (α × (ℕ → β)) → Prop
  | .ok (a, s), .ok (a', d) => a = a' ∧ R s held d
  | .error e, .error e' => e = e'
  | _, _ => False

theorem Agrees.andThen {R : σ → List ℕ → (ℕ → β) → Prop} {held held' : List ℕ}
    {x : Except (Fault ε) (α × σ)} {y : Except (Fault ε) (α × (ℕ → β))}
    {f : α → σ → Except (Fault ε) (γ × σ)} {g : α → (ℕ → β) → Except (Fault ε) (γ × (ℕ → β))}
    (h : Agrees R held' x y)
    (hf : ∀ a s d, R s held' d → Agrees R held (f a s) (g a d)) :
    Agrees R held (andThen x f) (andThen y g) := by
  cases x with
  | error e =>
    cases y with
    | error e' => exact h
    | ok r => exact h.elim
  | ok q =>
    cases y with
    | error e' => exact h.elim
    | ok r =>
      obtain ⟨a, s⟩ := q
      obtain ⟨a', d⟩ := r
      obtain ⟨rfl, hR⟩ := h
      exact hf a s d hR

/-- **Refinement.**  An implementation whose steps simulate the store runs every program as `run`
does: it faults exactly when the program faults on the store, and else returns the same result. -/
theorem exec_refines {M : Machine σ β ε} {R : σ → List ℕ → (ℕ → β) → Prop}
    (hM : Simulates M slots R) {α : Type} (p : Prog β ε α) :
    ∀ (s : σ) (held : List ℕ) (d : ℕ → β), R s held d →
      Agrees R held (exec M p s) (run slots p held d) := by
  induction p with
  | pure a => intro s held d h; exact ⟨rfl, h⟩
  | panic e => intro s held d _; exact (rfl : Fault.panic e = Fault.panic e)
  | read b body k ihb ihk =>
    intro s held d h
    simp only [exec, run]
    by_cases hb : b ∈ held
    · rw [if_pos hb, hM.acquire_locked h hb]
      exact rfl
    · rw [if_neg hb]
      by_cases hs : slots ≤ held.length
      · rw [if_pos hs, hM.acquire_full h hb hs]
        exact rfl
      · rw [if_neg hs]
        obtain ⟨s₁, ha, h₁⟩ := hM.acquire_ok h hb (Nat.not_le.mp hs)
        rw [ha]
        exact (ihb (d b) s₁ (b :: held) d h₁).andThen fun g s₂ d' hR =>
          ihk g _ held d' (hM.release hR)
  | modify b body k ihb ihk =>
    intro s held d h
    simp only [exec, run]
    by_cases hb : b ∈ held
    · rw [if_pos hb, hM.acquire_locked h hb]
      exact rfl
    · rw [if_neg hb]
      by_cases hs : slots ≤ held.length
      · rw [if_pos hs, hM.acquire_full h hb hs]
        exact rfl
      · rw [if_neg hs]
        obtain ⟨s₁, ha, h₁⟩ := hM.acquire_ok h hb (Nat.not_le.mp hs)
        rw [ha]
        exact (ihb (d b) s₁ (b :: held) d h₁).andThen fun y s₂ d' hR =>
          ihk y.2 _ held _ (hM.release (hM.store (x := y.1) hR))
  | sync k ih =>
    intro s held d h
    exact ih _ held d (hM.sync h)

/-- What an implementation returns, the program returns on the store. -/
theorem exec_ok {M : Machine σ β ε} {R : σ → List ℕ → (ℕ → β) → Prop} (hM : Simulates M slots R)
    {p : Prog β ε α} {s s' : σ} {a : α} (hs : R s held d) (h : exec M p s = .ok (a, s')) :
    ∃ d', run slots p held d = .ok (a, d') ∧ R s' held d' := by
  have hag := exec_refines hM p s held d hs
  rw [h] at hag
  cases hr : run slots p held d with
  | error e => rw [hr] at hag; exact hag.elim
  | ok r =>
    rw [hr] at hag
    obtain ⟨ha, hR⟩ := hag
    exact ⟨r.2, by rw [ha], hR⟩

/-- What the program returns on the store, an implementation returns. -/
theorem exec_of_run {M : Machine σ β ε} {R : σ → List ℕ → (ℕ → β) → Prop} (hM : Simulates M slots R)
    {p : Prog β ε α} {s : σ} {a : α} {d' : ℕ → β} (hs : R s held d)
    (h : run slots p held d = .ok (a, d')) : ∃ s', exec M p s = .ok (a, s') ∧ R s' held d' := by
  have hag := exec_refines hM p s held d hs
  rw [h] at hag
  cases hr : exec M p s with
  | error e => rw [hr] at hag; exact hag.elim
  | ok r =>
    rw [hr] at hag
    obtain ⟨ha, hR⟩ := hag
    exact ⟨r.2, by rw [← ha], hR⟩

/-- An implementation faults where the program faults on the store. -/
theorem exec_of_fault {M : Machine σ β ε} {R : σ → List ℕ → (ℕ → β) → Prop} (hM : Simulates M slots R)
    {p : Prog β ε α} {s : σ} {e : Fault ε} (hs : R s held d) (h : run slots p held d = .error e) :
    exec M p s = .error e := by
  have hag := exec_refines hM p s held d hs
  rw [h] at hag
  cases hr : exec M p s with
  | error e' => rw [hr] at hag; exact congrArg _ hag
  | ok r => rw [hr] at hag; exact hag.elim

theorem exec_map_fst {M : Machine σ β ε} {R : σ → List ℕ → (ℕ → β) → Prop} (hM : Simulates M slots R)
    (p : Prog β ε α) {s : σ} (hs : R s held d) :
    (exec M p s).map Prod.fst = (run slots p held d).map Prod.fst := by
  cases h : run slots p held d with
  | error e => rw [exec_of_fault hM hs h]; rfl
  | ok r =>
    obtain ⟨s', hexec, _⟩ := exec_of_run hM hs h
    rw [hexec]
    rfl

/-! ### One borrow of an implementation -/

theorem andThen_ok {σ' : Type} {x : Except (Fault ε) (α × σ)}
    {f : α → σ → Except (Fault ε) (γ × σ')} {r : γ × σ'} (h : andThen x f = .ok r) :
    ∃ a s, x = .ok (a, s) ∧ f a s = .ok r := by
  cases x with
  | error e => cases h
  | ok q => exact ⟨q.1, q.2, rfl, h⟩

theorem exec_bind_ok {M : Machine σ β ε} {p : Prog β ε α} {f : α → Prog β ε δ} {s s' : σ}
    {r : δ} (h : exec M (p >>= f) s = .ok (r, s')) :
    ∃ a s₁, exec M p s = .ok (a, s₁) ∧ exec M (f a) s₁ = .ok (r, s') :=
  andThen_ok ((exec_bind M p f s).symm.trans h)

/-- A cell that was handed out was free. -/
theorem Simulates.acquired {M : Machine σ β ε} {R : σ → List ℕ → (ℕ → β) → Prop}
    (hM : Simulates M slots R) {s s' : σ} {b : ℕ} {x : β} (hR : R s held d)
    (h : M.acquire b s = .ok (x, s')) : b ∉ held ∧ R s' (b :: held) d := by
  by_cases hb : b ∈ held
  · rw [hM.acquire_locked hR hb] at h
    cases h
  by_cases hs : slots ≤ held.length
  · rw [hM.acquire_full hR hb hs] at h
    cases h
  obtain ⟨s₁, ha, hR₁⟩ := hM.acquire_ok hR hb (Nat.not_le.mp hs)
  rw [ha] at h
  cases h
  exact ⟨hb, hR₁⟩

theorem exec_read_ok {M : Machine σ β ε} {R : σ → List ℕ → (ℕ → β) → Prop}
    (hM : Simulates M slots R) {α γ : Type} {b : ℕ} {body : β → Prog β ε γ} {k : γ → Prog β ε α}
    {s s' : σ} {a : α} (hR : R s held d) (h : exec M (.read b body k) s = .ok (a, s')) :
    ∃ x s₁ g s₂, (b ∉ held ∧ R s₁ (b :: held) d) ∧ M.acquire b s = .ok (x, s₁) ∧
      exec M (body x) s₁ = .ok (g, s₂) ∧ exec M (k g) (M.release b s₂) = .ok (a, s') := by
  obtain ⟨x, s₁, ha, h⟩ := andThen_ok h
  obtain ⟨g, s₂, hbody, h⟩ := andThen_ok h
  exact ⟨x, s₁, g, s₂, hM.acquired hR ha, ha, hbody, h⟩

theorem exec_modify_ok {M : Machine σ β ε} {R : σ → List ℕ → (ℕ → β) → Prop}
    (hM : Simulates M slots R) {α γ : Type} {b : ℕ} {body : β → Prog β ε (β × γ)}
    {k : γ → Prog β ε α} {s s' : σ} {a : α} (hR : R s held d)
    (h : exec M (.modify b body k) s = .ok (a, s')) :
    ∃ x s₁ y s₂, (b ∉ held ∧ R s₁ (b :: held) d) ∧ M.acquire b s = .ok (x, s₁) ∧
      exec M (body x) s₁ = .ok (y, s₂) ∧
      exec M (k y.2) (M.release b (M.store b y.1 s₂)) = .ok (a, s') := by
  obtain ⟨x, s₁, ha, h⟩ := andThen_ok h
  obtain ⟨y, s₂, hbody, h⟩ := andThen_ok h
  exact ⟨x, s₁, y, s₂, hM.acquired hR ha, ha, hbody, h⟩

/-! ### Programs that only read -/

/-- No cell gets a new value. -/
def Prog.ReadOnly : {α : Type} → Prog β ε α → Prop
  | _, .pure _ => True
  | _, .panic _ => True
  | _, .read _ body k => (∀ x, (body x).ReadOnly) ∧ ∀ g, (k g).ReadOnly
  | _, .modify _ _ _ => False
  | _, .sync k => k.ReadOnly

@[simp] theorem readOnly_pure' {a : α} : (pure a : Prog β ε α).ReadOnly := trivial

@[simp] theorem readOnly_panic {e : ε} : (.panic e : Prog β ε α).ReadOnly := trivial

theorem Prog.ReadOnly.bind {p : Prog β ε α} {f : α → Prog β ε δ} (hp : p.ReadOnly)
    (hf : ∀ a, (f a).ReadOnly) : (p >>= f).ReadOnly := by
  show (p.bind f).ReadOnly
  induction p with
  | pure a => exact hf a
  | panic e => trivial
  | read b body k _ ihk => exact ⟨hp.1, fun g => ihk g (hp.2 g) hf⟩
  | modify b body k _ _ => exact hp.elim
  | sync k ih => exact ih hp hf

theorem readOnly_borrow {body : β → Prog β ε α} (h : ∀ x, (body x).ReadOnly) :
    (Prog.borrow b body).ReadOnly := ⟨h, fun _ => trivial⟩

@[simp] theorem readOnly_assert [Decidable c] {e : ε} :
    (Prog.assert c e : Prog β ε Unit).ReadOnly := by
  rw [Prog.assert]
  split <;> trivial

/-- **An invariant of an implementation's state.**  Let `I` be kept by handing out cells, taking them
back and writing back, and by storing a cell while the cells `held` with `K held` are borrowed outside
of it.  Then a program that runs under such borrows keeps `I`, and so does one that only reads. -/
theorem exec_invariant {M : Machine σ β ε} {R : σ → List ℕ → (ℕ → β) → Prop}
    (hM : Simulates M slots R) {K : List ℕ → Prop} {I : σ → Prop}
    (hK : ∀ {held b}, K held → K (b :: held))
    (hacquire : ∀ {s held d b x s'}, R s held d → I s → M.acquire b s = .ok (x, s') → I s')
    (hstore : ∀ {s held d b x}, R s (b :: held) d → b ∉ held → K held → I s → I (M.store b x s))
    (hrelease : ∀ {s held d b}, R s (b :: held) d → I s → I (M.release b s))
    (hsync : ∀ {s held d}, R s held d → I s → I (M.sync s)) {α : Type} (p : Prog β ε α) :
    ∀ {s held d a s'}, p.ReadOnly ∨ K held → R s held d → I s → exec M p s = .ok (a, s') →
      I s' := by
  induction p with
  | pure a =>
    intro s held d a s' _ _ hI h
    cases h
    exact hI
  | panic e =>
    intro s held d a s' _ _ _ h
    cases h
  | read b body k ihb ihk =>
    intro s held d a s' hp hR hI h
    obtain ⟨x, s₁, g, s₂, hb, ha, hbody, hk⟩ := exec_read_ok hM hR h
    have hp' : (body x).ReadOnly ∨ K (b :: held) := hp.imp (fun hp => hp.1 x) hK
    have hk' : (k g).ReadOnly ∨ K held := hp.imp_left fun hp => hp.2 g
    obtain ⟨d₂, _, hR₂⟩ := exec_ok hM hb.2 hbody
    exact ihk g hk' (hM.release hR₂) (hrelease hR₂ (ihb x hp' hb.2 (hacquire hR hI ha) hbody)) hk
  | modify b body k ihb ihk =>
    intro s held d a s' hp hR hI h
    have hheld : K held := hp.resolve_left fun hno => hno
    obtain ⟨x, s₁, y, s₂, hb, ha, hbody, hk⟩ := exec_modify_ok hM hR h
    obtain ⟨d₂, _, hR₂⟩ := exec_ok hM hb.2 hbody
    have hI₁ := ihb x (Or.inr (hK hheld)) hb.2 (hacquire hR hI ha) hbody
    have hI₂ := hstore (x := y.1) hR₂ hb.1 hheld hI₁
    exact ihk y.2 (Or.inr hheld) (hM.release (hM.store hR₂)) (hrelease (hM.store hR₂) hI₂) hk
  | sync k ih =>
    intro s held d a s' hp hR hI h
    exact ih hp (hM.sync hR) (hsync hR hI) h

end LemonCore.Foundation.BorrowProgram
