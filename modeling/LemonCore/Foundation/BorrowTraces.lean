import LemonCore.Foundation.BorrowProgram

/-!
# Which cells a program asks for

`asked` lists the cells that a program borrows, in the order in which it asks for them, up to the point
where it returns or faults.  The rules of `wp` say nothing about it; but a program can be run while somebody
else holds a cell, and then it gets stuck exactly at the first time it asks for that cell.

* `asked_avoids`: a program that is not hindered while more cells are held has asked for none of these;
* `asked_of_locked`: a program that gets stuck at a cell has asked for it;
* `not_asked_of_wp`, `asked_of_wp`: so what a program asks for follows from what it does while other cells are
  held.
-/

namespace LemonCore.Foundation.BorrowProgram

variable {β ε α δ : Type} {slots : ℕ} {held held' : List ℕ} {d d' : ℕ → β} {b c : ℕ}

/-- Go on after a run that has returned. -/
def afterRun (x : Except (Fault ε) (α × (ℕ → β))) (f : α → (ℕ → β) → List ℕ) : List ℕ :=
  match x with
  | .error _ => []
  | .ok r => f r.1 r.2

/-- The cells that a program asks for, in order. -/
def asked (slots : ℕ) : {α : Type} → Prog β ε α → List ℕ → (ℕ → β) → List ℕ
  | _, .pure _, _, _ => []
  | _, .panic _, _, _ => []
  | _, .read b body k, held, d =>
      b :: if b ∈ held ∨ slots ≤ held.length then [] else
        asked slots (body (d b)) (b :: held) d ++
          afterRun (run slots (body (d b)) (b :: held) d) fun g d' => asked slots (k g) held d'
  | _, .modify b body k, held, d =>
      b :: if b ∈ held ∨ slots ≤ held.length then [] else
        asked slots (body (d b)) (b :: held) d ++
          afterRun (run slots (body (d b)) (b :: held) d) fun x d' =>
            asked slots (k x.2) held (Function.update d' b x.1)
  | _, .sync k, held, d => asked slots k held d

/-- The run did not end at a cell that it could not get. -/
def Unhindered (x : Except (Fault ε) (α × (ℕ → β))) : Prop := ∀ f, x = .error f → ∃ e, f = .panic e

theorem unhindered_ok (a : α) (d : ℕ → β) : Unhindered (.ok (a, d) : Except (Fault ε) _) :=
  fun _ h => by cases h

/-- What is unhindered as a whole is unhindered in its first part. -/
theorem Unhindered.first {x : Except (Fault ε) (α × (ℕ → β))}
    {f : α → (ℕ → β) → Except (Fault ε) (δ × (ℕ → β))} (h : Unhindered (andThen x f)) : Unhindered x := by
  intro e he
  rw [he] at h
  exact h e rfl

theorem Unhindered.granted {x : Except (Fault ε) (α × (ℕ → β))}
    (h : Unhindered (if b ∈ held then .error (.locked b)
      else if slots ≤ held.length then .error .outOfSlots else x)) :
    b ∉ held ∧ held.length < slots ∧ Unhindered x := by
  split at h
  · obtain ⟨e, he⟩ := h _ rfl
    cases he
  split at h
  · obtain ⟨e, he⟩ := h _ rfl
    cases he
  rename_i hb hs
  exact ⟨hb, Nat.not_le.mp hs, h⟩

/-- The same cells are held, and perhaps more. -/
structure Fewer (held held' : List ℕ) : Prop where
  subset : ∀ b ∈ held, b ∈ held'
  length : held.length ≤ held'.length

theorem Fewer.cons (h : Fewer held held') (b : ℕ) : Fewer (b :: held) (b :: held') := by
  refine ⟨?_, Nat.succ_le_succ h.length⟩
  intro c hc
  rcases List.mem_cons.mp hc with rfl | hc
  · exact List.mem_cons_self
  · exact List.mem_cons_of_mem _ (h.subset c hc)

theorem Fewer.not_refused (h : Fewer held held') (hb : b ∉ held') (hs : held'.length < slots) :
    ¬ (b ∈ held ∨ slots ≤ held.length) := by
  rintro (hin | hfull)
  · exact hb (h.subset b hin)
  · exact absurd (le_trans hfull h.length) (Nat.not_le.mpr hs)

/-- What a borrow asks for: the cell, then what the body asks for, then the rest. -/
theorem avoids_borrow {inside after : List ℕ} (hb : b ∉ held') (hinside : ∀ c ∈ inside, c ∉ b :: held')
    (hafter : ∀ c ∈ after, c ∉ held') : ∀ c ∈ b :: (inside ++ after), c ∉ held' := by
  intro c hc
  rcases List.mem_cons.mp hc with rfl | hc
  · exact hb
  rcases List.mem_append.mp hc with hc | hc
  · exact fun hin => hinside c hc (List.mem_cons_of_mem _ hin)
  · exact hafter c hc

/-- **What is not hindered by more held cells** does the same under fewer, and has asked for none of the
cells that were held. -/
theorem asked_avoids {α : Type} (p : Prog β ε α) : ∀ {held held' : List ℕ} {d : ℕ → β},
    Fewer held held' → Unhindered (run slots p held' d) →
    run slots p held d = run slots p held' d ∧ ∀ c ∈ asked slots p held d, c ∉ held' := by
  induction p with
  | pure a => exact fun _ _ => ⟨rfl, fun c hc => absurd hc List.not_mem_nil⟩
  | panic e => exact fun _ _ => ⟨rfl, fun c hc => absurd hc List.not_mem_nil⟩
  | read b body k ihb ihk =>
    intro held held' d hf h
    simp only [run] at h
    obtain ⟨hb, hs, h⟩ := h.granted
    obtain ⟨hbody, havoid⟩ := ihb (d b) (hf.cons b) h.first
    have hno := hf.not_refused hb hs
    simp only [run, asked, if_neg hb, if_neg (Nat.not_le.mpr hs), if_neg hno, if_neg (not_or.mp hno).1,
      if_neg (not_or.mp hno).2, hbody]
    cases hrun : run slots (body (d b)) (b :: held') d with
    | error e => exact ⟨rfl, avoids_borrow hb havoid fun c hc => absurd hc List.not_mem_nil⟩
    | ok r =>
      rw [hrun] at h
      obtain ⟨hk, havoid'⟩ := ihk r.1 hf h
      exact ⟨hk, avoids_borrow hb havoid havoid'⟩
  | modify b body k ihb ihk =>
    intro held held' d hf h
    simp only [run] at h
    obtain ⟨hb, hs, h⟩ := h.granted
    obtain ⟨hbody, havoid⟩ := ihb (d b) (hf.cons b) h.first
    have hno := hf.not_refused hb hs
    simp only [run, asked, if_neg hb, if_neg (Nat.not_le.mpr hs), if_neg hno, if_neg (not_or.mp hno).1,
      if_neg (not_or.mp hno).2, hbody]
    cases hrun : run slots (body (d b)) (b :: held') d with
    | error e => exact ⟨rfl, avoids_borrow hb havoid fun c hc => absurd hc List.not_mem_nil⟩
    | ok r =>
      rw [hrun] at h
      obtain ⟨hk, havoid'⟩ := ihk r.1.2 hf h
      exact ⟨hk, avoids_borrow hb havoid havoid'⟩
  | sync k ih =>
    intro held held' d hf h
    exact ih hf h

/-- **What gets stuck at a cell** that somebody else holds has asked for it. -/
theorem asked_of_locked {α : Type} (p : Prog β ε α) : ∀ {held : List ℕ} {d : ℕ → β},
    run slots p (held ++ [c]) d = .error (.locked c) → c ∈ asked slots p held d := by
  have hfewer : ∀ held : List ℕ, Fewer held (held ++ [c]) := fun held =>
    ⟨fun b hb => List.mem_append_left _ hb, by simp⟩
  induction p with
  | pure a => exact fun h => by cases h
  | panic e => exact fun h => by cases h
  | read b body k ihb ihk =>
    intro held d h
    simp only [run] at h
    split at h
    · -- it is stuck here
      cases h
      exact List.mem_cons_self
    split at h
    · cases h
    rename_i hb hs
    have hno := (hfewer held).not_refused hb (Nat.not_le.mp hs)
    simp only [asked, if_neg hno]
    refine List.mem_cons_of_mem _ (List.mem_append.mpr ?_)
    cases hbody : run slots (body (d b)) (b :: (held ++ [c])) d with
    | error e =>
      rw [hbody] at h
      cases h
      exact Or.inl (ihb (d b) hbody)
    | ok r =>
      rw [hbody] at h
      refine Or.inr ?_
      rw [(asked_avoids (body (d b)) (hfewer (b :: held)) (hbody ▸ unhindered_ok _ _)).1,
        List.cons_append, hbody]
      exact ihk r.1 h
  | modify b body k ihb ihk =>
    intro held d h
    simp only [run] at h
    split at h
    · cases h
      exact List.mem_cons_self
    split at h
    · cases h
    rename_i hb hs
    have hno := (hfewer held).not_refused hb (Nat.not_le.mp hs)
    simp only [asked, if_neg hno]
    refine List.mem_cons_of_mem _ (List.mem_append.mpr ?_)
    cases hbody : run slots (body (d b)) (b :: (held ++ [c])) d with
    | error e =>
      rw [hbody] at h
      cases h
      exact Or.inl (ihb (d b) hbody)
    | ok r =>
      rw [hbody] at h
      refine Or.inr ?_
      rw [(asked_avoids (body (d b)) (hfewer (b :: held)) (hbody ▸ unhindered_ok _ _)).1,
        List.cons_append, hbody]
      exact ihk r.1.2 h
  | sync k ih => exact fun h => ih h

/-! ### From specifications -/

/-- What meets its specification without waiting while `b` is held does not ask for `b`. -/
theorem not_asked_of_wp {p : Prog β ε α} {Q : α → (ℕ → β) → Prop}
    (h : wp slots p (b :: held) d Q fun f => ∃ e, f = .panic e) : b ∉ asked slots p held d := by
  have hfewer : Fewer held (b :: held) := ⟨fun c hc => List.mem_cons_of_mem _ hc, Nat.le_succ _⟩
  intro hb
  exact (asked_avoids p hfewer fun f hf => wp_fault h hf).2 b hb List.mem_cons_self

/-- What can only wait for `c` while `c` is held asks for `c`. -/
theorem asked_of_wp {p : Prog β ε α}
    (h : wp slots p (held ++ [c]) d (fun _ _ => False) fun f => f = .locked c) : c ∈ asked slots p held d :=
  asked_of_locked p (wp_faults h)

end LemonCore.Foundation.BorrowProgram
