import LemonCore.Kernel.FileAccess

/-!
# Locks while the device works

Whenever the driver gives up the hart, the task holds the guard of its `OSInode`, the lock of the file
system and the lock of the cache manager: `suspended_with_locks` shows such a state, in which another task
spins forever.

As long as file calls find all their blocks in the cache and write nothing, no call reaches the device
(`Quiet`), and the locks are free whenever another task has the hart (`file_locks_free`).

* `Code.Holds`, `Exact`: which locks a task holds, from where it is in the kernel;
* `micro_exact`: kept by every piece;
* `QuietCall`: the condition on a call; `micro_quiet`: kept by every piece, and no piece reaches the device.
-/

namespace LemonCore.Kernel.FileAccess

open EasyFs Foundation.BorrowProgram

/-! ### The locks of a task -/

def Kont.Holds : {α : Type} → Kont α → Lock → Prop
  | _, .readAt h _ _, l => l = .fs ∨ l = .file h
  | _, .writeAt h _ _ _, l => l = .fs ∨ l = .file h
  | _, .endRead p _ rest, l => l = .block p ∨ rest.Holds l
  | _, .endModify p _ rest, l => l = .block p ∨ rest.Holds l

def Code.Holds : Code → Lock → Prop
  | .read h _ _, l => l = .file h
  | .write h _ _, l => l = .file h
  | .prog _ k, l => k.Holds l
  | .evicted _ _ k, l => l = .manager ∨ k.Holds l
  | .loaded _ _ k, l => l = .manager ∨ k.Holds l
  | .locking _ _ k, l => k.Holds l
  | .syncing _ _ k, l => l = .manager ∨ k.Holds l
  | .synced p _ _ k, l => l = .block p ∨ l = .manager ∨ k.Holds l

/-- No lock is taken twice. -/
def Kont.Wf : {α : Type} → Kont α → Prop
  | _, .readAt _ _ _ => True
  | _, .writeAt _ _ _ _ => True
  | _, .endRead p _ rest => ¬ rest.Holds (.block p) ∧ rest.Wf
  | _, .endModify p _ rest => ¬ rest.Holds (.block p) ∧ rest.Wf

def Code.Wf : Code → Prop
  | .read .. => True
  | .write .. => True
  | .prog _ k => k.Wf
  | .evicted _ _ k => k.Wf
  | .loaded _ _ k => k.Wf
  | .locking _ _ k => k.Wf
  | .syncing _ _ k => k.Wf
  | .synced p _ _ k => ¬ k.Holds (.block p) ∧ k.Wf

/-- The locks that are taken are those in `H`, and `t` has them. -/
def Exact (locks : Lock → Option Task) (t : Task) (H : Lock → Prop) : Prop :=
  ∀ l t', locks l = some t' ↔ t' = t ∧ H l

section

variable {efs : EasyFileSystem} {s s' : FileState} {t : Task} {H H' : Lock → Prop} {l₀ : Lock}

theorem Kont.not_manager {α : Type} (k : Kont α) : ¬ k.Holds .manager := by
  induction k with
  | readAt h rest total => simp [Kont.Holds]
  | writeAt h slice rest total => simp [Kont.Holds]
  | endRead p k rest ih => simp [Kont.Holds, ih]
  | endModify p k rest ih => simp [Kont.Holds, ih]

namespace Exact

theorem congr (h : Exact s.locks t H) (heq : ∀ l, H l ↔ H' l) : Exact s.locks t H' := by
  intro l t'
  rw [h l t', heq]

theorem lock (h : Exact s.locks t H) : Exact (s.lock t l₀).locks t fun l => l = l₀ ∨ H l := by
  intro l t'
  show Function.update s.locks l₀ (some t) l = some t' ↔ t' = t ∧ (l = l₀ ∨ H l)
  rw [Function.update_apply]
  by_cases hl : l = l₀
  · simp [hl, eq_comm]
  · simp only [hl, false_or]
    exact h l t'

theorem unlock (h : Exact s.locks t H) : Exact (s.unlock l₀).locks t fun l => l ≠ l₀ ∧ H l := by
  intro l t'
  show Function.update s.locks l₀ none l = some t' ↔ t' = t ∧ l ≠ l₀ ∧ H l
  rw [Function.update_apply]
  by_cases hl : l = l₀
  · simp [hl]
  · simp only [ne_eq, hl, not_false_eq_true, true_and]
    exact h l t'

theorem not_of_free (h : Exact s.locks t H) (hfree : s.locks l₀ = none) : ¬ H l₀ := by
  intro hl
  have := (h l₀ t).mpr ⟨rfl, hl⟩
  rw [hfree] at this
  cases this

theorem of_taken (h : Exact s.locks t H) (htaken : s.locks l₀ ≠ none) : H l₀ ∧ s.locks l₀ = some t := by
  obtain ⟨t', ht'⟩ := Option.ne_none_iff_exists'.mp htaken
  obtain ⟨rfl, hl⟩ := (h l₀ t').mp ht'
  exact ⟨hl, ht'⟩

end Exact

/-- What a piece leaves: the locks of the place where it goes on; a call that returns leaves none. -/
def Outcome.Exact (t : Task) : Outcome → Prop
  | .next s c => FileAccess.Exact s.locks t c.Holds ∧ c.Wf
  | .access s c => FileAccess.Exact s.locks t c.Holds ∧ c.Wf
  | .spin _ => True
  | .panic => True
  | .done s => ∀ l, s.locks l = none

theorem dropHandle_exact {p : ℕ} {c : Code} (h : Exact s.locks t c.Holds) (hwf : c.Wf) :
    (dropHandle s p c).Exact t := by
  rw [dropHandle]
  split
  · exact ⟨h, hwf⟩
  · exact ⟨h, hwf⟩

theorem resume_exact {α : Type} (k : Kont α) (a : α) (h : Exact s.locks t k.Holds) (hwf : k.Wf) :
    (k.resume s a).Exact t := by
  cases k with
  | readAt f rest total =>
    have hfile : Exact (s.unlock .fs).locks t fun l => l = .file f := by
      refine h.unlock.congr fun l => ?_
      by_cases hl : l = .fs <;> simp [Kont.Holds, hl]
    obtain ⟨n, buf⟩ := a
    rw [Kont.resume]
    split
    · exact ⟨hfile, trivial⟩
    · exact ⟨hfile, trivial⟩
  | writeAt f slice rest total =>
    have hfile : Exact (s.unlock .fs).locks t fun l => l = .file f := by
      refine h.unlock.congr fun l => ?_
      by_cases hl : l = .fs <;> simp [Kont.Holds, hl]
    rw [Kont.resume]
    split
    · exact ⟨hfile, trivial⟩
    · trivial
  | endRead p k rest =>
    refine dropHandle_exact (h.unlock.congr fun l => ?_) hwf.2
    by_cases hl : l = .block p
    · simp [hl, Code.Holds, hwf.1]
    · simp [hl, Code.Holds, Kont.Holds]
  | endModify p k rest =>
    refine dropHandle_exact (h.unlock.congr fun l => ?_) hwf.2
    by_cases hl : l = .block p
    · simp [hl, Code.Holds, hwf.1]
    · simp [hl, Code.Holds, Kont.Holds]

theorem getBlock_exact {α : Type} {b : ℕ} {use : Borrow α} {k : Kont α} (h : Exact s.locks t k.Holds)
    (hwf : k.Wf) : (getBlock s t b use k).Exact t := by
  rw [getBlock]
  split
  · trivial
  · split
    · exact ⟨h, hwf⟩
    · split
      · split
        · split
          · exact ⟨h.lock, hwf⟩
          · exact ⟨h.lock, hwf⟩
        · trivial
      · exact ⟨h.lock, hwf⟩

theorem enter_exact {α : Type} {p : ℕ} {use : Borrow α} {k : Kont α} (h : Exact s.locks t k.Holds)
    (hwf : k.Wf) (hfree : s.locks (.block p) = none) : (use.enter s t p k).Exact t := by
  cases use with
  | read body k' => exact ⟨h.lock, h.not_of_free hfree, hwf⟩
  | modify body k' => exact ⟨h.lock, h.not_of_free hfree, hwf⟩

theorem micro_exact (efs : EasyFileSystem) {c : Code} (h : Exact s.locks t c.Holds) (hwf : c.Wf) :
    (micro efs s t c).Exact t := by
  have hlast : ∀ f, Exact s.locks t (fun l => l = .file f) → ∀ l, (s.unlock (.file f)).locks l = none := by
    intro f hf l
    cases hl : (s.unlock (.file f)).locks l with
    | none => rfl
    | some t' =>
      have := (hf.unlock l t').mp hl
      exact absurd this.2.2 this.2.1
  cases c with
  | read f slices total =>
    cases slices with
    | nil => exact hlast f h
    | cons slice rest =>
      rw [micro]
      split
      · trivial
      · exact ⟨h.lock, trivial⟩
  | write f slices total =>
    cases slices with
    | nil => exact hlast f h
    | cons slice rest =>
      rw [micro]
      split
      · trivial
      · exact ⟨h.lock, trivial⟩
  | prog p k =>
    cases p with
    | pure a => exact resume_exact k a h hwf
    | panic e => trivial
    | read b body k' => exact getBlock_exact h hwf
    | modify b body k' => exact getBlock_exact h hwf
    | sync next =>
      rw [micro]
      split
      · trivial
      · exact ⟨h.lock, hwf⟩
  | evicted b use k => exact ⟨h, hwf⟩
  | loaded b use k =>
    refine ⟨h.unlock.congr fun l => ?_, hwf⟩
    by_cases hl : l = .manager
    · simp [hl, Code.Holds, k.not_manager]
    · simp [hl, Code.Holds]
  | locking p use k =>
    rw [micro]
    split
    · trivial
    · rename_i hfree
      exact enter_exact h hwf (not_not.mp hfree)
  | syncing ptrs next k =>
    cases ptrs with
    | nil =>
      refine ⟨h.unlock.congr fun l => ?_, hwf⟩
      by_cases hl : l = .manager
      · simp [hl, Code.Holds, k.not_manager]
      · simp [hl, Code.Holds]
    | cons p ptrs =>
      rw [micro]
      split
      · trivial
      · rename_i hfree
        have hnot := h.not_of_free (not_not.mp hfree)
        split
        · exact ⟨h.lock, fun hk => hnot (Or.inr hk), hwf⟩
        · exact ⟨h, hwf⟩
  | synced p ptrs next k =>
    refine ⟨h.unlock.congr fun l => ?_, hwf.2⟩
    by_cases hl : l = .block p
    · simp [hl, Code.Holds, hwf.1]
    · simp [hl, Code.Holds]

theorem resume_ne_spin {α : Type} (k : Kont α) (a : α) (l : Lock) : k.resume s a ≠ .spin l := by
  cases k with
  | readAt f rest total =>
    obtain ⟨n, buf⟩ := a
    rw [Kont.resume]
    split <;> exact fun hx => by cases hx
  | writeAt f slice rest total =>
    rw [Kont.resume]
    split <;> exact fun hx => by cases hx
  | endRead p k rest =>
    rw [Kont.resume, dropHandle]
    split <;> exact fun hx => by cases hx
  | endModify p k rest =>
    obtain ⟨x, g⟩ := a
    rw [Kont.resume, dropHandle]
    split <;> exact fun hx => by cases hx

theorem getBlock_spin {α : Type} {b : ℕ} {use : Borrow α} {k : Kont α} {l : Lock}
    (h : Exact s.locks t k.Holds) : getBlock s t b use k ≠ .spin l := by
  rw [getBlock]
  split
  · rename_i htaken
    exact absurd (h.of_taken htaken).1 k.not_manager
  · split
    · exact fun hx => by cases hx
    · split
      · split
        · split <;> exact fun hx => by cases hx
        · exact fun hx => by cases hx
      · exact fun hx => by cases hx

/-- Where no other task has a lock, a task waits at most for a block that it has locked itself. -/
theorem spin_own {c : Code} {l : Lock} (h : Exact s.locks t c.Holds) (hspin : micro efs s t c = .spin l) :
    ∃ p, l = .block p ∧ s.locks l = some t := by
  cases c with
  | read f slices total =>
    cases slices with
    | nil => cases hspin
    | cons slice rest =>
      rw [micro] at hspin
      split at hspin
      · rename_i htaken
        cases (h.of_taken htaken).1
      · cases hspin
  | write f slices total =>
    cases slices with
    | nil => cases hspin
    | cons slice rest =>
      rw [micro] at hspin
      split at hspin
      · rename_i htaken
        cases (h.of_taken htaken).1
      · cases hspin
  | prog p k =>
    cases p with
    | pure a => exact absurd hspin (resume_ne_spin k a l)
    | panic e => cases hspin
    | read b body k' => exact absurd hspin (getBlock_spin h)
    | modify b body k' => exact absurd hspin (getBlock_spin h)
    | sync next =>
      rw [micro] at hspin
      split at hspin
      · rename_i htaken
        exact absurd (h.of_taken htaken).1 k.not_manager
      · cases hspin
  | evicted b use k => cases hspin
  | loaded b use k => cases hspin
  | locking p use k =>
    rw [micro] at hspin
    split at hspin
    · rename_i htaken
      cases hspin
      exact ⟨p, rfl, (h.of_taken htaken).2⟩
    · cases use with
      | read body k' => cases hspin
      | modify body k' => cases hspin
  | syncing ptrs next k =>
    cases ptrs with
    | nil => cases hspin
    | cons p ptrs =>
      rw [micro] at hspin
      split at hspin
      · rename_i htaken
        cases hspin
        exact ⟨p, rfl, (h.of_taken htaken).2⟩
      · split at hspin <;> cases hspin
  | synced p ptrs next k => cases hspin

end

/-! ### Calls that do not reach the device -/

/-- What a read looks at: the cached blocks and the open files. -/
structure View where
  queue : List (ℕ × ℕ)
  read : ℕ → Block
  files : ℕ → OSInode

def FileState.view (s : FileState) : View := ⟨s.cache.queue, s.cache.read, s.files⟩

/-- The content of a block that is in the cache. -/
def View.cached (v : View) (b : ℕ) : Option Block :=
  (v.queue.find? fun e => e.1 = b).map fun e => v.read e.2

/-- The program reads only blocks in the cache and modifies none, and `Q` holds of what it returns. -/
def Quiet (cached : ℕ → Option Block) : {α : Type} → DiskProg α → (α → Prop) → Prop
  | _, .pure a, Q => Q a
  | _, .panic _, _ => True
  | _, .read b body k, Q =>
    ∃ x, cached b = some x ∧ Quiet cached (body x) fun g => Quiet cached (k g) Q
  | _, .modify _ _ _, _ => False
  | _, .sync _, _ => False

/-- `OSInode::read` from an offset into the slices. -/
def QuietRead (cached : ℕ → Option Block) (inode : Inode) : ℕ → List (List UInt8) → Prop
  | _, [] => True
  | offset, slice :: rest =>
    Quiet cached (inode.readAt offset slice) fun r =>
      r.1 ≠ 0 → QuietRead cached inode (offset + r.1) rest

/-- The call reads, and all blocks it needs are in the cache; or it has nothing to write. -/
def QuietCall (v : View) : FileCall → Prop
  | .read h slices => QuietRead v.cached (v.files h).inode (v.files h).offset slices
  | .write _ slices => slices = []

def Kont.Quiet (v : View) : {α : Type} → Kont α → α → Prop
  | _, .readAt h rest _, (n, _) =>
    n ≠ 0 → QuietRead v.cached (v.files h).inode ((v.files h).offset + n) rest
  | _, .writeAt _ _ _ _, _ => False
  | _, .endRead p k rest, g =>
    p ∈ v.queue.map Prod.snd ∧ FileAccess.Quiet v.cached (k g) (rest.Quiet v)
  | _, .endModify _ _ _, _ => False

def Borrow.Quiet (v : View) (p : ℕ) {α : Type} (k : Kont α) : Borrow α → Prop
  | .read body k' =>
    FileAccess.Quiet v.cached (body (v.read p)) fun g => FileAccess.Quiet v.cached (k' g) (k.Quiet v)
  | .modify _ _ => False

def Code.Quiet (v : View) : Code → Prop
  | .read h slices _ => QuietRead v.cached (v.files h).inode (v.files h).offset slices
  | .write _ slices _ => slices = []
  | .prog p k => FileAccess.Quiet v.cached p (k.Quiet v)
  | .locking p use k => p ∈ v.queue.map Prod.snd ∧ use.Quiet v p k
  | _ => False

/-- A piece that does not reach the device. -/
def Outcome.Quiet : Outcome → Prop
  | .next s c => c.Quiet s.view
  | .access _ _ => False
  | _ => True

section

variable {efs : EasyFileSystem} {s : FileState} {t : Task}

theorem quiet_mono {cached : ℕ → Option Block} {α : Type} (p : DiskProg α) :
    ∀ {Q Q' : α → Prop}, (∀ a, Q a → Q' a) → Quiet cached p Q → Quiet cached p Q' := by
  induction p with
  | pure a => exact fun hQ h => hQ a h
  | panic e => exact fun _ _ => trivial
  | read b body k ihbody ihk =>
    intro Q Q' hQ h
    obtain ⟨x, hx, hbody⟩ := h
    exact ⟨x, hx, ihbody x (fun g hg => ihk g hQ hg) hbody⟩
  | modify b body k _ _ => exact fun _ h => h
  | sync p _ => exact fun _ h => h

theorem dropHandle_quiet {p : ℕ} {c : Code} (hmem : p ∈ s.view.queue.map Prod.snd) (hc : c.Quiet s.view) :
    (dropHandle s p c).Quiet := by
  have hcount : CacheState.strongCount { s.cache with handles := s.cache.handles.erase p } p ≠ 0 := by
    have hpos : 0 < (s.cache.queue.map Prod.snd).count p := List.count_pos_iff.mpr hmem
    show (s.cache.queue.map Prod.snd).count p + _ ≠ 0
    omega
  have hrelease : s.cache.release p = { s.cache with handles := s.cache.handles.erase p } := by
    rw [CacheState.release]
    exact if_neg hcount
  rw [dropHandle, if_neg (fun hx => hcount hx.1), hrelease]
  exact hc

theorem getBlock_quiet {α : Type} {b : ℕ} {use : Borrow α} {k : Kont α} {x : Block}
    (hx : s.view.cached b = some x)
    (huse : ∀ e ∈ s.cache.queue, s.cache.read e.2 = x → use.Quiet s.view e.2 k) :
    (getBlock s t b use k).Quiet := by
  obtain ⟨e, he, hread⟩ := Option.map_eq_some_iff.mp hx
  have he' : (s.cache.queue.find? fun e => e.1 = b) = some e := he
  have hmem := List.mem_of_find?_eq_some he'
  rw [getBlock]
  split
  · trivial
  · simp only [he']
    exact ⟨List.mem_map_of_mem hmem, huse e hmem hread⟩

theorem micro_quiet (efs : EasyFileSystem) {c : Code} (h : c.Quiet s.view) : (micro efs s t c).Quiet := by
  cases c with
  | read f slices total =>
    cases slices with
    | nil => trivial
    | cons slice rest =>
      rw [micro]
      split
      · trivial
      · exact h
  | write f slices total =>
    have hnil : slices = [] := h
    rw [hnil]
    trivial
  | prog p k =>
    cases p with
    | pure a =>
      cases k with
      | readAt f rest total =>
        obtain ⟨n, buf⟩ := a
        rw [micro, Kont.resume]
        split
        · trivial
        · rename_i hn
          have hfile : (((s.unlock .fs).advance f n).files f) =
              { s.files f with offset := (s.files f).offset + n } := Function.update_self _ _ _
          show QuietRead s.view.cached (((s.unlock .fs).advance f n).files f).inode
            (((s.unlock .fs).advance f n).files f).offset rest
          rw [hfile]
          exact h hn
      | writeAt f slice rest total => exact absurd h id
      | endRead p k rest => exact dropHandle_quiet h.1 h.2
      | endModify p k rest => exact absurd h id
    | panic e => trivial
    | read b body k' =>
      obtain ⟨x, hx, hbody⟩ := h
      refine getBlock_quiet hx fun e _ hread => ?_
      show Quiet s.view.cached (body (s.cache.read e.2)) _
      rw [hread]
      exact hbody
    | modify b body k' => exact absurd h id
    | sync next => exact absurd h id
  | evicted b use k => exact absurd h id
  | loaded b use k => exact absurd h id
  | locking p use k =>
    obtain ⟨hmem, huse⟩ := h
    rw [micro]
    split
    · trivial
    · cases use with
      | read body k' => exact quiet_mono _ (fun g hg => ⟨hmem, hg⟩) huse
      | modify body k' => exact absurd huse id
  | syncing ptrs next k => exact absurd h id
  | synced p ptrs next k => exact absurd h id

end

/-! ### Runs -/

/-- While block access suspends the caller, file calls read blocks that are in the cache. -/
def CallsCached (s : System) (call : FileCall) : Prop := s.nonBlocking = true → QuietCall s.files.view call

/-- No task is suspended in the driver with a lock, and the current task meets no lock of another one. -/
structure Unobstructed (efs : EasyFileSystem) (s : System) : Prop where
  suspended : ∀ t c, s.tasks t = .waiting c ∨ s.tasks t = .ready c →
    s.files.locks .fs ≠ some t ∧ s.files.locks .manager ≠ some t ∧ ∀ h, s.files.locks (.file h) ≠ some t
  /-- a task spins at most on a block that it has locked itself -/
  spins : ∀ t c l, s.current = some t → s.tasks t = .kernel c → micro efs s.files t c = .spin l →
    ∃ p, l = .block p ∧ s.files.locks l = some t
  /-- a file call finds the guard of its `OSInode` free -/
  borrowed : ∀ t h, s.current = some t → s.tasks t = .user → s.files.locks (.file h) = none

structure Undisturbed (s : System) : Prop where
  alone : ∀ t, s.tasks t = .user ∨ ∃ c, s.tasks t = .kernel c ∧ s.current = some t
  free : (∀ t, s.tasks t = .user) → ∀ l, s.files.locks l = none
  exact : ∀ t c, s.tasks t = .kernel c → Exact s.files.locks t c.Holds ∧ c.Wf
  quiet : s.nonBlocking = true → ∀ t c, s.tasks t = .kernel c → c.Quiet s.files.view

section

variable {efs : EasyFileSystem} {s s' : System} {t : Task}

namespace Undisturbed

theorem user_of_ne (h : Undisturbed s) (hcur : s.current = some t) {t' : Task} (hne : t' ≠ t) :
    s.tasks t' = .user := by
  cases h.alone t' with
  | inl huser => exact huser
  | inr hkernel =>
    obtain ⟨c, _, hcur'⟩ := hkernel
    rw [hcur] at hcur'
    exact absurd (Option.some.inj hcur').symm hne

theorem update_user (h : Undisturbed s) (hcur : s.current = some t) {x : Mode} (t' : Task)
    (hne : t' ≠ t) : Function.update s.tasks t x t' = .user :=
  (Function.update_of_ne hne _ _).trans (h.user_of_ne hcur hne)

theorem all_user (h : Undisturbed s) (hcur : s.current = some t) (ht : s.tasks t = .user) (t' : Task) :
    s.tasks t' = .user := by
  by_cases hne : t' = t
  · rw [hne]
    exact ht
  · exact h.user_of_ne hcur hne

theorem all_user_of_idle (h : Undisturbed s) (hcur : s.current = none) (t : Task) : s.tasks t = .user := by
  cases h.alone t with
  | inl huser => exact huser
  | inr hkernel =>
    obtain ⟨c, _, hcur'⟩ := hkernel
    rw [hcur] at hcur'
    cases hcur'

theorem of_user (huser : ∀ t, s.tasks t = .user) (hfree : ∀ l, s.files.locks l = none) : Undisturbed s := by
  refine ⟨fun t => Or.inl (huser t), fun _ => hfree, ?_, ?_⟩
  · intro t c ht
    rw [huser t] at ht
    cases ht
  · intro _ t c ht
    rw [huser t] at ht
    cases ht

theorem of_kernel {c : Code} (hcur : s.current = some t) (hothers : ∀ t', t' ≠ t → s.tasks t' = .user)
    (ht : s.tasks t = .kernel c) (hexact : Exact s.files.locks t c.Holds) (hwf : c.Wf)
    (hquiet : s.nonBlocking = true → c.Quiet s.files.view) : Undisturbed s := by
  have honly : ∀ t' c', s.tasks t' = .kernel c' → t' = t ∧ c' = c := by
    intro t' c' ht'
    by_cases hne : t' = t
    · rw [hne, ht] at ht'
      cases ht'
      exact ⟨hne, rfl⟩
    · rw [hothers t' hne] at ht'
      cases ht'
  refine ⟨?_, ?_, ?_, ?_⟩
  · intro t'
    by_cases hne : t' = t
    · exact Or.inr ⟨c, by rw [hne, ht], by rw [hcur, hne]⟩
    · exact Or.inl (hothers t' hne)
  · intro huser
    rw [huser t] at ht
    cases ht
  · intro t' c' ht'
    obtain ⟨rfl, rfl⟩ := honly t' c' ht'
    exact ⟨hexact, hwf⟩
  · intro hmode t' c' ht'
    obtain ⟨rfl, rfl⟩ := honly t' c' ht'
    exact hquiet hmode

theorem step (h : Undisturbed s) (hstep : Step efs CallsCached s s') : Undisturbed s' := by
  cases hstep with
  | dispatch hcur ht =>
    have huser := h.all_user_of_idle hcur
    exact of_user huser (h.free huser)
  | resume hcur ht =>
    rw [h.all_user_of_idle hcur] at ht
    cases ht
  | yield hcur ht =>
    have huser := h.all_user hcur ht
    exact of_user huser (h.free huser)
  | @call t call hcur ht hok hfree =>
    have hnone := h.free (h.all_user hcur ht)
    have hexact : Exact s.files.locks t fun _ => False := by
      intro l t'
      simp [hnone l]
    refine of_kernel (t := t) (c := call.code) hcur (h.update_user hcur) (Function.update_self _ _ _)
      ?_ ?_ ?_
    · refine hexact.lock.congr fun l => ?_
      cases call <;> simp [FileCall.code, FileCall.handle, Code.Holds]
    · cases call <;> trivial
    · intro hmode
      cases call with
      | read f slices => exact hok hmode
      | write f slices => exact hok hmode
  | @next t c c' files hcur ht hmicro =>
    obtain ⟨hexact, hwf⟩ := h.exact t c ht
    have hexact' := micro_exact efs hexact hwf
    rw [hmicro] at hexact'
    refine of_kernel hcur (h.update_user hcur) (Function.update_self _ _ _) hexact'.1 hexact'.2 ?_
    intro hmode
    have hquiet := micro_quiet (t := t) efs (h.quiet hmode t c ht)
    rw [hmicro] at hquiet
    exact hquiet
  | @access t c c' files hcur ht hmicro hmode =>
    obtain ⟨hexact, hwf⟩ := h.exact t c ht
    have hexact' := micro_exact efs hexact hwf
    rw [hmicro] at hexact'
    refine of_kernel hcur (h.update_user hcur) (Function.update_self _ _ _) hexact'.1 hexact'.2 ?_
    intro hmode'
    rw [hmode] at hmode'
    cases hmode'
  | @block t c c' files hcur ht hmicro hmode =>
    -- a quiet piece does not reach the device
    have hquiet := micro_quiet (t := t) efs (h.quiet hmode t c ht)
    rw [hmicro] at hquiet
    exact absurd hquiet id
  | @interrupt t c ht =>
    cases h.alone t with
    | inl huser =>
      rw [huser] at ht
      cases ht
    | inr hkernel =>
      obtain ⟨c', hc', _⟩ := hkernel
      rw [hc'] at ht
      cases ht
  | @done t c files hcur ht hmicro =>
    obtain ⟨hexact, hwf⟩ := h.exact t c ht
    have hexact' := micro_exact efs hexact hwf
    rw [hmicro] at hexact'
    refine of_user ?_ hexact'
    intro t'
    by_cases hne : t' = t
    · rw [hne]
      exact Function.update_self _ _ _
    · exact h.update_user hcur t' hne

theorem unobstructed (h : Undisturbed s) : Unobstructed efs s := by
  refine ⟨?_, ?_, ?_⟩
  · intro t c ht
    cases h.alone t with
    | inl huser =>
      rw [huser] at ht
      cases ht with
      | inl ht => cases ht
      | inr ht => cases ht
    | inr hkernel =>
      obtain ⟨c', hc', _⟩ := hkernel
      rw [hc'] at ht
      cases ht with
      | inl ht => cases ht
      | inr ht => cases ht
  · intro t c l _ ht hspin
    exact spin_own (h.exact t c ht).1 hspin
  · intro t f hcur ht
    exact h.free (h.all_user hcur ht) (.file f)

end Undisturbed

theorem Run.undisturbed {nonBlocking : Bool} {cache : CacheState} {files : ℕ → OSInode}
    (h : Run efs CallsCached (System.start nonBlocking cache files) s) : Undisturbed s := by
  induction h with
  | start => exact Undisturbed.of_user (fun _ => rfl) fun _ => rfl
  | step _ hstep ih => exact ih.step hstep

end

/-- **The locks are free while another task runs.**  As long as file calls, while block access suspends the
caller, only read blocks that are in the cache, no task is suspended in the driver with a lock, and no task
ever spins on a lock of another one or finds its `OSInode` borrowed. -/
theorem file_locks_free (efs : EasyFileSystem) (nonBlocking : Bool) (cache : CacheState)
    (files : ℕ → OSInode) {s : System} (h : Run efs CallsCached (System.start nonBlocking cache files) s) :
    Unobstructed efs s :=
  h.undisturbed.unobstructed

/-- A small file system, and its root directory as every open file. -/
def sampleFs : EasyFileSystem := ⟨⟨1, 1⟩, ⟨3, 1⟩, 2, 4⟩

def sampleFiles : ℕ → OSInode := fun _ => ⟨0, sampleFs.rootInode⟩

/-- The block of the root inode is in the cache: a task reads the empty root while it has the locks. -/
theorem file_locks_free_cachedRead : ∃ cache s,
    Run sampleFs CallsCached (System.start true cache sampleFiles) s ∧
      (s.current = some 0 ∧ s.files.locks .fs = some 0 ∧ s.files.locks (.file 0) = some 0) ∧
        Unobstructed sampleFs s := by
  have hcall : QuietCall ⟨[(2, 0)], fun _ => Block.zero, sampleFiles⟩ (.read 0 [[0]]) := by
    have hsize : (DiskInode.ofBlock Block.zero 0).size = 0 := by decide +kernel
    have hread : (DiskInode.ofBlock Block.zero 0).readAt 0 [0] = .pure (0, [0]) := by
      rw [DiskInode.readAt, hsize]
      rfl
    refine ⟨Block.zero, rfl, ?_⟩
    show Quiet _ ((DiskInode.ofBlock Block.zero 0).readAt 0 [0]) _
    rw [hread]
    exact fun hn => absurd rfl hn
  have h₀ : Run sampleFs CallsCached (System.start true
    ⟨[(2, 0)], fun _ => ⟨Block.zero, 2, false⟩, [], 1, fun _ => Block.zero⟩ sampleFiles) _ := .start
  have h₁ := h₀.step (.dispatch (t := 0) rfl rfl)
  have h₂ := h₁.step (.call (t := 0) (.read 0 [[0]]) rfl rfl (fun _ => hcall) rfl)
  have h₃ := h₂.step (.next (t := 0) rfl rfl rfl)
  exact ⟨_, _, h₃, ⟨rfl, rfl, rfl⟩, file_locks_free _ _ _ _ h₃⟩

/-- Nothing is in the cache.  The first task is suspended in the driver with all three locks; the second one
then spins on the lock of the file system. -/
theorem suspended_with_locks : ∃ cache s,
    Run sampleFs (fun _ _ => True) (System.start true cache sampleFiles) s ∧
      (∃ c, s.tasks 0 = .waiting c ∧ s.files.locks .fs = some 0 ∧ s.files.locks .manager = some 0 ∧
        s.files.locks (.file 0) = some 0) ∧
      (∃ c, s.current = some 1 ∧ s.tasks 1 = .kernel c ∧ micro sampleFs s.files 1 c = .spin .fs) ∧
        ¬ Unobstructed sampleFs s := by
  have h₀ : Run sampleFs (fun _ _ => True) (System.start true (CacheState.init fun _ => Block.zero)
    sampleFiles) _ := .start
  have h₁ := h₀.step (.dispatch (t := 0) rfl rfl)
  have h₂ := h₁.step (.call (t := 0) (.read 0 [[0]]) rfl rfl trivial rfl)
  have h₃ := h₂.step (.next (t := 0) rfl rfl rfl)
  have h₄ := h₃.step (.block (t := 0) rfl rfl rfl rfl)
  have h₅ := h₄.step (.dispatch (t := 1) rfl rfl)
  have h₆ := h₅.step (.call (t := 1) (.read 1 [[0]]) rfl rfl trivial rfl)
  refine ⟨_, _, h₆, ⟨_, rfl, rfl, rfl, rfl⟩, ⟨_, rfl, rfl, rfl⟩, fun hfree => ?_⟩
  exact (hfree.suspended 0 _ (Or.inl rfl)).1 rfl

end LemonCore.Kernel.FileAccess
