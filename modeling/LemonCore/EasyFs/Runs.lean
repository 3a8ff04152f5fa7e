import LemonCore.EasyFs.BlockCache
import LemonCore.EasyFs.Formatting

/-!
# Runs of the file system

A run starts with `EasyFileSystem::create` on a device and makes calls on handles it has got: the root
inode, and the inodes that calls return.  Each call runs on the block cache, and a call that panics
or hangs is no step of a run.

* `Call`, `Reply`, `Run`: the interface of `vfs.rs` and its runs;
* `Run.induct`: an invariant of the logical disk content that every call keeps holds along all runs.
-/

namespace LemonCore.EasyFs

open Foundation.BorrowProgram

/-! ### Calls -/

/-- The calls on a handle. -/
inductive Call where
  | create (self : Inode) (name : String)
  | createDir (self : Inode) (name : String)
  | setDefaultDirent (self : Inode) (parent : ℕ)
  | writeAt (self : Inode) (offset : ℕ) (buf : List UInt8)
  | readAt (self : Inode) (offset : ℕ) (buf : List UInt8)
  | clear (self : Inode)
  | delete (self : Inode) (name : String)
  | find (self : Inode) (name : String)
  deriving DecidableEq, Repr

/-- What a call returns. -/
inductive Reply where
  | unit
  | inode (inode : Option Inode)
  | count (n : ℕ)
  | bytes (n : ℕ) (buf : List UInt8)
  deriving DecidableEq, Repr

/-- The handle a call is made on. -/
def Call.self : Call → Inode
  | .create self _ | .createDir self _ | .setDefaultDirent self _ | .writeAt self _ _
  | .readAt self _ _ | .clear self | .delete self _ | .find self _ => self

/-- The code of a call. -/
def Call.prog (fs : EasyFileSystem) : Call → DiskProg Reply
  | .create self name => do pure (.inode (← self.create fs name))
  | .createDir self name => do pure (.inode (← self.createDir fs name))
  | .setDefaultDirent self parent => do
    self.setDefaultDirent fs parent
    pure .unit
  | .writeAt self offset buf => do pure (.count (← self.writeAt fs offset buf))
  | .readAt self offset buf => do
    let r ← self.readAt offset buf
    pure (.bytes r.1 r.2)
  | .clear self => do
    self.clear fs
    pure .unit
  | .delete self name => do
    self.delete fs name
    pure .unit
  | .find self name => do pure (.inode (← self.find fs name))

/-- The handles in a reply. -/
def Reply.inodes : Reply → List Inode
  | .inode (some i) => [i]
  | _ => []

/-! ### Systems -/

/-- What a block holds for the callers of the cache. -/
def CacheState.content (s : CacheState) : Disk := fun b =>
  match s.queue.find? fun e => e.1 = b with
  | some e => (s.heap e.2).cache
  | none => s.device b

theorem CacheInv.content_eq {s : CacheState} {m : Disk} {hs : List (ℕ × ℕ)} (h : CacheInv s m hs) :
    s.content = m := by
  funext b
  rw [CacheState.content]
  cases hf : s.queue.find? fun e => e.1 = b with
  | some e =>
    have hb : e.1 = b := by simpa using List.find?_some hf
    rw [← hb]
    exact h.cached e (List.mem_of_find?_eq_some hf)
  | none =>
    refine h.absent b fun hmem => ?_
    obtain ⟨e, he, heq⟩ := List.mem_map.mp hmem
    simpa [heq] using List.find?_eq_none.mp hf e he

theorem Presents.content_eq {s : CacheState} {held : List ℕ} {d : Disk} (h : Presents s held d) :
    s.content = d := by
  obtain ⟨_, hs, _, hinv⟩ := h
  exact hinv.content_eq

/-- A mounted file system: the structure that `create` returned, the block cache with its device, and
the handles that callers have got. -/
structure System where
  fs : EasyFileSystem
  cache : CacheState
  inodes : List Inode

/-- The calls of a run and what they returned, the latest first. -/
abbrev History : Type := List (Call × Reply)

/-- The runs from a device with content `d₀`.  `ok` says which call may come next, given the history
and the logical content of the disk. -/
inductive Run (G : Geometry) (ok : History → Disk → Call → Prop) (d₀ : Disk) :
    History → System → Prop
  | init {fs c} : exec cacheMachine (EasyFileSystem.create G.total G.inodeBlocks) (.init d₀) =
      .ok (fs, c) → Run G ok d₀ [] ⟨fs, c, [fs.rootInode]⟩
  | step {hist s call reply c} : Run G ok d₀ hist s → call.self ∈ s.inodes →
      ok hist s.cache.content call → exec cacheMachine (call.prog s.fs) s.cache = .ok (reply, c) →
      Run G ok d₀ ((call, reply) :: hist) ⟨s.fs, c, reply.inodes ++ s.inodes⟩

theorem exec_content {α : Type} {p : DiskProg α} {s c : CacheState} {a : α} {d : Disk}
    (hs : Presents s [] d) (h : exec cacheMachine p s = .ok (a, c)) :
    ∃ d', drun p [] d = .ok (a, d') ∧ Presents c [] d' := exec_ok cache_simulates hs h

theorem exec_returns {α : Type} {p : DiskProg α} {s : CacheState} {a : α} {d d' : Disk}
    (hs : Presents s [] d) (h : drun p [] d = .ok (a, d')) :
    ∃ c, exec cacheMachine p s = .ok (a, c) ∧ Presents c [] d' := exec_of_run cache_simulates hs h

variable {G : Geometry} {ok : History → Disk → Call → Prop} {d₀ : Disk} {hist : History} {s : System}

/-- **Induction over runs.**  What holds of a new file system and is kept by every call that may come
next holds in every state of every run. -/
theorem Run.induct {P : History → Disk → List Inode → Prop}
    (hinit : ∀ d, Formatted G d → P [] d [G.handle 0])
    (hstep : ∀ hist d inodes call reply d', P hist d inodes → call.self ∈ inodes →
      ok hist d call → drun (call.prog G.fs) [] d = .ok (reply, d') →
      P ((call, reply) :: hist) d' (reply.inodes ++ inodes))
    (h : Run G ok d₀ hist s) :
    s.fs = G.fs ∧ Presents s.cache [] s.cache.content ∧ P hist s.cache.content s.inodes := by
  induction h with
  | init hc =>
    obtain ⟨d', hrun, hp⟩ := exec_content (presents_init d₀) hc
    obtain ⟨hfs, hformat⟩ := wp_result (create_spec G d₀) hrun
    subst hfs
    rw [hp.content_eq]
    exact ⟨rfl, hp, hinit d' hformat⟩
  | step _ hmem hok hexec ih =>
    obtain ⟨hfs, hp, hP⟩ := ih
    obtain ⟨d', hrun, hp'⟩ := exec_content hp hexec
    rw [hfs] at hrun
    rw [hp'.content_eq]
    exact ⟨hfs, hp', hstep _ _ _ _ _ d' hP hmem hok hrun⟩

theorem Run.mono {ok' : History → Disk → Call → Prop} (hok : ∀ hist d call, ok hist d call → ok' hist d call)
    (h : Run G ok d₀ hist s) : Run G ok' d₀ hist s := by
  induction h with
  | init hc => exact .init hc
  | step _ hmem hcall hexec ih => exact .step ih hmem (hok _ _ _ hcall) hexec

theorem Run.presents (h : Run G ok d₀ hist s) :
    s.fs = G.fs ∧ Presents s.cache [] s.cache.content := by
  obtain ⟨hfs, hp, _⟩ := h.induct (P := fun _ _ _ => True) (fun _ _ => trivial)
    fun _ _ _ _ _ _ _ _ _ _ => trivial
  exact ⟨hfs, hp⟩

theorem exists_init (G : Geometry) (ok : History → Disk → Call → Prop) (d₀ : Disk) :
    ∃ s, Run G ok d₀ [] s ∧ Formatted G s.cache.content ∧ s.inodes = [G.handle 0] := by
  obtain ⟨fs, d, hrun, hfs, hformat⟩ := wp_returns (create_spec G d₀)
  obtain ⟨c, hexec, hp⟩ := exec_returns (presents_init d₀) hrun
  subst hfs
  refine ⟨⟨G.fs, c, [G.fs.rootInode]⟩, .init hexec, ?_, rfl⟩
  rw [hp.content_eq]
  exact hformat

theorem Run.extend {call : Call} {Q : Reply → Disk → Prop} {E : Fault Panic → Prop}
    (h : Run G ok d₀ hist s) (hmem : call.self ∈ s.inodes) (hok : ok hist s.cache.content call)
    (hwp : dwp (call.prog G.fs) [] s.cache.content Q E) (hE : ∀ e, ¬ E e) :
    ∃ reply c, exec cacheMachine (call.prog s.fs) s.cache = .ok (reply, c) ∧
      Run G ok d₀ ((call, reply) :: hist) ⟨s.fs, c, reply.inodes ++ s.inodes⟩ ∧
      Q reply c.content := by
  obtain ⟨hfs, hp⟩ := h.presents
  obtain ⟨reply, d', hrun, hQ⟩ := wp_returns (wp_mono hwp (fun _ _ h => h) fun e he => hE e he)
  obtain ⟨c, hexec, hp'⟩ := exec_returns hp hrun
  rw [← hfs] at hexec
  refine ⟨reply, c, hexec, .step h hmem hok hexec, ?_⟩
  rw [hp'.content_eq]
  exact hQ

/-! ### Evaluation -/

section

variable {total ib : ℕ} {α : Type} {d : Disk} {p : DiskProg α} {a : α} {c : CacheState}

/-- What `p` returns, in a form that can be evaluated. -/
def outcome (p : DiskProg α) (d : Disk) : Except (Fault Panic) α :=
  (runVia Block.recode blockCacheSize p [] d).map Prod.fst

/-- The disk that `p` leaves. -/
def leave (p : DiskProg α) (d : Disk) : Disk :=
  match runVia Block.recode blockCacheSize p [] d with
  | .ok r => r.2
  | .error _ => d

theorem drun_of_outcome (h : outcome p d = .ok a) : drun p [] d = .ok (a, leave p d) := by
  rw [outcome, runVia_eq Block.recode_eq] at h
  rw [leave, runVia_eq Block.recode_eq]
  cases hrun : run blockCacheSize p [] d with
  | error e =>
    rw [hrun] at h
    cases h
  | ok r =>
    rw [hrun] at h
    cases h
    exact hrun

theorem exec_of_outcome_error {e : Fault Panic} (hc : Presents c [] d) (h : outcome p d = .error e) :
    exec cacheMachine p c = .error e := by
  rw [outcome, runVia_eq Block.recode_eq] at h
  refine exec_of_fault cache_simulates hc ?_
  cases hrun : run blockCacheSize p [] d with
  | error e' =>
    rw [hrun] at h
    cases h
    rfl
  | ok r =>
    rw [hrun] at h
    cases h

theorem exec_of_outcome (hc : Presents c [] d) (h : outcome p d = .ok a) :
    ∃ c', exec cacheMachine p c = .ok (a, c') ∧ Presents c' [] (leave p d) :=
  exec_returns hc (drun_of_outcome h)

/-- What a program returns on a new file system on a device of zeros, for any sizes. -/
theorem exec_blank (hib : 0 < ib) (p : EasyFileSystem → DiskProg α) :
    (exec cacheMachine (EasyFileSystem.create total ib >>= p) (.init fun _ => .zero)).map Prod.fst =
      outcome (p (.layout total ib)) (newDisk total ib) := by
  have hbind : run blockCacheSize (EasyFileSystem.create total ib >>= p) [] (fun _ => .zero) =
      run blockCacheSize (p (.layout total ib)) [] (newDisk total ib) := by
    show run _ ((EasyFileSystem.create total ib).bind p) _ _ = _
    rw [run_bind]
    exact congrArg (andThen · _) (create_blank total hib)
  rw [exec_map_fst cache_simulates _ (presents_init _), outcome, runVia_eq Block.recode_eq, hbind]

/-- The disk after calls on a new file system on a device of zeros; the latest call comes first. -/
def diskAfter (G : Geometry) : History → Disk
  | [] => newDisk G.total G.inodeBlocks
  | (call, _) :: hist => leave (call.prog G.fs) (diskAfter G hist)

def inodesAfter (G : Geometry) : History → List Inode
  | [] => [G.handle 0]
  | (_, reply) :: hist => reply.inodes ++ inodesAfter G hist

/-- The calls can be made one after the other, and get these replies. -/
def Plays (G : Geometry) (ok : History → Disk → Call → Prop) : History → Prop
  | [] => True
  | (call, reply) :: hist => Plays G ok hist ∧ call.self ∈ inodesAfter G hist ∧
      ok hist (diskAfter G hist) call ∧ outcome (call.prog G.fs) (diskAfter G hist) = .ok reply

theorem exists_play (G : Geometry) (ok : History → Disk → Call → Prop) (hist : History)
    (h : Plays G ok hist) : ∃ s, Run G ok (fun _ => .zero) hist s ∧
    s.fs = G.fs ∧ Presents s.cache [] (diskAfter G hist) ∧ s.inodes = inodesAfter G hist := by
  induction hist with
  | nil =>
    obtain ⟨c, hexec, hp⟩ := exec_returns (presents_init _) (create_blank G.total G.inodeBlocks_pos)
    exact ⟨_, .init hexec, rfl, hp, rfl⟩
  | cons e hist ih =>
    obtain ⟨hplays, hmem, hok, hout⟩ := h
    obtain ⟨s, hrun, hfs, hp, hinodes⟩ := ih hplays
    obtain ⟨c, hexec, hp'⟩ := exec_of_outcome hp hout
    rw [← hfs] at hexec
    refine ⟨_, .step hrun (hinodes ▸ hmem) ?_ hexec, hfs, hp', by rw [hinodes]; rfl⟩
    rw [hp.content_eq]
    exact hok

/-- The first file is created; then a byte is written into it. -/
def fileHist : History :=
  [(.create (Geometry.efsTest.handle 0) "a", .inode (some (Geometry.efsTest.handle 1)))]

def byteHist : History := (.writeAt (Geometry.efsTest.handle 1) 0 [7], .count 1) :: fileHist

theorem alloc_first_block : (EasyFileSystem.layout total 4194303).inodeBitmap.alloc =
    (EasyFileSystem.layout total 4194303).inodeBitmap.allocIn (0 :: (List.range 4194302).map Nat.succ) :=
  Bitmap.alloc_eq _ rfl

end

end LemonCore.EasyFs
