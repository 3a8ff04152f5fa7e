import LemonCore.EasyFs.Runs

/-!
# What is on the device when a call returns

The block cache writes a block back when the entry is evicted and when `sync_all` runs.  A call whose
last step is `sync_all` leaves no modified entry, and neither does one that only reads.  `delete` and
`set_default_dirent` do not call `sync_all`, and `create_dir` calls `set_default_dirent` last.

* `CacheState.Clean`, `CacheState.CleanAt`: no entry is modified, or none for one block;
* `exec_readOnly_clean`: code that only reads keeps the cache clean;
* `Synced`: code that leaves the cache clean from any state;
* `exec_update_dirty`: a block that was updated last is modified in the cache, and the device still
  holds what it held before;
* `Call.Durable`: the calls after which the cache is clean.
-/

namespace LemonCore.EasyFs

open Foundation.BorrowProgram

variable {x : Block} {α : Type}

/-! ### Clean caches -/

/-- The entry for block `c`, if there is one, is not modified. -/
def CacheState.CleanAt (s : CacheState) (c : ℕ) : Prop :=
  ∀ e ∈ s.queue, e.1 = c → (s.heap e.2).modified = false

/-- No entry is modified. -/
def CacheState.Clean (s : CacheState) : Prop := ∀ e ∈ s.queue, (s.heap e.2).modified = false

variable {s s' : CacheState} {m d : Disk} {hs : List (ℕ × ℕ)} {held : List ℕ} {b c p : ℕ}

theorem CacheState.clean_iff : s.Clean ↔ ∀ c, s.CleanAt c :=
  ⟨fun h _ e he _ => h e he, fun h e he => h e.1 e he rfl⟩

theorem clean_syncAll (s : CacheState) : s.syncAll.Clean := syncAll_modified s

theorem CacheInv.device_at (h : CacheInv s m hs) (hc : s.CleanAt c) : s.device c = m c := by
  by_cases hmem : c ∈ s.queue.map Prod.fst
  · obtain ⟨e, he, rfl⟩ := List.mem_map.mp hmem
    exact h.clean e he (hc e he rfl)
  · exact h.absent c hmem

theorem Presents.device_at (h : Presents s held d) (hc : s.CleanAt c) : s.device c = d c := by
  obtain ⟨_, _, _, hinv⟩ := h
  exact hinv.device_at hc

theorem Presents.device_eq (h : Presents s held d) (hc : s.Clean) : s.device = d :=
  funext fun c => h.device_at (CacheState.clean_iff.mp hc c)

theorem CacheState.cleanAt_load (hfresh : ∀ e ∈ s.queue, e.2 < s.fresh) (hc : s.CleanAt c) :
    (s.load b).2.CleanAt c := by
  intro e he heq
  rcases List.mem_append.mp he with he | he
  · show (Function.update s.heap s.fresh _ e.2).modified = false
    rw [Function.update_of_ne (Nat.ne_of_lt (hfresh e he))]
    exact hc e he heq
  · rw [List.mem_singleton.mp he]
    show (Function.update s.heap s.fresh _ s.fresh).modified = false
    rw [Function.update_self]

theorem mem_of_mem_evict {i : ℕ} {e : ℕ × ℕ} (hi : i < s.queue.length) (he : e ∈ (s.evict i).queue) :
    e ∈ s.queue := by
  rw [evict_eq hi] at he
  exact (swapRemove_perm s.queue i hi).mem_iff.mp (List.mem_cons_of_mem _ he)

theorem CacheState.cleanAt_evict {i : ℕ} (hi : i < s.queue.length) (hc : s.CleanAt c) :
    (s.evict i).CleanAt c := by
  intro e he heq
  have hmem := mem_of_mem_evict hi he
  rw [evict_eq hi]
  by_contra hm
  have hm' : ((s.sync (s.queue[i]).2).heap e.2).modified = true := by simpa using hm
  have hmod := ((sync_heap s _ e.2).2.2 hm').1
  rw [hc e hmem heq] at hmod
  exact absurd hmod (by simp)

theorem CacheInv.cleanAt_get (h : CacheInv s m hs) (hget : s.get b = .ok (p, s'))
    (hc : s.CleanAt c) : s'.CleanAt c := by
  have hfresh : ∀ e ∈ s.queue, e.2 < s.fresh := fun e he => (h.entry e he).2
  rw [CacheState.get] at hget
  cases hf : s.queue.find? fun e => e.1 = b with
  | some e =>
    rw [hf] at hget
    cases hget
    exact hc
  | none =>
    rw [hf] at hget
    by_cases hfull : s.queue.length = blockCacheSize
    · simp only [if_pos hfull] at hget
      cases hv : s.victim with
      | none =>
        rw [hv] at hget
        cases hget
      | some i =>
        rw [hv] at hget
        cases hget
        obtain ⟨hi, _⟩ := List.findIdx?_eq_some_iff_getElem.mp hv
        refine CacheState.cleanAt_load ?_ (CacheState.cleanAt_evict hi hc)
        intro e he
        rw [show (s.evict i).fresh = s.fresh from sync_fresh _ _]
        exact hfresh e (mem_of_mem_evict hi he)
    · simp only [if_neg hfull] at hget
      cases hget
      exact CacheState.cleanAt_load hfresh hc

theorem Presents.cleanAt_acquire (h : Presents s held d)
    (hacq : cacheMachine.acquire b s = .ok (x, s')) (hc : s.CleanAt c) : s'.CleanAt c := by
  obtain ⟨_, hs, _, hinv⟩ := h
  have hacq : acquireBlock b s = .ok (x, s') := hacq
  rw [acquireBlock] at hacq
  cases hget : s.get b with
  | error e =>
    rw [hget] at hacq
    cases hacq
  | ok r =>
    rw [hget] at hacq
    by_cases hp : r.1 ∈ s.handles
    · simp only [if_pos hp] at hacq
      cases hacq
    · simp only [if_neg hp] at hacq
      cases hacq
      exact hinv.cleanAt_get hget hc

/-- The handle of the block that was borrowed last. -/
theorem Presents.head (h : Presents s (b :: held) d) :
    ∃ hs p, s.handles.headD 0 = p ∧ CacheInv s d ((b, p) :: hs) := by
  obtain ⟨_, hs, hmap, hinv⟩ := h
  cases hs with
  | nil => simp at hmap
  | cons e hs =>
    obtain ⟨b', p⟩ := e
    obtain ⟨rfl, _⟩ : b' = b ∧ _ := by simpa using hmap
    exact ⟨hs, p, by rw [hinv.handles_eq]; rfl, hinv⟩

theorem Presents.release_eq (h : Presents s (b :: held) d) :
    ∃ hs, cacheMachine.release b s = { s with handles := hs } := by
  obtain ⟨hs, p, hp, hinv⟩ := h.head
  refine ⟨s.handles.erase p, ?_⟩
  show s.release (s.handles.headD 0) = _
  rw [hp]
  exact hinv.release_eq List.mem_cons_self

theorem Presents.cleanAt_release (h : Presents s (b :: held) d) (hc : s.CleanAt c) :
    (cacheMachine.release b s).CleanAt c := by
  obtain ⟨hs, heq⟩ := h.release_eq
  rw [heq]
  exact hc

theorem Presents.cleanAt_store (h : Presents s (b :: held) d) (hbc : b ≠ c)
    (hc : s.CleanAt c) : (cacheMachine.store b x s).CleanAt c := by
  obtain ⟨hs, p, hp, hinv⟩ := h.head
  intro e he heq
  have hne : e.2 ≠ p := by
    intro hep
    have hentry := hinv.entry_eq he (hinv.held (b, p) List.mem_cons_self) hep
    exact hbc (by rw [← heq, hentry])
  show (Function.update s.heap (s.handles.headD 0) _ e.2).modified = false
  rw [hp, Function.update_of_ne hne]
  exact hc e he heq

theorem Presents.not_cleanAt_store (h : Presents s (b :: held) d) :
    ¬ (cacheMachine.store b x s).CleanAt b := by
  obtain ⟨hs, p, hp, hinv⟩ := h.head
  intro hc
  have hmod := hc (b, p) (hinv.held (b, p) List.mem_cons_self) rfl
  have hmod : (Function.update s.heap (s.handles.headD 0) _ p).modified = false := hmod
  rw [hp, Function.update_self] at hmod
  exact absurd hmod (by simp)

/-! ### Programs on the cache -/

/-- **Code that only reads** keeps the cache clean. -/
theorem exec_readOnly_clean {q : DiskProg α} {a : α} (hq : q.ReadOnly)
    (h : Presents s held d) (hclean : s.Clean) (hexec : exec cacheMachine q s = .ok (a, s')) :
    s'.Clean := by
  refine CacheState.clean_iff.mpr fun c => ?_
  refine exec_invariant cache_simulates (K := fun _ => False) (I := fun s => s.CleanAt c)
    (fun hno => hno) (fun h hc hacq => h.cleanAt_acquire hacq hc) (fun _ _ hno _ => hno.elim)
    (fun h hc => h.cleanAt_release hc) (fun _ _ => CacheState.clean_iff.mp (clean_syncAll _) c)
    q (Or.inl hq) h (CacheState.clean_iff.mp hclean c) hexec

theorem exec_borrowed_device {q : DiskProg α} {a : α} (hmem : c ∈ held)
    (h : Presents s held d) (hc : s.CleanAt c) (hx : s.device c = x)
    (hexec : exec cacheMachine q s = .ok (a, s')) : s'.device c = x := by
  have hI : s'.CleanAt c ∧ s'.device c = x := by
    refine exec_invariant cache_simulates (K := fun held => c ∈ held)
      (I := fun s => s.CleanAt c ∧ s.device c = x) (fun hmem => List.mem_cons_of_mem _ hmem)
      ?_ ?_ ?_ ?_ q (Or.inr hmem) h ⟨hc, hx⟩ hexec
    · intro s held d b y s' h hI hacq
      have hc' := h.cleanAt_acquire hacq hI.1
      refine ⟨hc', ?_⟩
      rw [(cache_simulates.acquired h hacq).2.device_at hc', ← h.device_at hI.1]
      exact hI.2
    · intro s held d b y h hb hmem hI
      exact ⟨h.cleanAt_store (fun heq => hb (heq ▸ hmem)) hI.1, hI.2⟩
    · intro s held d b h hI
      refine ⟨h.cleanAt_release hI.1, ?_⟩
      obtain ⟨hs, heq⟩ := h.release_eq
      rw [heq]
      exact hI.2
    · intro s held d h hI
      have hc' : (cacheMachine.sync s).CleanAt c := CacheState.clean_iff.mp (clean_syncAll s) c
      refine ⟨hc', ?_⟩
      rw [(cache_simulates.sync h).device_at hc', ← h.device_at hI.1]
      exact hI.2
  exact hI.2

/-- **An update without `sync_all`.**  The entry of the block is modified afterwards, and the device
holds what it held before. -/
theorem exec_update_dirty {body : Block → DiskProg (Block × α)} {a : α}
    (h : Presents s [] d) (hc : s.CleanAt b)
    (hexec : exec cacheMachine (Prog.update b body) s = .ok (a, s')) :
    ¬ s'.CleanAt b ∧ s'.device b = d b := by
  obtain ⟨x, s₁, y, s₂, hb, hacq, hbody, hend⟩ := exec_modify_ok cache_simulates h hexec
  cases hend
  obtain ⟨d₂, _, h₂⟩ := exec_ok cache_simulates hb.2 hbody
  have hc₁ := h.cleanAt_acquire hacq hc
  have hdev := exec_borrowed_device List.mem_cons_self hb.2 hc₁ (hb.2.device_at hc₁) hbody
  obtain ⟨hs, heq⟩ := (cache_simulates.store (x := y.1) h₂).release_eq
  rw [heq]
  exact ⟨h₂.not_cleanAt_store, hdev⟩

/-- Code that leaves the cache clean whenever it returns. -/
def Synced {α : Type} (q : DiskProg α) : Prop :=
  ∀ s a s', exec cacheMachine q s = .ok (a, s') → s'.Clean

theorem synced_syncAll : Synced (Prog.syncAll : DiskProg Unit) := by
  intro s a s' hexec
  cases hexec
  exact clean_syncAll s

theorem Synced.of_bind {γ : Type} {q : DiskProg α} {f : α → DiskProg γ} (hf : ∀ a, Synced (f a)) :
    Synced (q >>= f) := by
  intro s r s' hexec
  obtain ⟨a, s₁, _, hexec⟩ := exec_bind_ok hexec
  exact hf a s₁ r s' hexec

theorem Synced.map {γ : Type} {q : DiskProg α} (hq : Synced q) (f : α → γ) :
    Synced (q >>= fun a => pure (f a)) := by
  intro s r s' hexec
  obtain ⟨a, s₁, hexec, hend⟩ := exec_bind_ok hexec
  cases hend
  exact hq s a s' hexec

/-! ### The code that only reads -/

theorem readOnly_blockId (ino : DiskInode) (i : ℕ) : (ino.blockId i).ReadOnly := by
  have hborrow : ∀ b (f : Block → ℕ), (Prog.borrow b fun x => pure (f x) : DiskProg ℕ).ReadOnly :=
    fun b f => readOnly_borrow fun _ => readOnly_pure'
  rw [DiskInode.blockId]
  split
  · exact readOnly_pure'
  split
  · exact hborrow _ _
  split
  · exact (hborrow _ _).bind fun _ => hborrow _ _
  · refine Prog.ReadOnly.bind (readOnly_borrow fun _ => ?_) fun _ => (hborrow _ _).bind fun _ => hborrow _ _
    split
    · exact readOnly_pure'
    · exact readOnly_panic

theorem readOnly_readLoop (ino : DiskInode) (stop start startBlock readSize : ℕ) (buf : List UInt8) :
    (ino.readLoop stop start startBlock readSize buf).ReadOnly := by
  induction start, startBlock, readSize, buf using DiskInode.readLoop.induct stop with
  | case1 start startBlock readSize buf _ ih =>
    rw [DiskInode.readLoop]
    refine (readOnly_blockId ino _).bind fun _ => Prog.ReadOnly.bind ?_ fun src => ?_
    · exact readOnly_borrow fun _ => readOnly_pure'
    · split
      · exact readOnly_pure'
      · rename_i h
        exact ih src h

theorem readOnly_readAt (ino : DiskInode) (offset : ℕ) (buf : List UInt8) :
    (ino.readAt offset buf).ReadOnly := by
  rw [DiskInode.readAt]
  split
  · exact readOnly_pure'
  · exact readOnly_readLoop ino _ _ _ _ _

theorem readOnly_findFrom (name : String) (ino : DiskInode) (l : List ℕ) :
    ∀ buf, (findFrom name ino buf l).ReadOnly := by
  induction l with
  | nil => exact fun _ => readOnly_pure'
  | cons i l ih =>
    intro buf
    refine (readOnly_readAt ino _ _).bind fun r => readOnly_assert.bind fun _ => ?_
    refine Prog.ReadOnly.bind ?_ fun s => ?_
    · rw [direntName]
      split
      · exact readOnly_panic
      · exact readOnly_pure'
    · split
      · exact readOnly_pure'
      · exact ih _

theorem readOnly_findInodeId (name : String) (ino : DiskInode) : (findInodeId name ino).ReadOnly :=
  readOnly_assert.bind fun _ => readOnly_findFrom name ino _ _

/-! ### Calls -/

/-- `find_inode_id` finds the name in the directory at `self`. -/
def Inode.Has (self : Inode) (name : String) (d : Disk) : Prop :=
  ∃ i d', drun (self.readDiskInode (findInodeId name)) [] d = .ok (some i, d')

/-- The calls that end with `sync_all` or change nothing.  `create_dir` changes nothing exactly when
the name is taken. -/
def Call.Durable (d : Disk) : Call → Prop
  | .setDefaultDirent _ _ | .delete _ _ => False
  | .createDir self name => self.Has name d
  | .create _ _ | .writeAt _ _ _ | .readAt _ _ _ | .clear _ | .find _ _ => True

variable {fs : EasyFileSystem} {self : Inode} {name : String} {kind : DiskInodeKind}

/-- `create_inode` looks the name up as `find` does: `find_inode_id` asserts `is_dir` again. -/
theorem createInode_eq : self.createInode fs name kind =
    (do
      let found ← self.readDiskInode (findInodeId name)
      if found.isSome then pure none
      else do
        let newInodeId ← fs.allocInode
        let position := fs.diskInodePosition newInodeId
        modifyInode position.1 position.2 fun newInode => pure (newInode.init kind, ())
        self.modifyDiskInode (Inode.appendDirent fs name newInodeId)
        Prog.syncAll
        pure (some (.ofPosition position))) := by
  have hbody : (fun dir : DiskInode => do
      Prog.assert dir.isDir .assertion
      findInodeId name dir : DiskInode → DiskProg (Option ℕ)) = findInodeId name := by
    funext dir
    rw [findInodeId, Prog.assert]
    split <;> rfl
  rw [Inode.createInode, hbody]

/-- `create_inode` leaves the cache clean, and returns `None` exactly when the name is taken. -/
theorem createInode_clean {r : Option Inode} (h : Presents s [] d) (hclean : s.Clean)
    (hexec : exec cacheMachine (self.createInode fs name kind) s = .ok (r, s')) :
    s'.Clean ∧ (r = none ↔ self.Has name d) := by
  rw [createInode_eq] at hexec
  obtain ⟨found, s₁, hfind, hexec⟩ := exec_bind_ok hexec
  have hread : (self.readDiskInode (findInodeId name)).ReadOnly :=
    readOnly_borrow fun _ => readOnly_findInodeId name _
  have hclean₁ := exec_readOnly_clean hread h hclean hfind
  obtain ⟨d₁, hrun, _⟩ := exec_content h hfind
  have hhas : self.Has name d ↔ found.isSome := by
    constructor
    · rintro ⟨i, d', hrun'⟩
      rw [hrun] at hrun'
      cases hrun'
      rfl
    · intro hsome
      obtain ⟨i, hi⟩ := Option.isSome_iff_exists.mp hsome
      exact ⟨i, d₁, hi ▸ hrun⟩
  rw [hhas]
  by_cases hsome : found.isSome
  · rw [if_pos hsome] at hexec
    cases hexec
    exact ⟨hclean₁, iff_of_true rfl hsome⟩
  · rw [if_neg hsome] at hexec
    obtain ⟨new, s₂, _, hexec⟩ := exec_bind_ok hexec
    obtain ⟨_, s₃, _, hexec⟩ := exec_bind_ok hexec
    obtain ⟨_, s₄, _, hexec⟩ := exec_bind_ok hexec
    obtain ⟨_, s₅, hsync, hexec⟩ := exec_bind_ok hexec
    cases hexec
    exact ⟨synced_syncAll _ _ _ hsync, iff_of_false (by simp) hsome⟩

/-- Work on a disk inode without `sync_all` leaves the inode's block modified. -/
theorem modifyDiskInode_dirty {f : DiskInode → DiskProg (DiskInode × α)} {a : α}
    (h : Presents s [] d) (hclean : s.Clean)
    (hexec : exec cacheMachine (self.modifyDiskInode f) s = .ok (a, s')) :
    ¬ s'.Clean ∧ s'.device self.blockId = d self.blockId := by
  obtain ⟨hdirty, hdev⟩ := exec_update_dirty h (CacheState.clean_iff.mp hclean _) hexec
  exact ⟨fun hc => hdirty (CacheState.clean_iff.mp hc _), hdev⟩

theorem writeAt_synced (offset : ℕ) (buf : List UInt8) : Synced (self.writeAt fs offset buf) :=
  .of_bind fun _ => synced_syncAll.map _

theorem clear_synced : Synced (self.clear fs) := .of_bind fun _ => synced_syncAll

theorem create_synced (total inodeBlocks : ℕ) : Synced (EasyFileSystem.create total inodeBlocks) :=
  .of_bind fun _ => .of_bind fun _ => .of_bind fun _ => .of_bind fun _ => .of_bind fun _ =>
    synced_syncAll.map _

/-- **What a call leaves in the cache.**  From a clean cache a call that returns leaves a clean one
exactly when it is durable. -/
theorem call_clean_iff {call : Call} {reply : Reply} (h : Presents s [] d) (hclean : s.Clean)
    (hexec : exec cacheMachine (call.prog fs) s = .ok (reply, s')) : s'.Clean ↔ call.Durable d := by
  cases call with
  | create self name =>
    obtain ⟨r, s₁, hcall, hend⟩ := exec_bind_ok hexec
    cases hend
    exact iff_of_true (createInode_clean h hclean hcall).1 trivial
  | createDir self name =>
    obtain ⟨r, s₁, hcall, hend⟩ := exec_bind_ok hexec
    cases hend
    obtain ⟨made, s₂, hmake, hcall⟩ := exec_bind_ok hcall
    obtain ⟨hclean₂, hnone⟩ := createInode_clean h hclean hmake
    obtain ⟨d₂, _, h₂⟩ := exec_content h hmake
    cases made with
    | none =>
      cases hcall
      exact iff_of_true hclean₂ (hnone.mp rfl)
    | some inode =>
      obtain ⟨_, s₃, hdots, hend⟩ := exec_bind_ok hcall
      cases hend
      refine iff_of_false (modifyDiskInode_dirty h₂ hclean₂ hdots).1 fun hhas => ?_
      exact absurd (hnone.mpr hhas) (by simp)
  | setDefaultDirent self parent =>
    obtain ⟨_, s₁, hcall, hend⟩ := exec_bind_ok hexec
    cases hend
    exact iff_of_false (modifyDiskInode_dirty h hclean hcall).1 fun hno => hno
  | writeAt self offset buf =>
    exact iff_of_true ((writeAt_synced offset buf).map _ _ _ _ hexec) trivial
  | readAt self offset buf =>
    refine iff_of_true (exec_readOnly_clean (Prog.ReadOnly.bind ?_ fun _ => readOnly_pure') h hclean hexec)
      trivial
    exact readOnly_borrow fun _ => readOnly_readAt _ offset buf
  | clear self =>
    exact iff_of_true (clear_synced.map _ _ _ _ hexec) trivial
  | delete self name =>
    obtain ⟨_, s₁, hcall, hend⟩ := exec_bind_ok hexec
    cases hend
    exact iff_of_false (modifyDiskInode_dirty h hclean hcall).1 fun hno => hno
  | find self name =>
    refine iff_of_true (exec_readOnly_clean (Prog.ReadOnly.bind ?_ fun _ => readOnly_pure') h hclean hexec)
      trivial
    exact readOnly_borrow fun _ => (readOnly_findInodeId name _).bind fun _ => readOnly_pure'

/-! ### Runs -/

theorem exec_returns_iff (q : DiskProg α) (a : α) {t : CacheState} (hs : Presents s [] d)
    (ht : Presents t [] d) :
    (∃ c, exec cacheMachine q s = .ok (a, c)) ↔ ∃ c, exec cacheMachine q t = .ok (a, c) := by
  constructor
  · rintro ⟨c, hexec⟩
    obtain ⟨d', hrun, _⟩ := exec_content hs hexec
    obtain ⟨c', hexec', _⟩ := exec_returns ht hrun
    exact ⟨c', hexec'⟩
  · rintro ⟨c, hexec⟩
    obtain ⟨d', hrun, _⟩ := exec_content ht hexec
    obtain ⟨c', hexec', _⟩ := exec_returns hs hrun
    exact ⟨c', hexec'⟩

variable {G : Geometry} {d₀ : Disk} {hist : History} {t : System}

theorem Run.clean (h : Run G (fun _ d call => call.Durable d) d₀ hist t) : t.cache.Clean := by
  induction h with
  | init hc => exact create_synced _ _ _ _ _ hc
  | step hrun _ hok hexec ih => exact (call_clean_iff hrun.presents.2 ih hexec).mpr hok

/-- **Durability.**  In every run of durable calls the device holds the content of every block, and an
empty cache over the device gives the results that the cache of the run gives.  A call that is not
durable leaves a modified block. -/
theorem device_holds_content (h : Run G (fun _ d call => call.Durable d) d₀ hist t) :
    (t.cache.Clean ∧ t.cache.device = t.cache.content) ∧
    (∀ {α : Type} (q : DiskProg α) (a : α), (∃ c, exec cacheMachine q t.cache = .ok (a, c)) ↔
      ∃ c, exec cacheMachine q (.init t.cache.device) = .ok (a, c)) ∧
    ∀ (call : Call) reply c, exec cacheMachine (call.prog t.fs) t.cache = .ok (reply, c) →
      (c.Clean ↔ call.Durable t.cache.content) := by
  have hclean := h.clean
  have hpres := h.presents.2
  have hdev := hpres.device_eq hclean
  refine ⟨⟨hclean, hdev⟩, ?_, fun call reply c hexec => call_clean_iff hpres hclean hexec⟩
  intro α q a
  refine exec_returns_iff q a hpres ?_
  rw [hdev]
  exact presents_init _

/-- A file is created, and a byte is written into it. -/
theorem device_holds_content_byte : ∃ t : System,
    Run .efsTest (fun _ d call => call.Durable d) (fun _ => Block.zero) byteHist t ∧
    t.cache.device = t.cache.content := by
  obtain ⟨t, hrun, _⟩ := exists_play .efsTest (fun _ d call => call.Durable d) byteHist
    ⟨⟨trivial, by decide, trivial, by decide +kernel⟩, by decide, trivial, by decide +kernel⟩
  exact ⟨t, hrun, (device_holds_content hrun).1.2⟩

theorem fileSize_spec (G : Geometry) (d : Disk) (id : ℕ) :
    dwp (G.handle id).fileSize [] d (fun n d' => n = (G.slot d id).size ∧ d' = d) fun _ => False :=
  wp_borrow List.not_mem_nil (by decide) (wp_pure'.mpr ⟨rfl, rfl⟩)

theorem exec_fileSize {s : CacheState} {id n : ℕ} (h : Presents s [] d) (hn : (G.slot d id).size = n) :
    ∃ c, exec cacheMachine (G.handle id).fileSize s = .ok (n, c) := by
  obtain ⟨n', d', hrun, hn', _⟩ := wp_returns (fileSize_spec G d id)
  obtain ⟨c, hexec, _⟩ := exec_returns h hrun
  rw [hn', hn] at hexec
  exact ⟨c, hexec⟩

theorem slot_eq_of_block {d' : Disk} {id : ℕ} (h : d (G.handle id).blockId = d' (G.handle id).blockId) :
    G.slot d id = G.slot d' id :=
  congrArg (fun x => DiskInode.ofBlock x (G.pos id).2) h

/-- On the file system of `efs_test` the entries are lost when the device is opened again. -/
theorem default_dirent_lost : ∃ t : System,
    Run .efsTest (fun _ _ _ => True) (fun _ => Block.zero)
      [(.setDefaultDirent (Geometry.efsTest.handle 0) 0, .unit)] t ∧
    ¬ t.cache.Clean ∧
    (∃ c, exec cacheMachine (Geometry.efsTest.handle 0).fileSize t.cache = .ok (64, c)) ∧
    ∃ c, exec cacheMachine (Geometry.efsTest.handle 0).fileSize (.init t.cache.device) = .ok (0, c) := by
  obtain ⟨t, hrun, hfs, hp, hinodes⟩ := exists_play .efsTest (fun _ d call => call.Durable d) [] trivial
  obtain ⟨c, hexec, hp'⟩ := exec_of_outcome hp (show outcome ((Call.setDefaultDirent
    (Geometry.efsTest.handle 0) 0).prog Geometry.efsTest.fs) _ = .ok .unit by decide +kernel)
  obtain ⟨_, _, hcall, hend⟩ := exec_bind_ok hexec
  cases hend
  obtain ⟨hdirty, hdev⟩ := modifyDiskInode_dirty hrun.presents.2 hrun.clean hcall
  obtain ⟨c₁, hcache, _⟩ := exec_of_outcome hp'
    (show outcome (Geometry.efsTest.handle 0).fileSize _ = .ok 64 by decide +kernel)
  rw [← hfs] at hexec
  refine ⟨_, .step (hrun.mono fun _ _ _ _ => trivial) (by rw [hinodes]; exact List.mem_singleton_self _)
    trivial hexec, hdirty, ⟨c₁, hcache⟩, exec_fileSize (presents_init _) ?_⟩
  rw [slot_eq_of_block hdev, hp.content_eq]
  decide +kernel

end LemonCore.EasyFs
