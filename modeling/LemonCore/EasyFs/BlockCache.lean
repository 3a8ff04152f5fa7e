import Mathlib
import LemonCore.EasyFs.Block

/-!
# The block cache (`easy-fs/src/block_cache.rs`)

The cache manager keeps a queue of at most `BLOCK_CACHE_SIZE` entries.  An entry is a block number
and an `Arc` of a cached block; callers get clones of the `Arc`.  An `Arc` is a pointer into a heap,
and its strong count is the number of queue entries and of handles that hold it.  The heap, the
handles and the one block device are state next to the manager's queue.

`CacheInv s m hs` ties a cache state to the logical content `m` of the disk and to the handles `hs`
that callers hold: a cached block holds the logical content, a block that is not cached or is cached
but not modified has its logical content on the device, and no handle outlives its queue entry.
Every operation keeps it, so the cache cannot be told from the plain disk (`cache_coherent`).
-/

namespace LemonCore.EasyFs

open Foundation.BorrowProgram

/-! ### The model -/

/-- A cached block. -/
structure BlockCache where
  cache : Block
  blockId : ℕ
  modified : Bool

/-- The cache manager with its `Arc`s, the handles held by callers, and the device. -/
structure CacheState where
  /-- `BlockCacheManager::queue`: block numbers and pointers. -/
  queue : List (ℕ × ℕ)
  /-- What each `Arc` points to. -/
  heap : ℕ → BlockCache
  /-- The clones held by callers, the latest first. -/
  handles : List ℕ
  /-- The next pointer that `Arc::new` returns. -/
  fresh : ℕ
  device : Disk

namespace CacheState

/-- An empty cache over a device. -/
def init (d : Disk) : CacheState := ⟨[], fun _ => ⟨Block.zero, 0, false⟩, [], 0, d⟩

/-- `Arc::strong_count`. -/
def strongCount (s : CacheState) (p : ℕ) : ℕ := (s.queue.map Prod.snd).count p + s.handles.count p

/-- `BlockCache::sync`, which is also what dropping a cached block does. -/
def sync (s : CacheState) (p : ℕ) : CacheState :=
  if (s.heap p).modified then
    { s with
      heap := Function.update s.heap p { s.heap p with modified := false }
      device := Function.update s.device (s.heap p).blockId (s.heap p).cache }
  else s

/-- `Vec::swap_remove`: the last element takes the place of the removed one. -/
def swapRemove (l : List (ℕ × ℕ)) (i : ℕ) : List (ℕ × ℕ) :=
  (l.set i (l.getLastD (0, 0))).dropLast

/-- `BlockCache::new` and its push to the queue. -/
def load (s : CacheState) (b : ℕ) : ℕ × CacheState :=
  (s.fresh,
    { s with
      heap := Function.update s.heap s.fresh ⟨s.device b, b, false⟩
      queue := s.queue ++ [(b, s.fresh)]
      handles := s.fresh :: s.handles
      fresh := s.fresh + 1 })

/-- The first queue entry that nobody but the queue holds. -/
def victim (s : CacheState) : Option ℕ := s.queue.findIdx? fun e => s.strongCount e.2 = 1

/-- Evict queue entry `i`: it leaves the queue and is dropped. -/
def evict (s : CacheState) (i : ℕ) : CacheState :=
  { s with queue := swapRemove s.queue i }.sync (s.queue.getD i (0, 0)).2

/-- `BlockCacheManager::get`. -/
def get (s : CacheState) (b : ℕ) : Except (Fault Panic) (ℕ × CacheState) :=
  match s.queue.find? fun e => e.1 = b with
  | some e => .ok (e.2, { s with handles := e.2 :: s.handles })
  | none =>
    if s.queue.length = blockCacheSize then
      match s.victim with
      | some i => .ok ((s.evict i).load b)
      | none => .error .outOfSlots
    else .ok (s.load b)

/-- `BlockCache::read` through a handle. -/
def read (s : CacheState) (p : ℕ) : Block := (s.heap p).cache

/-- `BlockCache::modify` through a handle. -/
def modify (s : CacheState) (p : ℕ) (f : Block → Block) : CacheState :=
  { s with heap := Function.update s.heap p { s.heap p with cache := f (s.heap p).cache, modified := true } }

/-- Dropping a handle; the cached block itself is dropped with its last owner. -/
def release (s : CacheState) (p : ℕ) : CacheState :=
  let s' := { s with handles := s.handles.erase p }
  if s'.strongCount p = 0 then s'.sync p else s'

/-- `block_cache::sync_all`. -/
def syncAll (s : CacheState) : CacheState := (s.queue.map Prod.snd).foldl sync s

end CacheState

/-! ### The invariant -/

/-- The cache state `s` presents the disk content `m` to callers that hold the handles `hs`, each
given with the block number it was obtained for. -/
structure CacheInv (s : CacheState) (m : Disk) (hs : List (ℕ × ℕ)) : Prop where
  ids_nodup : (s.queue.map Prod.fst).Nodup
  ptrs_nodup : (s.queue.map Prod.snd).Nodup
  length_le : s.queue.length ≤ blockCacheSize
  entry : ∀ e ∈ s.queue, (s.heap e.2).blockId = e.1 ∧ e.2 < s.fresh
  handles_eq : s.handles = hs.map Prod.snd
  held : ∀ h ∈ hs, h ∈ s.queue
  cached : ∀ e ∈ s.queue, (s.heap e.2).cache = m e.1
  clean : ∀ e ∈ s.queue, (s.heap e.2).modified = false → s.device e.1 = m e.1
  absent : ∀ b, b ∉ s.queue.map Prod.fst → s.device b = m b

variable {s : CacheState} {m : Disk} {hs : List (ℕ × ℕ)}

theorem CacheInv.init (d : Disk) : CacheInv (CacheState.init d) d [] := by
  constructor <;> simp [CacheState.init]

theorem CacheInv.entry_eq (h : CacheInv s m hs) {e e' : ℕ × ℕ} (he : e ∈ s.queue)
    (he' : e' ∈ s.queue) (hp : e.2 = e'.2) : e = e' :=
  List.inj_on_of_nodup_map h.ptrs_nodup he he' hp

theorem CacheInv.entry_eq' (h : CacheInv s m hs) {e e' : ℕ × ℕ} (he : e ∈ s.queue)
    (he' : e' ∈ s.queue) (hp : e.1 = e'.1) : e = e' :=
  List.inj_on_of_nodup_map h.ids_nodup he he' hp

theorem CacheInv.perm (h : CacheInv s m hs) {q : List (ℕ × ℕ)} (hq : q.Perm s.queue) :
    CacheInv { s with queue := q } m hs where
  ids_nodup := (hq.map Prod.fst).nodup_iff.mpr h.ids_nodup
  ptrs_nodup := (hq.map Prod.snd).nodup_iff.mpr h.ptrs_nodup
  length_le := by rw [hq.length_eq]; exact h.length_le
  entry := fun e he => h.entry e (hq.mem_iff.mp he)
  handles_eq := h.handles_eq
  held := fun e he => hq.mem_iff.mpr (h.held e he)
  cached := fun e he => h.cached e (hq.mem_iff.mp he)
  clean := fun e he => h.clean e (hq.mem_iff.mp he)
  absent := fun b hb => h.absent b fun hmem => hb ((hq.map Prod.fst).mem_iff.mpr hmem)

/-! ### Write-back -/

@[simp] theorem sync_queue (s : CacheState) (p : ℕ) : (s.sync p).queue = s.queue := by
  unfold CacheState.sync; split <;> rfl

@[simp] theorem sync_handles (s : CacheState) (p : ℕ) : (s.sync p).handles = s.handles := by
  unfold CacheState.sync; split <;> rfl

@[simp] theorem sync_fresh (s : CacheState) (p : ℕ) : (s.sync p).fresh = s.fresh := by
  unfold CacheState.sync; split <;> rfl

theorem sync_heap (s : CacheState) (p q : ℕ) :
    ((s.sync p).heap q).cache = (s.heap q).cache ∧
    ((s.sync p).heap q).blockId = (s.heap q).blockId ∧
    (((s.sync p).heap q).modified = true → (s.heap q).modified = true ∧ q ≠ p) := by
  unfold CacheState.sync
  split
  · by_cases hq : q = p
    · subst hq
      simp
    · simp [hq]
  · rename_i hm
    refine ⟨rfl, rfl, fun h => ⟨h, ?_⟩⟩
    rintro rfl
    exact hm h

/-- Writing an entry back keeps the invariant. -/
theorem CacheInv.sync (h : CacheInv s m hs) {e : ℕ × ℕ} (he : e ∈ s.queue) :
    CacheInv (s.sync e.2) m hs := by
  have hdev : ∀ b, (s.sync e.2).device b = s.device b ∨ (b = e.1 ∧ (s.sync e.2).device b = m b) := by
    intro b
    unfold CacheState.sync
    split
    · by_cases hb : b = e.1
      · right
        refine ⟨hb, ?_⟩
        show Function.update s.device (s.heap e.2).blockId (s.heap e.2).cache b = m b
        rw [(h.entry e he).1, hb, Function.update_self]
        exact h.cached e he
      · left
        show Function.update s.device (s.heap e.2).blockId (s.heap e.2).cache b = s.device b
        rw [(h.entry e he).1, Function.update_of_ne hb]
    · exact Or.inl rfl
  refine ⟨?_, ?_, ?_, ?_, ?_, ?_, ?_, ?_, ?_⟩
  · rw [sync_queue]; exact h.ids_nodup
  · rw [sync_queue]; exact h.ptrs_nodup
  · rw [sync_queue]; exact h.length_le
  · intro e' he'
    rw [sync_queue] at he'
    rw [(sync_heap s e.2 e'.2).2.1, sync_fresh]
    exact h.entry e' he'
  · rw [sync_handles]; exact h.handles_eq
  · rw [sync_queue]; exact h.held
  · intro e' he'
    rw [sync_queue] at he'
    rw [(sync_heap s e.2 e'.2).1]
    exact h.cached e' he'
  · intro e' he' hm
    rw [sync_queue] at he'
    rcases hdev e'.1 with hd | ⟨_, hd⟩
    · rw [hd]
      -- the device block did not change, so an entry that is clean now was clean before
      by_cases hp : e'.2 = e.2
      · have hee := h.entry_eq he' he hp
        subst hee
        by_cases hmod : (s.heap e'.2).modified = true
        · have hnew : (s.sync e'.2).device e'.1 = m e'.1 := by
            unfold CacheState.sync
            rw [if_pos hmod]
            show Function.update s.device (s.heap e'.2).blockId (s.heap e'.2).cache e'.1 = m e'.1
            rw [(h.entry e' he').1, Function.update_self]
            exact h.cached e' he'
          rw [← hd]; exact hnew
        · exact h.clean e' he' (by simpa using hmod)
      · apply h.clean e' he'
        have hu : (s.sync e.2).heap e'.2 = s.heap e'.2 := by
          unfold CacheState.sync
          split
          · exact Function.update_of_ne hp _ _
          · rfl
        rw [← hu]; exact hm
    · exact hd
  · intro b hb
    rw [sync_queue] at hb
    rcases hdev b with hd | ⟨_, hd⟩
    · rw [hd]; exact h.absent b hb
    · exact hd

theorem sync_clean (s : CacheState) (p : ℕ) : ((s.sync p).heap p).modified = false := by
  by_contra hm
  exact ((sync_heap s p p).2.2 (by simpa using hm)).2 rfl

/-! ### Eviction and loading -/

theorem swapRemove_perm (l : List (ℕ × ℕ)) (i : ℕ) (hi : i < l.length) :
    (l.getD i (0, 0) :: CacheState.swapRemove l i).Perm l := by
  obtain ⟨a, x, b, rfl, ha⟩ : ∃ a x b, l = a ++ x :: b ∧ a.length = i := by
    refine ⟨l.take i, l.get ⟨i, hi⟩, l.drop (i + 1), ?_, by simp; omega⟩
    rw [List.get_eq_getElem, List.getElem_cons_drop, List.take_append_drop]
  subst ha
  rw [show (a ++ x :: b).getD a.length (0, 0) = x by simp]
  unfold CacheState.swapRemove
  rw [List.set_append_right _ _ (le_refl _), Nat.sub_self, List.set_cons_zero]
  rcases List.eq_nil_or_concat b with rfl | ⟨b', y, rfl⟩
  · rw [List.dropLast_concat]
    exact List.perm_append_singleton x a |>.symm
  · rw [List.concat_eq_append, show a ++ x :: (b' ++ [y]) = (a ++ x :: b') ++ [y] by simp,
      List.getLastD_concat,
      show a ++ y :: (b' ++ [y]) = (a ++ y :: b') ++ [y] by simp, List.dropLast_concat]
    have h1 : (a ++ y :: b').Perm (a ++ (b' ++ [y])) :=
      List.Perm.append_left a (List.perm_append_singleton y b').symm
    have h2 : ((a ++ x :: b') ++ [y]).Perm (x :: (a ++ (b' ++ [y]))) := by
      rw [List.append_assoc, List.cons_append]
      exact List.perm_middle
    exact (List.Perm.cons x h1).trans h2.symm

theorem evict_eq {i : ℕ} (hi : i < s.queue.length) : s.evict i =
    { s.sync (s.queue[i]).2 with queue := CacheState.swapRemove s.queue i } := by
  rw [CacheState.evict, show s.queue.getD i (0, 0) = s.queue[i] by simp [hi], CacheState.sync,
    CacheState.sync]
  split <;> rfl

theorem CacheInv.strongCount_eq_one (h : CacheInv s m hs) {e : ℕ × ℕ} (he : e ∈ s.queue) :
    s.strongCount e.2 = 1 ↔ e ∉ hs := by
  have hq : (s.queue.map Prod.snd).count e.2 = 1 :=
    List.count_eq_one_of_mem h.ptrs_nodup (List.mem_map_of_mem he)
  have hiff : e.2 ∈ s.handles ↔ e ∈ hs := by
    rw [h.handles_eq, List.mem_map]
    constructor
    · rintro ⟨e', he', hp⟩
      rwa [← h.entry_eq (h.held e' he') he hp]
    · intro he'
      exact ⟨e, he', rfl⟩
  unfold CacheState.strongCount
  rw [hq, ← hiff, ← List.count_eq_zero]
  omega

theorem CacheInv.exists_unheld (h : CacheInv s m hs) (hlt : hs.length < s.queue.length) :
    ∃ e ∈ s.queue, e ∉ hs := by
  by_contra hall
  push Not at hall
  have hnd : s.queue.Nodup := List.Nodup.of_map _ h.ids_nodup
  have hle := (List.subperm_of_subset hnd hall).length_le
  omega

/-- A clean entry that nobody holds may leave the queue. -/
theorem CacheInv.remove (h : CacheInv s m hs) {e : ℕ × ℕ} {q : List (ℕ × ℕ)}
    (hq : (e :: q).Perm s.queue) (hclean : (s.heap e.2).modified = false) (hfree : e ∉ hs) :
    CacheInv { s with queue := q } m hs := by
  have he : e ∈ s.queue := hq.mem_iff.mp List.mem_cons_self
  have hsub : ∀ x ∈ q, x ∈ s.queue := fun x hx => hq.mem_iff.mp (List.mem_cons_of_mem e hx)
  have h' := h.perm hq
  refine ⟨(List.nodup_cons.mp h'.ids_nodup).2, (List.nodup_cons.mp h'.ptrs_nodup).2, ?_,
    fun x hx => h.entry x (hsub x hx), h.handles_eq, ?_, fun x hx => h.cached x (hsub x hx),
    fun x hx => h.clean x (hsub x hx), ?_⟩
  · have := h'.length_le
    simp only [List.length_cons] at this
    show q.length ≤ blockCacheSize
    omega
  · intro x hx
    rcases List.mem_cons.mp (hq.mem_iff.mpr (h.held x hx)) with rfl | hxq
    · exact absurd hx hfree
    · exact hxq
  · intro b hb
    by_cases hbe : b = e.1
    · rw [hbe]; exact h.clean e he hclean
    · apply h.absent b
      intro hmem
      rcases List.mem_cons.mp ((hq.map Prod.fst).mem_iff.mpr hmem) with hbe' | hbq
      · exact hbe hbe'
      · exact hb hbq

/-- Loading a block that is not cached keeps the invariant and hands out one handle for it. -/
theorem CacheInv.load (h : CacheInv s m hs) {b : ℕ} (hb : b ∉ s.queue.map Prod.fst)
    (hlen : s.queue.length < blockCacheSize) :
    CacheInv (s.load b).2 m ((b, (s.load b).1) :: hs) := by
  have hold : ∀ e ∈ s.queue, Function.update s.heap s.fresh ⟨s.device b, b, false⟩ e.2 = s.heap e.2 := by
    intro e he
    exact Function.update_of_ne (Nat.ne_of_lt (h.entry e he).2) _ _
  have hcase : ∀ e ∈ s.queue ++ [(b, s.fresh)], e ∈ s.queue ∨ e = (b, s.fresh) := by
    intro e he
    simpa using he
  refine ⟨?_, ?_, ?_, ?_, ?_, ?_, ?_, ?_, ?_⟩
  · show ((s.queue ++ [(b, s.fresh)]).map Prod.fst).Nodup
    rw [List.map_append, List.nodup_append]
    refine ⟨h.ids_nodup, by simp, ?_⟩
    intro x hx y hy hxy
    simp only [List.map_cons, List.map_nil, List.mem_singleton] at hy
    exact hb (by rwa [← hy, ← hxy])
  · show ((s.queue ++ [(b, s.fresh)]).map Prod.snd).Nodup
    rw [List.map_append, List.nodup_append]
    refine ⟨h.ptrs_nodup, by simp, ?_⟩
    intro x hx y hy hxy
    obtain ⟨e, he, rfl⟩ := List.mem_map.mp hx
    simp only [List.map_cons, List.map_nil, List.mem_singleton] at hy
    have := (h.entry e he).2
    omega
  · show (s.queue ++ [(b, s.fresh)]).length ≤ blockCacheSize
    rw [List.length_append, List.length_singleton]
    omega
  · intro e he
    show (Function.update s.heap s.fresh ⟨s.device b, b, false⟩ e.2).blockId = e.1 ∧ e.2 < s.fresh + 1
    rcases hcase e he with he | rfl
    · rw [hold e he]
      have := h.entry e he
      exact ⟨this.1, by omega⟩
    · simp
  · show s.fresh :: s.handles = s.fresh :: hs.map Prod.snd
    rw [h.handles_eq]
  · intro e he
    show e ∈ s.queue ++ [(b, s.fresh)]
    rcases List.mem_cons.mp he with rfl | he
    · simp [CacheState.load]
    · exact List.mem_append_left _ (h.held e he)
  · intro e he
    show (Function.update s.heap s.fresh ⟨s.device b, b, false⟩ e.2).cache = m e.1
    rcases hcase e he with he | rfl
    · rw [hold e he]; exact h.cached e he
    · simpa using h.absent b hb
  · intro e he hm
    rcases hcase e he with he | rfl
    · apply h.clean e he
      rw [← hold e he]; exact hm
    · exact h.absent b hb
  · intro b' hb'
    apply h.absent b'
    intro hmem
    apply hb'
    show b' ∈ (s.queue ++ [(b, s.fresh)]).map Prod.fst
    rw [List.map_append]
    exact List.mem_append_left _ hmem

theorem CacheInv.of_get (h : CacheInv s m hs) {b p : ℕ} {s' : CacheState}
    (hget : s.get b = .ok (p, s')) : CacheInv s' m ((b, p) :: hs) := by
  rw [CacheState.get] at hget
  cases hf : s.queue.find? fun e => e.1 = b with
  | some e =>
    rw [hf] at hget
    cases hget
    have he : e ∈ s.queue := List.mem_of_find?_eq_some hf
    have hb : e.1 = b := by simpa using List.find?_some hf
    refine ⟨h.ids_nodup, h.ptrs_nodup, h.length_le, h.entry, ?_, ?_, h.cached, h.clean, h.absent⟩
    · show e.2 :: s.handles = e.2 :: hs.map Prod.snd
      rw [h.handles_eq]
    · intro x hx
      rcases List.mem_cons.mp hx with rfl | hx
      · rwa [show (b, e.2) = e by rw [← hb]]
      · exact h.held x hx
  | none =>
    rw [hf] at hget
    have hb : b ∉ s.queue.map Prod.fst := by
      intro hmem
      obtain ⟨e, he, hbe⟩ := List.mem_map.mp hmem
      have := List.find?_eq_none.mp hf e he
      simp [hbe] at this
    by_cases hfull : s.queue.length = blockCacheSize
    · simp only [if_pos hfull] at hget
      cases hv : s.victim with
      | none =>
        rw [hv] at hget
        cases hget
      | some i =>
        rw [hv] at hget
        cases hget
        obtain ⟨hi, hone, _⟩ := List.findIdx?_eq_some_iff_getElem.mp hv
        have hget : s.queue.getD i (0, 0) = s.queue[i] := by simp [hi]
        have hmem : s.queue[i] ∈ s.queue := List.getElem_mem hi
        have hunheld : s.queue[i] ∉ hs := (h.strongCount_eq_one hmem).mp (by simpa using hone)
        have hperm := swapRemove_perm s.queue i hi
        rw [hget] at hperm
        have hev : CacheInv (s.evict i) m hs := by
          have hs1 := (h.sync hmem).remove (e := s.queue[i]) (q := CacheState.swapRemove s.queue i)
            (by rw [sync_queue]; exact hperm) (sync_clean s _) hunheld
          rw [evict_eq hi]
          exact hs1
        have hq : (s.evict i).queue = CacheState.swapRemove s.queue i := by
          unfold CacheState.evict
          rw [sync_queue]
        have hlen := hperm.length_eq
        rw [List.length_cons] at hlen
        refine hev.load ?_ ?_
        · rw [hq]
          intro hbm
          obtain ⟨e', he', hbe⟩ := List.mem_map.mp hbm
          exact hb (List.mem_map.mpr ⟨e', hperm.mem_iff.mp (List.mem_cons_of_mem _ he'), hbe⟩)
        · rw [hq]; omega
    · simp only [if_neg hfull] at hget
      cases hget
      exact h.load hb (lt_of_le_of_ne h.length_le hfull)

/-- **Getting a block.**  While fewer than `blockCacheSize` handles are held, `get` does not panic,
and the handle it returns is for the block that was asked for. -/
theorem CacheInv.get (h : CacheInv s m hs) (b : ℕ) (hlt : hs.length < blockCacheSize) :
    ∃ p s', s.get b = .ok (p, s') ∧ CacheInv s' m ((b, p) :: hs) := by
  have hok : ∃ p s', s.get b = .ok (p, s') := by
    rw [CacheState.get]
    cases hf : s.queue.find? fun e => e.1 = b with
    | some e => exact ⟨_, _, rfl⟩
    | none =>
      by_cases hfull : s.queue.length = blockCacheSize
      · -- a full queue: some entry is unreferenced, and the first such one is evicted
        simp only [if_pos hfull]
        obtain ⟨e, he, hfree⟩ := h.exists_unheld (by omega)
        cases hv : s.victim with
        | none =>
          have := List.findIdx?_eq_none_iff.mp hv e he
          simp [(h.strongCount_eq_one he).mpr hfree] at this
        | some i => exact ⟨_, _, rfl⟩
      · simp only [if_neg hfull]
        exact ⟨_, _, rfl⟩
  obtain ⟨p, s', hget⟩ := hok
  exact ⟨p, s', hget, h.of_get hget⟩

/-- Modifying through a handle changes the logical content of that block only. -/
theorem CacheInv.modify (h : CacheInv s m hs) {b p : ℕ} (hh : (b, p) ∈ hs) (f : Block → Block) :
    CacheInv (s.modify p f) (Function.update m b (f (m b))) hs := by
  have hbp := h.held _ hh
  have hcase : ∀ e ∈ s.queue, (e.2 = p ∧ e.1 = b) ∨ (e.2 ≠ p ∧ e.1 ≠ b) := by
    intro e he
    by_cases hp : e.2 = p
    · have hep := h.entry_eq he hbp hp
      exact Or.inl ⟨hp, by rw [hep]⟩
    · refine Or.inr ⟨hp, fun hb => hp ?_⟩
      have hep := h.entry_eq' he hbp hb
      rw [hep]
  refine ⟨h.ids_nodup, h.ptrs_nodup, h.length_le, ?_, h.handles_eq, h.held, ?_, ?_, ?_⟩
  · intro e he
    refine ⟨?_, (h.entry e he).2⟩
    show (Function.update s.heap p _ e.2).blockId = e.1
    rcases hcase e he with ⟨hp, _⟩ | ⟨hp, _⟩
    · rw [hp, Function.update_self, ← hp]
      exact (h.entry e he).1
    · rw [Function.update_of_ne hp]
      exact (h.entry e he).1
  · intro e he
    show (Function.update s.heap p _ e.2).cache = _
    rcases hcase e he with ⟨hp, hb⟩ | ⟨hp, hb⟩
    · rw [hp, hb, Function.update_self, Function.update_self]
      show f (s.heap p).cache = f (m b)
      rw [show (s.heap p).cache = m b from h.cached _ hbp]
    · rw [Function.update_of_ne hp, Function.update_of_ne hb]
      exact h.cached e he
  · intro e he hm
    rcases hcase e he with ⟨hp, _⟩ | ⟨hp, hb⟩
    · have : (Function.update s.heap p { s.heap p with cache := f (s.heap p).cache, modified := true }
          e.2).modified = false := hm
      rw [hp, Function.update_self] at this
      exact absurd this (by simp)
    · have : (Function.update s.heap p { s.heap p with cache := f (s.heap p).cache, modified := true }
          e.2).modified = false := hm
      rw [Function.update_of_ne hp] at this
      rw [Function.update_of_ne hb]
      exact h.clean e he this
  · intro b' hb'
    have hne : b' ≠ b := by
      rintro rfl
      exact hb' (List.mem_map.mpr ⟨_, hbp, rfl⟩)
    rw [Function.update_of_ne hne]
    exact h.absent b' hb'

theorem CacheInv.release_eq (h : CacheInv s m hs) {b p : ℕ} (hh : (b, p) ∈ hs) :
    s.release p = { s with handles := s.handles.erase p } := by
  have hpos : ({ s with handles := s.handles.erase p } : CacheState).strongCount p ≠ 0 := by
    unfold CacheState.strongCount
    have : 0 < (s.queue.map Prod.snd).count p :=
      List.count_pos_iff.mpr (List.mem_map.mpr ⟨_, h.held _ hh, rfl⟩)
    show (s.queue.map Prod.snd).count p + _ ≠ 0
    omega
  rw [CacheState.release]
  exact if_neg hpos

theorem CacheInv.release (h : CacheInv s m hs) {b p : ℕ} (hh : (b, p) ∈ hs) :
    CacheInv (s.release p) m (hs.erase (b, p)) := by
  have hbp := h.held _ hh
  rw [h.release_eq hh]
  refine ⟨h.ids_nodup, h.ptrs_nodup, h.length_le, h.entry, ?_, ?_, h.cached, h.clean, h.absent⟩
  · show s.handles.erase p = (hs.erase (b, p)).map Prod.snd
    rw [h.handles_eq]
    -- among the held handles the pointer determines the pair
    have hinj : ∀ l : List (ℕ × ℕ), (∀ x ∈ l, x ∈ s.queue) →
        (l.map Prod.snd).erase p = (l.erase (b, p)).map Prod.snd := by
      intro l
      induction l with
      | nil => intro _; rfl
      | cons x l ih =>
        intro hl
        by_cases hx : x = (b, p)
        · subst hx
          simp
        · have hx2 : x.2 ≠ p := fun hp =>
            hx (h.entry_eq (hl x List.mem_cons_self) hbp hp)
          rw [List.map_cons, List.erase_cons_tail (by simpa using hx2),
            List.erase_cons_tail (by simpa using hx), List.map_cons,
            ih fun y hy => hl y (List.mem_cons_of_mem _ hy)]
    exact hinj hs h.held
  · intro x hx
    exact h.held x (List.mem_of_mem_erase hx)

/-- Writing a list of entries back leaves the queue as it is and those entries unmodified. -/
theorem foldl_sync (l : List ℕ) : ∀ s : CacheState, (l.foldl CacheState.sync s).queue = s.queue ∧
    ∀ q, ((l.foldl CacheState.sync s).heap q).modified = true → (s.heap q).modified = true ∧ q ∉ l := by
  induction l with
  | nil => exact fun s => ⟨rfl, fun q hq => ⟨hq, by simp⟩⟩
  | cons p l ih =>
    intro s
    obtain ⟨hqueue, hmod⟩ := ih (s.sync p)
    refine ⟨by rw [List.foldl_cons, hqueue, sync_queue], ?_⟩
    intro q hq
    obtain ⟨hq1, hql⟩ := hmod q hq
    obtain ⟨hq2, hqp⟩ := (sync_heap s p q).2.2 hq1
    exact ⟨hq2, by simp [hqp, hql]⟩

theorem syncAll_modified (s : CacheState) :
    ∀ e ∈ s.syncAll.queue, (s.syncAll.heap e.2).modified = false := by
  intro e he
  obtain ⟨hqueue, hmod⟩ := foldl_sync (s.queue.map Prod.snd) s
  rw [show s.syncAll.queue = s.queue from hqueue] at he
  by_contra hm
  have hm' : (s.syncAll.heap e.2).modified = true := by simpa using hm
  exact (hmod e.2 hm').2 (List.mem_map_of_mem he)

theorem CacheInv.syncAll (h : CacheInv s m hs) : CacheInv s.syncAll m hs := by
  have hfold : ∀ (l : List ℕ) (s : CacheState), CacheInv s m hs →
      (∀ p ∈ l, p ∈ s.queue.map Prod.snd) → CacheInv (l.foldl CacheState.sync s) m hs := by
    intro l
    induction l with
    | nil => exact fun s hs _ => hs
    | cons p l ih =>
      intro s hs hl
      obtain ⟨e, he, hep⟩ := List.mem_map.mp (hl p List.mem_cons_self)
      have hstep : CacheInv (s.sync p) m _ := hep ▸ hs.sync he
      exact ih (s.sync p) hstep
        (by rw [sync_queue]; exact fun q hq => hl q (List.mem_cons_of_mem _ hq))
  exact hfold _ s h fun p hp => hp

theorem CacheInv.device_eq (h : CacheInv s m hs)
    (hclean : ∀ e ∈ s.queue, (s.heap e.2).modified = false) : s.device = m := by
  funext b
  by_cases hb : b ∈ s.queue.map Prod.fst
  · obtain ⟨e, he, rfl⟩ := List.mem_map.mp hb
    exact h.clean e he (hclean e he)
  · exact h.absent b hb

/-! ### Runs of the cache -/

/-- What a caller does with the cache.  A handle is named by the block it was got for and its
pointer. -/
inductive CacheEvent where
  | got (b p : ℕ)
  | read (b p : ℕ)
  | modified (b p : ℕ) (f : Block → Block)
  | released (b p : ℕ)
  | synced

/-- The handles held after a trace (the latest event first). -/
def heldAfter : List CacheEvent → List (ℕ × ℕ)
  | [] => []
  | .got b p :: tr => (b, p) :: heldAfter tr
  | .released b p :: tr => (heldAfter tr).erase (b, p)
  | _ :: tr => heldAfter tr

/-- The content of the disk after a trace: each block as its latest modification left it. -/
def contentAfter (d : Disk) : List CacheEvent → Disk
  | [] => d
  | .modified b _ f :: tr => Function.update (contentAfter d tr) b (f (contentAfter d tr b))
  | _ :: tr => contentAfter d tr

/-- The runs of the cache over a device with content `d`: handles are used while they are held, in
any order, and each `get` finds fewer than `blockCacheSize` handles held. -/
inductive CacheRun (d : Disk) : List CacheEvent → CacheState → Prop
  | init : CacheRun d [] (.init d)
  | get {tr s s' b p} : CacheRun d tr s → (heldAfter tr).length < blockCacheSize →
      s.get b = .ok (p, s') → CacheRun d (.got b p :: tr) s'
  | read {tr s b p} : CacheRun d tr s → (b, p) ∈ heldAfter tr → CacheRun d (.read b p :: tr) s
  | modify {tr s b p f} : CacheRun d tr s → (b, p) ∈ heldAfter tr →
      CacheRun d (.modified b p f :: tr) (s.modify p f)
  | release {tr s b p} : CacheRun d tr s → (b, p) ∈ heldAfter tr →
      CacheRun d (.released b p :: tr) (s.release p)
  | sync {tr s} : CacheRun d tr s → CacheRun d (.synced :: tr) s.syncAll

theorem CacheRun.inv {d : Disk} {tr : List CacheEvent} {s : CacheState} (h : CacheRun d tr s) :
    CacheInv s (contentAfter d tr) (heldAfter tr) := by
  induction h with
  | init => exact CacheInv.init d
  | get _ _ hget ih => exact ih.of_get hget
  | read _ _ ih => exact ih
  | modify _ hh ih => exact ih.modify hh _
  | release _ hh ih => exact ih.release hh
  | sync _ ih => exact ih.syncAll

/-- **The cache is coherent.**  In every run a `get` with fewer than `blockCacheSize` handles held
returns, every handle reads the content its block was last given, the queue holds each block at most
once and at most `blockCacheSize` blocks, and after `sync_all` the device has the content of every
block. -/
theorem cache_coherent (d : Disk) (tr : List CacheEvent) (s : CacheState) (h : CacheRun d tr s) :
    (∀ b, (heldAfter tr).length < blockCacheSize → ∃ p s', s.get b = .ok (p, s')) ∧
    (∀ b p, (b, p) ∈ heldAfter tr → s.read p = contentAfter d tr b) ∧
    (s.queue.map Prod.fst).Nodup ∧ s.queue.length ≤ blockCacheSize ∧
    s.syncAll.device = contentAfter d tr := by
  have hinv := h.inv
  refine ⟨?_, ?_, hinv.ids_nodup, hinv.length_le, ?_⟩
  · intro b hlt
    obtain ⟨p, s', hget, _⟩ := hinv.get b hlt
    exact ⟨p, s', hget⟩
  · intro b p hh
    exact hinv.cached _ (hinv.held _ hh)
  · exact hinv.syncAll.device_eq (syncAll_modified s)

/-- Block 3 got, filled with ones and released, on a device of zero blocks. -/
theorem cache_coherent_one_block :
    CacheRun (fun _ => Block.zero) [.released 3 0, .modified 3 0 (fun _ _ => 1), .got 3 0]
      ((((CacheState.init fun _ => Block.zero).load 3).2.modify 0 fun _ _ => 1).release 0) ∧
    ((((CacheState.init fun _ => Block.zero).load 3).2.modify 0 fun _ _ => 1).release 0).syncAll.device
      = Function.update (fun _ => Block.zero) 3 (fun _ => 1) := by
  have h1 : CacheRun (fun _ => Block.zero) [.got 3 0]
      ((CacheState.init fun _ => Block.zero).load 3).2 := .get .init (by decide) rfl
  have h3 := CacheRun.release (.modify (f := fun _ _ => 1) h1 List.mem_cons_self) List.mem_cons_self
  exact ⟨h3, (cache_coherent _ _ _ h3).2.2.2.2⟩

/-! ### File system code on the cache -/

/-- Getting a block and locking it; a block that is locked already never comes free. -/
def acquireBlock (b : ℕ) (s : CacheState) : Except (Fault Panic) (Block × CacheState) :=
  match s.get b with
  | .error e => .error e
  | .ok (p, s') => if p ∈ s.handles then .error (.locked b) else .ok (s'.read p, s')

/-- The cache as the store of file system code.  Borrows are nested, so the block that is modified
or given back is the one locked last. -/
def cacheMachine : Machine CacheState Block Panic where
  acquire := acquireBlock
  store _ x s := s.modify (s.handles.headD 0) fun _ => x
  release _ s := s.release (s.handles.headD 0)
  sync := CacheState.syncAll

/-- The cache presents the disk `d` to a program that holds the blocks `held`. -/
def Presents (s : CacheState) (held : List ℕ) (d : Disk) : Prop :=
  held.Nodup ∧ ∃ hs : List (ℕ × ℕ), hs.map Prod.fst = held ∧ CacheInv s d hs

theorem presents_init (d : Disk) : Presents (.init d) [] d :=
  ⟨List.nodup_nil, [], rfl, CacheInv.init d⟩

theorem CacheInv.get_ptr_mem {s' : CacheState} {b p : ℕ} (h : CacheInv s m hs)
    (h' : CacheInv s' m ((b, p) :: hs)) : p ∈ s.handles ↔ b ∈ hs.map Prod.fst := by
  have hbp := h'.held (b, p) List.mem_cons_self
  rw [h.handles_eq, List.mem_map, List.mem_map]
  constructor
  · rintro ⟨e, he, hp⟩
    have hee := h'.entry_eq (h'.held e (List.mem_cons_of_mem _ he)) hbp hp
    exact ⟨e, he, by rw [hee]⟩
  · rintro ⟨e, he, hb⟩
    have hee := h'.entry_eq' (h'.held e (List.mem_cons_of_mem _ he)) hbp hb
    exact ⟨e, he, by rw [hee]⟩

theorem CacheInv.get_hit (h : CacheInv s m hs) {b p : ℕ} (hh : (b, p) ∈ hs) :
    s.get b = .ok (p, { s with handles := p :: s.handles }) := by
  have hbp := h.held _ hh
  unfold CacheState.get
  cases hf : s.queue.find? fun e => e.1 = b with
  | none => simpa using List.find?_eq_none.mp hf _ hbp
  | some e =>
    have he : e ∈ s.queue := List.mem_of_find?_eq_some hf
    have hb : e.1 = b := by simpa using List.find?_some hf
    rw [h.entry_eq' he hbp hb]

theorem CacheInv.get_full (h : CacheInv s m hs) {b : ℕ} (hnd : (hs.map Prod.fst).Nodup)
    (hb : b ∉ hs.map Prod.fst) (hfull : blockCacheSize ≤ hs.length) :
    s.get b = .error .outOfSlots := by
  have hle : hs.Subperm s.queue := List.subperm_of_subset (List.Nodup.of_map _ hnd) h.held
  have hperm : hs.Perm s.queue := hle.perm_of_length_le (le_trans h.length_le hfull)
  have hlen : s.queue.length = blockCacheSize :=
    le_antisymm h.length_le (by rw [← hperm.length_eq]; exact hfull)
  unfold CacheState.get
  have hf : (s.queue.find? fun e => e.1 = b) = none := by
    rw [List.find?_eq_none]
    intro e he
    have : e.1 ≠ b := fun hbe => hb (List.mem_map.mpr ⟨e, hperm.mem_iff.mpr he, hbe⟩)
    simpa using this
  have hv : s.victim = none := by
    unfold CacheState.victim
    rw [List.findIdx?_eq_none_iff]
    intro e he
    have : s.strongCount e.2 ≠ 1 := fun h1 =>
      (h.strongCount_eq_one he).mp h1 (hperm.mem_iff.mpr he)
    simpa using this
  rw [hf]
  simp only [if_pos hlen, hv]

/-- **The cache implements the disk.**  Each step of the cache does what the disk does. -/
theorem cache_simulates : Simulates cacheMachine blockCacheSize Presents where
  acquire_ok := by
    rintro s held d b ⟨hnd, hs, rfl, hinv⟩ hb hlt
    rw [List.length_map] at hlt
    obtain ⟨p, s', hget, hinv'⟩ := hinv.get b hlt
    have hp : p ∉ s.handles := fun hp => hb ((hinv.get_ptr_mem hinv').mp hp)
    refine ⟨s', ?_, List.nodup_cons.mpr ⟨hb, hnd⟩, (b, p) :: hs, rfl, hinv'⟩
    show acquireBlock b s = _
    unfold acquireBlock
    rw [hget]
    simp only [if_neg hp]
    rw [show s'.read p = d b from hinv'.cached _ (hinv'.held _ List.mem_cons_self)]
  acquire_locked := by
    rintro s held d b ⟨hnd, hs, rfl, hinv⟩ hb
    obtain ⟨e, he, rfl⟩ := List.mem_map.mp hb
    show acquireBlock e.1 s = _
    unfold acquireBlock
    rw [hinv.get_hit (p := e.2) he]
    have hp : e.2 ∈ s.handles := by
      rw [hinv.handles_eq]
      exact List.mem_map_of_mem he
    simp only [if_pos hp]
  acquire_full := by
    rintro s held d b ⟨hnd, hs, rfl, hinv⟩ hb hfull
    rw [List.length_map] at hfull
    show acquireBlock b s = _
    unfold acquireBlock
    rw [hinv.get_full hnd hb hfull]
  store := by
    rintro s held d b x ⟨hnd, hs, hmap, hinv⟩
    refine ⟨hnd, hs, hmap, ?_⟩
    cases hs with
    | nil => simp at hmap
    | cons e hs =>
      obtain ⟨b', p⟩ := e
      obtain ⟨rfl, _⟩ : b' = b ∧ _ := by simpa using hmap
      show CacheInv (s.modify (s.handles.headD 0) fun _ => x) _ _
      rw [show s.handles.headD 0 = p by rw [hinv.handles_eq]; rfl]
      exact hinv.modify List.mem_cons_self fun _ => x
  release := by
    rintro s held d b ⟨hnd, hs, hmap, hinv⟩
    cases hs with
    | nil => simp at hmap
    | cons e hs =>
      obtain ⟨b', p⟩ := e
      obtain ⟨rfl, hmap'⟩ : b' = b ∧ hs.map Prod.fst = held := by simpa using hmap
      refine ⟨(List.nodup_cons.mp hnd).2, hs, hmap', ?_⟩
      show CacheInv (s.release (s.handles.headD 0)) _ _
      rw [show s.handles.headD 0 = p by rw [hinv.handles_eq]; rfl]
      have hrel := hinv.release (b := b') (p := p) List.mem_cons_self
      rwa [List.erase_cons_head] at hrel
  sync := by
    rintro s held d ⟨hnd, hs, hmap, hinv⟩
    exact ⟨hnd, hs, hmap, hinv.syncAll⟩

end LemonCore.EasyFs
