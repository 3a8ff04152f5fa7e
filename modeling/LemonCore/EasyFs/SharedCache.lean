import Mathlib
import LemonCore.EasyFs.BlockCache

/-!
# One cache for several devices

`BLOCK_CACHE_MANAGER` is one queue for all devices of the program.  An entry knows its device and is
written back to it, but `BlockCacheManager::get` looks an entry up by the block number alone.

* `SharedCache`: the cache manager with the devices; a device is named by a number, as the `Arc` that
  callers pass names it;
* `SharedCache.flat`: the cache as one over a single device, on which block `b` of device `dev` has the
  number `Nat.pair dev b`;
* `flat_get` and its companions: as long as no `get` meets an entry of another device, the shared cache
  does what the cache over that single device does;
* `devices_isolated`: then each device has a cache of its own.
-/

namespace LemonCore.EasyFs

open Foundation.BorrowProgram

/-! ### The model -/

/-- A cached block, with its device. -/
structure DeviceBlock where
  cache : Block
  blockId : ℕ
  blockDevice : ℕ
  modified : Bool

/-- The cache manager with its `Arc`s, the handles held by callers, and the devices. -/
structure SharedCache where
  queue : List (ℕ × ℕ)
  heap : ℕ → DeviceBlock
  handles : List ℕ
  fresh : ℕ
  devices : ℕ → Disk

namespace SharedCache

/-- An empty cache over some devices. -/
def init (d : ℕ → Disk) : SharedCache := ⟨[], fun _ => ⟨Block.zero, 0, 0, false⟩, [], 0, d⟩

/-- `Arc::strong_count`. -/
def strongCount (s : SharedCache) (p : ℕ) : ℕ := (s.queue.map Prod.snd).count p + s.handles.count p

/-- `BlockCache::sync`: the block is written to the device it was loaded from. -/
def sync (s : SharedCache) (p : ℕ) : SharedCache :=
  if (s.heap p).modified then
    { s with
      heap := Function.update s.heap p { s.heap p with modified := false }
      devices := Function.update s.devices (s.heap p).blockDevice
        (Function.update (s.devices (s.heap p).blockDevice) (s.heap p).blockId (s.heap p).cache) }
  else s

/-- `BlockCache::new` and its push to the queue. -/
def load (s : SharedCache) (b dev : ℕ) : ℕ × SharedCache :=
  (s.fresh,
    { s with
      heap := Function.update s.heap s.fresh ⟨s.devices dev b, b, dev, false⟩
      queue := s.queue ++ [(b, s.fresh)]
      handles := s.fresh :: s.handles
      fresh := s.fresh + 1 })

/-- The first queue entry that nobody but the queue holds. -/
def victim (s : SharedCache) : Option ℕ := s.queue.findIdx? fun e => s.strongCount e.2 = 1

/-- Evict queue entry `i`: it leaves the queue and is dropped. -/
def evict (s : SharedCache) (i : ℕ) : SharedCache :=
  { s with queue := CacheState.swapRemove s.queue i }.sync (s.queue.getD i (0, 0)).2

/-- `BlockCacheManager::get`; the device does not matter for an entry that is in the queue. -/
def get (s : SharedCache) (b dev : ℕ) : Except (Fault Panic) (ℕ × SharedCache) :=
  match s.queue.find? fun e => e.1 = b with
  | some e => .ok (e.2, { s with handles := e.2 :: s.handles })
  | none =>
    if s.queue.length = blockCacheSize then
      match s.victim with
      | some i => .ok ((s.evict i).load b dev)
      | none => .error .outOfSlots
    else .ok (s.load b dev)

/-- `BlockCache::read` through a handle. -/
def read (s : SharedCache) (p : ℕ) : Block := (s.heap p).cache

/-- `BlockCache::modify` through a handle. -/
def modify (s : SharedCache) (p : ℕ) (f : Block → Block) : SharedCache :=
  { s with heap := Function.update s.heap p { s.heap p with cache := f (s.heap p).cache, modified := true } }

/-- Dropping a handle; the cached block itself is dropped with its last owner. -/
def release (s : SharedCache) (p : ℕ) : SharedCache :=
  let s' := { s with handles := s.handles.erase p }
  if s'.strongCount p = 0 then s'.sync p else s'

/-- `block_cache::sync_all`. -/
def syncAll (s : SharedCache) : SharedCache := (s.queue.map Prod.snd).foldl sync s

/-- The cache holds block `b` of no device but `dev`. -/
def Clear (s : SharedCache) (dev b : ℕ) : Prop :=
  ∀ e ∈ s.queue, e.1 = b → (s.heap e.2).blockDevice = dev

end SharedCache

/-! ### Runs -/

/-- What callers do with the cache.  A handle is named by the device and the block it was asked for and
its pointer. -/
inductive SharedEvent where
  | got (dev b p : ℕ)
  | modified (dev b p : ℕ) (f : Block → Block)
  | released (dev b p : ℕ)
  | synced

/-- The handles held after a trace (the latest event first). -/
def heldHandles : List SharedEvent → List (ℕ × ℕ × ℕ)
  | [] => []
  | .got dev b p :: tr => (dev, b, p) :: heldHandles tr
  | .released dev b p :: tr => (heldHandles tr).erase (dev, b, p)
  | _ :: tr => heldHandles tr

/-- The runs over devices with contents `d`: handles are used while they are held, in any order; `ok`
says which block of which device may be got in a state. -/
inductive SharedRun (ok : SharedCache → ℕ → ℕ → Prop) (d : ℕ → Disk) :
    List SharedEvent → SharedCache → Prop
  | init : SharedRun ok d [] (.init d)
  | get {tr s s' dev b p} : SharedRun ok d tr s → ok s dev b → s.get b dev = .ok (p, s') →
      SharedRun ok d (.got dev b p :: tr) s'
  | modify {tr s dev b p f} : SharedRun ok d tr s → (dev, b, p) ∈ heldHandles tr →
      SharedRun ok d (.modified dev b p f :: tr) (s.modify p f)
  | release {tr s dev b p} : SharedRun ok d tr s → (dev, b, p) ∈ heldHandles tr →
      SharedRun ok d (.released dev b p :: tr) (s.release p)
  | sync {tr s} : SharedRun ok d tr s → SharedRun ok d (.synced :: tr) s.syncAll

/-- What the operations on device `dev` write, the latest first. -/
def writesOn (dev : ℕ) : List SharedEvent → List (ℕ × (Block → Block))
  | [] => []
  | .modified dev' b _ f :: tr => if dev' = dev then (b, f) :: writesOn dev tr else writesOn dev tr
  | _ :: tr => writesOn dev tr

/-- A device after a list of writes. -/
def written (d : Disk) : List (ℕ × (Block → Block)) → Disk
  | [] => d
  | (b, f) :: ws => Function.update (written d ws) b (f (written d ws b))

/-! ### The cache over a single device -/

namespace SharedCache

/-- A cached block, numbered on the single device. -/
def flatBlock (x : DeviceBlock) : BlockCache := ⟨x.cache, Nat.pair x.blockDevice x.blockId, x.modified⟩

/-- A queue entry, numbered on the single device. -/
def flatEntry (s : SharedCache) (e : ℕ × ℕ) : ℕ × ℕ := (Nat.pair (s.heap e.2).blockDevice e.1, e.2)

/-- The devices as one. -/
def flatDisk (d : ℕ → Disk) : Disk := fun n => d n.unpair.1 n.unpair.2

def flat (s : SharedCache) : CacheState where
  queue := s.queue.map s.flatEntry
  heap p := flatBlock (s.heap p)
  handles := s.handles
  fresh := s.fresh
  device := flatDisk s.devices

variable {s s' : SharedCache} {dev b p : ℕ}

theorem flatDisk_pair (d : ℕ → Disk) (dev b : ℕ) : flatDisk d (Nat.pair dev b) = d dev b := by
  rw [flatDisk, Nat.unpair_pair]

theorem flatDisk_update (d : ℕ → Disk) (dev b : ℕ) (x : Block) :
    flatDisk (Function.update d dev (Function.update (d dev) b x)) =
      Function.update (flatDisk d) (Nat.pair dev b) x := by
  funext n
  rw [flatDisk]
  by_cases hn : n = Nat.pair dev b
  · subst hn
    rw [Nat.unpair_pair, Function.update_self, Function.update_self, Function.update_self]
  · rw [Function.update_of_ne hn, flatDisk]
    by_cases hdev : n.unpair.1 = dev
    · have hb : n.unpair.2 ≠ b := by
        intro hb
        exact hn (by rw [← hdev, ← hb, Nat.pair_unpair])
      rw [hdev, Function.update_self, Function.update_of_ne hb]
    · rw [Function.update_of_ne hdev]

theorem flat_strongCount (s : SharedCache) (p : ℕ) : s.flat.strongCount p = s.strongCount p := by
  have hmap : s.flat.queue.map Prod.snd = s.queue.map Prod.snd := by
    show (s.queue.map s.flatEntry).map Prod.snd = _
    rw [List.map_map]
    rfl
  rw [CacheState.strongCount, hmap]
  rfl

theorem flatEntry_congr (h : ∀ q, (s'.heap q).blockDevice = (s.heap q).blockDevice) :
    s'.flatEntry = s.flatEntry := by
  funext e
  rw [flatEntry, flatEntry, h]

theorem blockDevice_update (s : SharedCache) (p : ℕ) (x : DeviceBlock)
    (hx : x.blockDevice = (s.heap p).blockDevice) (q : ℕ) :
    (Function.update s.heap p x q).blockDevice = (s.heap q).blockDevice := by
  by_cases hq : q = p
  · rw [hq, Function.update_self, hx]
  · rw [Function.update_of_ne hq]

theorem sync_queue (s : SharedCache) (p : ℕ) : (s.sync p).queue = s.queue := by
  rw [sync]
  split <;> rfl

theorem sync_fresh (s : SharedCache) (p : ℕ) : (s.sync p).fresh = s.fresh := by
  rw [sync]
  split <;> rfl

theorem sync_blockDevice (s : SharedCache) (p q : ℕ) :
    ((s.sync p).heap q).blockDevice = (s.heap q).blockDevice := by
  rw [sync]
  split
  · exact blockDevice_update s p { s.heap p with modified := false } rfl q
  · rfl

theorem modify_blockDevice (s : SharedCache) (p : ℕ) (f : Block → Block) (q : ℕ) :
    ((s.modify p f).heap q).blockDevice = (s.heap q).blockDevice :=
  blockDevice_update s p { s.heap p with cache := f (s.heap p).cache, modified := true } rfl q

theorem flatBlock_update (s : SharedCache) (p : ℕ) (x : DeviceBlock) :
    (fun q => flatBlock (Function.update s.heap p x q)) = Function.update s.flat.heap p (flatBlock x) := by
  funext q
  by_cases hq : q = p
  · rw [hq, Function.update_self, Function.update_self]
  · rw [Function.update_of_ne hq, Function.update_of_ne hq]
    rfl

theorem flat_sync (s : SharedCache) (p : ℕ) : (s.sync p).flat = s.flat.sync p := by
  rw [flat, flatEntry_congr (sync_blockDevice s p), sync, CacheState.sync]
  by_cases hm : (s.heap p).modified = true
  · have hm' : (s.flat.heap p).modified = true := hm
    rw [if_pos hm, if_pos hm']
    congr 1
    · exact flatBlock_update s p _
    · exact flatDisk_update s.devices _ _ _
  · have hm' : ¬ (s.flat.heap p).modified = true := hm
    rw [if_neg hm, if_neg hm']
    rfl

theorem flat_modify (s : SharedCache) (p : ℕ) (f : Block → Block) :
    (s.modify p f).flat = s.flat.modify p f := by
  rw [flat, flatEntry_congr (modify_blockDevice s p f), modify, CacheState.modify]
  congr 1
  exact flatBlock_update s p _

theorem flat_foldl_sync (l : List ℕ) : ∀ s : SharedCache,
    (l.foldl sync s).flat = l.foldl CacheState.sync s.flat := by
  induction l with
  | nil => exact fun s => rfl
  | cons p l ih =>
    intro s
    rw [List.foldl_cons, List.foldl_cons, ih, flat_sync]

theorem flat_syncAll (s : SharedCache) : s.syncAll.flat = s.flat.syncAll := by
  have hmap : s.flat.queue.map Prod.snd = s.queue.map Prod.snd := by
    show (s.queue.map s.flatEntry).map Prod.snd = _
    rw [List.map_map]
    rfl
  rw [syncAll, flat_foldl_sync, CacheState.syncAll, hmap]

theorem flat_release (s : SharedCache) (p : ℕ) : (s.release p).flat = s.flat.release p := by
  have hcount := flat_strongCount { s with handles := s.handles.erase p } p
  rw [release, CacheState.release]
  by_cases hzero : ({ s with handles := s.handles.erase p } : SharedCache).strongCount p = 0
  · rw [if_pos hzero, flat_sync]
    exact (if_pos (hcount.trans hzero)).symm
  · rw [if_neg hzero]
    exact (if_neg (hcount ▸ hzero)).symm

theorem flat_load (hfresh : ∀ e ∈ s.queue, e.2 < s.fresh) :
    s.flat.load (Nat.pair dev b) = ((s.load b dev).1, (s.load b dev).2.flat) := by
  have hqueue : s.queue.map s.flatEntry ++ [(Nat.pair dev b, s.fresh)] =
      (s.load b dev).2.queue.map (s.load b dev).2.flatEntry := by
    show _ = (s.queue ++ [(b, s.fresh)]).map _
    rw [List.map_append]
    congr 1
    · apply List.map_congr_left
      intro e he
      show s.flatEntry e = (Nat.pair (Function.update s.heap s.fresh _ e.2).blockDevice e.1, e.2)
      rw [Function.update_of_ne (Nat.ne_of_lt (hfresh e he))]
      rfl
    · show _ = [(Nat.pair (Function.update s.heap s.fresh _ s.fresh).blockDevice b, s.fresh)]
      rw [Function.update_self]
  have hheap : Function.update s.flat.heap s.fresh ⟨s.devices dev b, Nat.pair dev b, false⟩ =
      fun q => flatBlock ((s.load b dev).2.heap q) :=
    (flatBlock_update s s.fresh ⟨s.devices dev b, b, dev, false⟩).symm
  rw [CacheState.load, show s.flat.device (Nat.pair dev b) = s.devices dev b from flatDisk_pair _ _ _]
  show (s.fresh, (⟨s.queue.map s.flatEntry ++ [(Nat.pair dev b, s.fresh)], Function.update s.flat.heap
    s.fresh ⟨s.devices dev b, Nat.pair dev b, false⟩, s.fresh :: s.handles, s.fresh + 1,
    flatDisk s.devices⟩ : CacheState)) = _
  rw [hqueue, hheap]
  rfl

theorem flat_victim (s : SharedCache) : s.flat.victim = s.victim := by
  show (s.queue.map s.flatEntry).findIdx? _ = _
  rw [List.findIdx?_map, victim]
  congr 1
  funext e
  show decide (s.flat.strongCount e.2 = 1) = _
  rw [flat_strongCount]

theorem swapRemove_map (f : ℕ × ℕ → ℕ × ℕ) (l : List (ℕ × ℕ)) (i : ℕ) :
    CacheState.swapRemove (l.map f) i = (CacheState.swapRemove l i).map f := by
  rw [CacheState.swapRemove, CacheState.swapRemove, List.map_dropLast, List.map_set]
  rcases List.eq_nil_or_concat l with hl | ⟨l', a, hl⟩
  · rw [hl]
    rfl
  · rw [hl, List.concat_eq_append, List.map_append, List.map_singleton, List.getLastD_concat,
      List.getLastD_concat]

theorem flat_evict {i : ℕ} (hi : i < s.queue.length) : (s.evict i).flat = s.flat.evict i := by
  have hget : (s.flat.queue.getD i (0, 0)).2 = (s.queue.getD i (0, 0)).2 := by
    have hi' : i < (s.queue.map s.flatEntry).length := by rwa [List.length_map]
    show ((s.queue.map s.flatEntry).getD i (0, 0)).2 = _
    rw [List.getD_eq_getElem _ _ hi', List.getD_eq_getElem _ _ hi, List.getElem_map]
    rfl
  rw [evict, flat_sync, CacheState.evict, hget]
  congr 1
  show flat _ = _
  rw [flat]
  congr 1
  exact (swapRemove_map s.flatEntry s.queue i).symm

/-- **Getting a block** that the cache holds of no other device is getting it from the single device. -/
theorem flat_get (hfresh : ∀ e ∈ s.queue, e.2 < s.fresh) (hclear : s.Clear dev b)
    (hget : s.get b dev = .ok (p, s')) : s.flat.get (Nat.pair dev b) = .ok (p, s'.flat) := by
  have hfind : s.flat.queue.find? (fun e => e.1 = Nat.pair dev b) =
      (s.queue.find? fun e => e.1 = b).map s.flatEntry := by
    show (s.queue.map s.flatEntry).find? _ = _
    rw [List.find?_map]
    congr 1
    apply List.find?_congr
    intro e he
    show decide (Nat.pair (s.heap e.2).blockDevice e.1 = Nat.pair dev b) = decide (e.1 = b)
    rw [decide_eq_decide, Nat.pair_eq_pair]
    exact ⟨fun h => h.2, fun h => ⟨hclear e he h, h⟩⟩
  have hlen : s.flat.queue.length = s.queue.length := List.length_map _
  rw [get] at hget
  rw [CacheState.get, hfind]
  cases hf : s.queue.find? fun e => e.1 = b with
  | some e =>
    rw [hf] at hget
    cases hget
    rfl
  | none =>
    rw [hf] at hget
    rw [Option.map_none, hlen]
    by_cases hfull : s.queue.length = blockCacheSize
    · simp only [if_pos hfull] at hget ⊢
      rw [flat_victim]
      cases hv : s.victim with
      | none =>
        rw [hv] at hget
        cases hget
      | some i =>
        rw [hv] at hget
        cases hget
        obtain ⟨hi, _⟩ := List.findIdx?_eq_some_iff_getElem.mp hv
        have hfresh' : ∀ e ∈ (s.evict i).queue, e.2 < (s.evict i).fresh := by
          intro e he
          rw [evict, sync_fresh]
          rw [evict, sync_queue] at he
          exact hfresh e ((swapRemove_perm s.queue i hi).mem_iff.mp (List.mem_cons_of_mem _ he))
        show Except.ok ((s.flat.evict i).load (Nat.pair dev b)) = _
        rw [← flat_evict hi, flat_load hfresh']
        rfl
    · simp only [if_neg hfull] at hget ⊢
      cases hget
      rw [flat_load hfresh]
      rfl

theorem get_cases (hget : s.get b dev = .ok (p, s')) :
    (∃ e ∈ s.queue, e.1 = b ∧ p = e.2 ∧ s' = { s with handles := e.2 :: s.handles }) ∨
    (b ∉ s.queue.map Prod.fst ∧ ∃ t : SharedCache, (∀ e ∈ t.queue, e ∈ s.queue) ∧
      ((s.queue.map Prod.fst).Nodup → (t.queue.map Prod.fst).Nodup) ∧ t.load b dev = (p, s')) := by
  rw [get] at hget
  cases hf : s.queue.find? fun e => e.1 = b with
  | some e =>
    rw [hf] at hget
    cases hget
    exact Or.inl ⟨e, List.mem_of_find?_eq_some hf, by simpa using List.find?_some hf, rfl, rfl⟩
  | none =>
    rw [hf] at hget
    refine Or.inr ⟨?_, ?_⟩
    · intro hmem
      obtain ⟨e, he, hbe⟩ := List.mem_map.mp hmem
      have hno := List.find?_eq_none.mp hf e he
      simp [hbe] at hno
    by_cases hfull : s.queue.length = blockCacheSize
    · simp only [if_pos hfull] at hget
      cases hv : s.victim with
      | none =>
        rw [hv] at hget
        cases hget
      | some i =>
        rw [hv] at hget
        obtain ⟨hi, _⟩ := List.findIdx?_eq_some_iff_getElem.mp hv
        have hperm := swapRemove_perm s.queue i hi
        have hqueue : (s.evict i).queue = CacheState.swapRemove s.queue i := sync_queue _ _
        refine ⟨s.evict i, ?_, ?_, Except.ok.inj hget⟩
        · rw [hqueue]
          exact fun e he => hperm.mem_iff.mp (List.mem_cons_of_mem _ he)
        · intro hnd
          rw [hqueue]
          have hnd' := (hperm.map Prod.fst).nodup_iff.mpr hnd
          rw [List.map_cons] at hnd'
          exact hnd'.of_cons
    · simp only [if_neg hfull] at hget
      exact ⟨s, fun e he => he, fun hnd => hnd, Except.ok.inj hget⟩

/-- A handle is for the device it was asked for exactly when the cache held the block of no other
device. -/
theorem blockDevice_get (hnd : (s.queue.map Prod.fst).Nodup) (hget : s.get b dev = .ok (p, s')) :
    (s'.heap p).blockDevice = dev ↔ s.Clear dev b := by
  rcases get_cases hget with ⟨e, he, heb, hp, hs'⟩ | ⟨hb, t, _, _, hload⟩
  · subst hp hs'
    constructor
    · intro hdev e' he' hb'
      have heq : e' = e := List.inj_on_of_nodup_map hnd he' he (hb'.trans heb.symm)
      rw [heq]
      exact hdev
    · exact fun hclear => hclear e he heb
  · cases hload
    refine iff_of_true ?_ fun e he heb => absurd (List.mem_map.mpr ⟨e, he, heb⟩) hb
    show (Function.update t.heap t.fresh _ t.fresh).blockDevice = dev
    rw [Function.update_self]

theorem foldl_sync_queue (l : List ℕ) : ∀ s : SharedCache, (l.foldl sync s).queue = s.queue := by
  induction l with
  | nil => exact fun s => rfl
  | cons p l ih =>
    intro s
    rw [List.foldl_cons, ih, sync_queue]

theorem release_queue (s : SharedCache) (p : ℕ) : (s.release p).queue = s.queue := by
  show (if _ then _ else _ : SharedCache).queue = _
  split
  · rw [sync_queue]
  · rfl

end SharedCache

/-! ### Isolation -/

open SharedCache (flatDisk)

variable {ok : SharedCache → ℕ → ℕ → Prop} {d : ℕ → Disk} {tr : List SharedEvent} {s : SharedCache}

theorem SharedRun.ids_nodup (h : SharedRun ok d tr s) : (s.queue.map Prod.fst).Nodup := by
  induction h with
  | init => exact List.nodup_nil
  | get _ _ hget ih =>
    rcases SharedCache.get_cases hget with ⟨e, _, _, _, hs'⟩ | ⟨hb, t, hsub, hnd, hload⟩
    · rw [hs']
      exact ih
    · cases hload
      show ((t.queue ++ [(_, t.fresh)]).map Prod.fst).Nodup
      rw [List.map_append, List.map_singleton]
      refine (hnd ih).append (List.nodup_singleton _) ?_
      intro x hx hx'
      obtain ⟨e, he, heq⟩ := List.mem_map.mp hx
      rw [List.mem_singleton.mp hx'] at heq
      exact hb (List.mem_map.mpr ⟨e, hsub e he, heq⟩)
  | modify _ _ ih => exact ih
  | release _ _ ih =>
    rw [SharedCache.release_queue]
    exact ih
  | sync _ ih =>
    rw [SharedCache.syncAll, SharedCache.foldl_sync_queue]
    exact ih

/-- The event on the single device. -/
def SharedEvent.flat : SharedEvent → CacheEvent
  | .got dev b p => .got (Nat.pair dev b) p
  | .modified dev b p f => .modified (Nat.pair dev b) p f
  | .released dev b p => .released (Nat.pair dev b) p
  | .synced => .synced

/-- A handle on the single device. -/
def flatHandle (h : ℕ × ℕ × ℕ) : ℕ × ℕ := (Nat.pair h.1 h.2.1, h.2.2)

theorem flatHandle_injective : Function.Injective flatHandle := by
  rintro ⟨dev, b, p⟩ ⟨dev', b', p'⟩ heq
  obtain ⟨hpair, hp⟩ := Prod.mk.inj heq
  obtain ⟨hdev, hb⟩ := Nat.pair_eq_pair.mp hpair
  have hp : p = p' := hp
  have hdev : dev = dev' := hdev
  have hb : b = b' := hb
  rw [hdev, hb, hp]

theorem heldAfter_flat (tr : List SharedEvent) :
    heldAfter (tr.map SharedEvent.flat) = (heldHandles tr).map flatHandle := by
  induction tr with
  | nil => rfl
  | cons e tr ih =>
    cases e with
    | got dev b p =>
      show (Nat.pair dev b, p) :: heldAfter (tr.map SharedEvent.flat) = _
      rw [ih]
      rfl
    | modified dev b p f => exact ih
    | released dev b p =>
      show (heldAfter (tr.map SharedEvent.flat)).erase (flatHandle (dev, b, p)) =
        ((heldHandles tr).erase (dev, b, p)).map flatHandle
      rw [ih, List.map_erase flatHandle_injective]
    | synced => exact ih

/-- What a block of the single device holds depends on the writes to its own device only. -/
theorem contentAfter_flat (tr : List SharedEvent) (dev b : ℕ) :
    contentAfter (flatDisk d) (tr.map SharedEvent.flat) (Nat.pair dev b) =
      written (d dev) (writesOn dev tr) b := by
  induction tr generalizing b with
  | nil => exact SharedCache.flatDisk_pair d dev b
  | cons e tr ih =>
    cases e with
    | got dev' b' p => exact ih b
    | released dev' b' p => exact ih b
    | synced => exact ih b
    | modified dev' b' p f =>
      show Function.update (contentAfter (flatDisk d) (tr.map SharedEvent.flat)) (Nat.pair dev' b') _ _ = _
      rw [writesOn]
      by_cases hdev : dev' = dev
      · subst hdev
        rw [if_pos rfl, written]
        by_cases hb : b = b'
        · rw [hb, Function.update_self, Function.update_self, ih]
        · have hne : Nat.pair dev' b ≠ Nat.pair dev' b' := fun heq => hb (Nat.pair_eq_pair.mp heq).2
          rw [Function.update_of_ne hne, Function.update_of_ne hb, ih]
      · have hne : Nat.pair dev b ≠ Nat.pair dev' b' := fun heq => hdev (Nat.pair_eq_pair.mp heq).1.symm
        rw [if_neg hdev, Function.update_of_ne hne, ih]

/-- **Refinement.**  A run in which no `get` meets an entry of another device is a run of the cache
over the single device. -/
theorem SharedRun.inv (h : SharedRun SharedCache.Clear d tr s) :
    CacheInv s.flat (contentAfter (flatDisk d) (tr.map SharedEvent.flat))
      (heldAfter (tr.map SharedEvent.flat)) := by
  induction h with
  | init => exact CacheInv.init (flatDisk d)
  | get _ hclear hget ih =>
    refine ih.of_get (SharedCache.flat_get ?_ hclear hget)
    exact fun e he => (ih.entry _ (List.mem_map_of_mem he)).2
  | modify _ hh ih =>
    rw [SharedCache.flat_modify]
    refine ih.modify ?_ _
    rw [heldAfter_flat]
    exact List.mem_map_of_mem hh
  | release _ hh ih =>
    rw [SharedCache.flat_release]
    refine ih.release ?_
    rw [heldAfter_flat]
    exact List.mem_map_of_mem hh
  | sync _ ih =>
    rw [SharedCache.flat_syncAll]
    exact ih.syncAll

/-- **Devices are isolated** while no `get` meets an entry of another device: each handle reads what
the operations on its device wrote, and that is what `sync_all` leaves on the device.  A `get` that
meets an entry of another device returns that entry. -/
theorem devices_isolated (h : SharedRun SharedCache.Clear d tr s) :
    (∀ dev b p, (dev, b, p) ∈ heldHandles tr → s.read p = written (d dev) (writesOn dev tr) b) ∧
    (∀ dev, s.syncAll.devices dev = written (d dev) (writesOn dev tr)) ∧
    ∀ dev b p s', s.get b dev = .ok (p, s') → ((s'.heap p).blockDevice = dev ↔ s.Clear dev b) := by
  have hinv := h.inv
  refine ⟨?_, ?_, fun dev b p s' hget => SharedCache.blockDevice_get h.ids_nodup hget⟩
  · intro dev b p hh
    rw [← contentAfter_flat]
    have hmem : flatHandle (dev, b, p) ∈ heldAfter (tr.map SharedEvent.flat) := by
      rw [heldAfter_flat]
      exact List.mem_map_of_mem hh
    exact hinv.cached _ (hinv.held _ hmem)
  · intro dev
    funext b
    have hdev := hinv.syncAll.device_eq (syncAll_modified s.flat)
    rw [← contentAfter_flat, ← hdev, ← SharedCache.flat_syncAll]
    exact (SharedCache.flatDisk_pair s.syncAll.devices dev b).symm

/-- Block 3 of device 0 and block 4 of device 1, with one write to each. -/
theorem devices_isolated_two_blocks : ∃ s,
    SharedRun SharedCache.Clear (fun _ _ => Block.zero)
      [.modified 1 4 1 (fun _ _ => 2), .got 1 4 1, .modified 0 3 0 (fun _ _ => 1), .got 0 3 0] s ∧
    s.syncAll.devices 0 = Function.update (fun _ => Block.zero) 3 (fun _ => 1) ∧
    s.syncAll.devices 1 = Function.update (fun _ => Block.zero) 4 (fun _ => 2) := by
  have h1 : SharedRun SharedCache.Clear (fun _ _ => Block.zero) [.got 0 3 0] _ :=
    .get .init (fun e he => absurd he List.not_mem_nil) rfl
  have h2 := h1.modify (f := fun _ _ => 1) List.mem_cons_self
  have h3 : SharedRun SharedCache.Clear (fun _ _ => Block.zero)
      [.got 1 4 1, .modified 0 3 0 (fun _ _ => 1), .got 0 3 0] _ :=
    h2.get (fun e he heq => absurd ((congrArg Prod.fst (List.mem_singleton.mp he)).symm.trans heq)
      (by decide)) rfl
  have h4 := h3.modify (f := fun _ _ => 2) List.mem_cons_self
  exact ⟨_, h4, (devices_isolated h4).2.1 0, (devices_isolated h4).2.1 1⟩

/-- Block 3 of device 0 is cached when block 3 of device 1 is written: the write goes to device 0, and
device 1 stays as it was. -/
theorem write_to_other_device : ∃ s,
    SharedRun (fun _ _ _ => True) (fun _ _ => Block.zero)
      [.modified 1 3 0 (fun _ _ => 1), .got 1 3 0, .got 0 3 0] s ∧
    s.syncAll.devices 0 3 = (fun _ => 1) ∧ s.syncAll.devices 1 3 = Block.zero ∧
    Block.zero ≠ (fun _ => 1 : Block) := by
  have h1 : SharedRun (fun _ _ _ => True) (fun _ _ => Block.zero) [.got 0 3 0] _ :=
    .get .init trivial rfl
  have h2 : SharedRun (fun _ _ _ => True) (fun _ _ => Block.zero) [.got 1 3 0, .got 0 3 0] _ :=
    h1.get trivial rfl
  have h3 := h2.modify (f := fun _ _ => 1) List.mem_cons_self
  refine ⟨_, h3, rfl, rfl, ?_⟩
  intro heq
  exact absurd (congrFun heq 0) (by decide)

end LemonCore.EasyFs
