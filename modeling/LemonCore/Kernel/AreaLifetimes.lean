import LemonCore.Kernel.Cloning

/-!
# The frames of areas, from allocation to release

Areas are in the `MemorySet`, the frames behind their pages in its `PageTable` (`mm/memory_set.rs`,
`mm/page_table.rs`).

* `DataPages`: the frames are recorded for pages of framed areas only;
* `recycle_data_pages_iff`: `recycle_data_pages` clears the list of areas and nothing else, so the frames are
  given back exactly if there are none;
* `Phys.Trace`: the calls of `alloc` and `dealloc` that lead from one state of the memory to another;
* `Allocating`: functions that map pages hand every frame they allocate to the page table;
* `Life`: a memory set from `new_bare` on, with the calls of `alloc` and `dealloc` made for it;
* `area_life`: an area that is inserted and removed leaves no trace but tables, and over the whole life every
  frame is deallocated as often as it was allocated.
-/

namespace LemonCore.Kernel.Mm

open Foundation.SharedHeap

/-! ### Frames and framed areas -/

namespace MemorySet

variable {L : Layout} {ms ms' : MemorySet} {p p' : Phys} {forgotten : List MapArea}

/-- The frames are recorded for pages of framed areas. -/
def DataPages (ms : MemorySet) (forgotten : List MapArea) : Prop :=
  ∀ e ∈ ms.pageTable.dataFrames, ∃ area ∈ ms.areas ++ forgotten, area.mapType = .framed ∧
    area.zone.Contains e.1

theorem DataPages.push {area : MapArea} {pt : PageTable} (hd : ms.DataPages forgotten)
    (hi : ms.Inv L p forgotten) (h : area.map (ms.pageTable, p) = some (pt, p')) :
    (⟨pt, ms.areas ++ [area]⟩ : MemorySet).DataPages forgotten := by
  intro e he
  by_cases hin : area.zone.Contains e.1
  · refine ⟨area, by simp, ?_, hin⟩
    -- a page that is mapped in another way has no record
    have hb := (hi.map h).1.backed area.zone List.mem_cons_self e.1 hin
    cases hty : area.mapType with
    | framed => rfl
    | identical =>
      rw [MapArea.zone, hty] at hb
      exact absurd he (hb.2 e.2)
    | linear off =>
      rw [MapArea.zone, hty] at hb
      exact absurd he (hb.2 e.2)
  · obtain ⟨a, ha, hframed⟩ := hd e (((MapArea.map_mapped hi.sound h).data e hin).mp he)
    refine ⟨a, ?_, hframed⟩
    rcases List.mem_append.mp ha with ha | ha
    · exact List.mem_append_left _ (List.mem_append_left _ ha)
    · exact List.mem_append_right _ ha

theorem DataPages.remove {startVpn : ℕ} (hd : ms.DataPages forgotten) (hi : ms.Inv L p forgotten)
    (h : ms.removeAreaWithStartVpn p startVpn = some (ms', p')) : ms'.DataPages forgotten := by
  rcases removeAreaWithStartVpn_inv h with ⟨rfl, rfl, -⟩ | ⟨area, -, hun, hperm⟩
  · exact hd
  · have hunmapped := MapArea.unmapped_of_unmap (hi.perm (zones_perm hperm forgotten)) hun
    intro e he
    obtain ⟨hold, hout⟩ := (hunmapped.data e).mp he
    obtain ⟨a, ha, hframed, hin⟩ := hd e hold
    refine ⟨a, ?_, hframed, hin⟩
    rcases List.mem_append.mp ha with ha | ha
    · rcases List.mem_cons.mp (hperm.mem_iff.mp ha) with rfl | ha
      · exact absurd hin hout
      · exact List.mem_append_left _ ha
    · exact List.mem_append_right _ ha

theorem Built.dataPages (h : Built L ms forgotten p) : ms.DataPages forgotten := by
  induction h with
  | newBare hnew =>
    obtain ⟨⟨pt, p₁⟩, hpt, heq⟩ := Option.bind_eq_some_iff.mp hnew
    cases heq
    intro e he
    rw [(PageTable.new_spec hpt).2.1] at he
    exact absurd he List.not_mem_nil
  | mapTrampoline hbuilt _ hmap ih =>
    obtain ⟨⟨pt, p₁⟩, hpt, heq⟩ := Option.bind_eq_some_iff.mp hmap
    cases heq
    obtain ⟨_, hw⟩ := PageTable.map_spec hbuilt.formed.1.sound.toTables (by decide) hpt
    intro e he
    exact ih e (hw.dataFrames ▸ he)
  | push hbuilt hpush ih =>
    obtain ⟨hmap, heq⟩ := push_inv hpush
    rw [heq]
    exact ih.push hbuilt.formed.1 hmap
  | pushData hbuilt hfr hpush ih =>
    obtain ⟨pt, p₁, hmap, _, rfl, _⟩ := push_data_inv hfr hpush
    exact ih.push hbuilt.formed.1 hmap
  | removeArea hbuilt hremove ih => exact ih.remove hbuilt.formed.1 hremove
  | recycleDataPages _ ih => exact ih
  | other _ _ _ ih => exact ih

/-! ### Recycling -/

/-- What `recycle_data_pages` is to achieve: the frames behind framed areas are given back, and frames are
recorded exactly for the pages of the framed areas that are left.  The call does not touch the memory. -/
def Recycled (ms : MemorySet) (p : Phys) : Prop :=
  (∀ area ∈ ms.areas, area.mapType = .framed → ∀ v f, area.zone.Contains v →
    (v, f) ∈ ms.pageTable.dataFrames → ¬ p.allocator.Allocated f) ∧
  ∀ v, (∃ f, (v, f) ∈ ms.recycleDataPages.pageTable.dataFrames) ↔
    ∃ area ∈ ms.recycleDataPages.areas, area.mapType = .framed ∧ area.zone.Contains v

theorem recycled_iff : Recycled ms p ↔ ms.pageTable.dataFrames = [] := by
  constructor
  · rintro ⟨_, hpages⟩
    rw [List.eq_nil_iff_forall_not_mem]
    rintro ⟨v, f⟩ he
    obtain ⟨area, harea, _⟩ := (hpages v).mp ⟨f, he⟩
    exact absurd harea List.not_mem_nil
  · intro hnone
    constructor
    · intro area _ _ v f _ he
      rw [hnone] at he
      exact absurd he List.not_mem_nil
    · intro v
      constructor
      · rintro ⟨f, he⟩
        rw [recycleDataPages, hnone] at he
        exact absurd he List.not_mem_nil
      · rintro ⟨area, harea, _⟩
        exact absurd harea List.not_mem_nil

theorem dataFrames_eq_nil_iff (h : Built L ms [] p) : ms.pageTable.dataFrames = [] ↔
    ∀ area ∈ ms.areas, area.mapType = .framed → ∀ v, ¬ area.zone.Contains v := by
  constructor
  · intro hnone area ha hty v hv
    have hmem : area.zone ∈ ms.zones [] := List.mem_map_of_mem (List.mem_append_left _ ha)
    have hb := h.formed.1.backed area.zone hmem v hv
    rw [MapArea.zone, hty] at hb
    obtain ⟨f, hf⟩ := hb
    rw [hnone] at hf
    exact absurd hf List.not_mem_nil
  · intro hempty
    rw [List.eq_nil_iff_forall_not_mem]
    intro e he
    obtain ⟨area, ha, hty, hin⟩ := h.dataPages e he
    rw [List.append_nil] at ha
    exact hempty area ha hty e.1 hin

/-- **`recycle_data_pages` gives the frames back exactly if there are none.**  In a memory set that was built
by the functions of `mm/memory_set.rs` and not recycled before, that is the case exactly if no framed area
has a page. -/
theorem recycle_data_pages_iff (ms : MemorySet) (p : Phys) :
    (Recycled ms p ↔ ms.pageTable.dataFrames = []) ∧
    ∀ L, Built L ms [] p → (Recycled ms p ↔
      ∀ area ∈ ms.areas, area.mapType = .framed → ∀ v, ¬ area.zone.Contains v) :=
  ⟨recycled_iff, fun _ h => recycled_iff.trans (dataFrames_eq_nil_iff h)⟩

/-- A set with the trampoline and one identically mapped page has no frames to give back. -/
theorem recycle_data_pages_identical : ∃ ms p, Built sampleLayout ms [] p ∧
    ms.areas = [sampleIdentical] ∧ Recycled ms p := by
  have hset : ∃ x, sampleSet sampleFilled [sampleIdentical] = some x :=
    Option.isSome_iff_exists.mp (by decide +kernel)
  obtain ⟨⟨ms, p⟩, hx⟩ := hset
  obtain ⟨hb, hareas⟩ := sampleSet_built hx
  refine ⟨ms, p, hb, hareas, ?_⟩
  apply ((recycle_data_pages_iff ms p).2 sampleLayout hb).mpr
  intro area ha hty
  rw [hareas, List.mem_singleton] at ha
  rw [ha] at hty
  cases hty

/-- The frame behind a framed page is recorded and allocated after the call. -/
theorem recycled_page_keeps_frame : ∃ ms p f, Built sampleLayout ms [] p ∧ ms.areas = [sampleFramed] ∧
    ms.recycleDataPages.areas = [] ∧ (16, f) ∈ ms.recycleDataPages.pageTable.dataFrames ∧
    p.allocator.Allocated f ∧ ¬ Recycled ms p := by
  have hset : ∃ x, sampleSet sampleFilled [sampleFramed] = some x :=
    Option.isSome_iff_exists.mp (by decide +kernel)
  obtain ⟨⟨ms, p⟩, hx⟩ := hset
  obtain ⟨hb, hareas⟩ := sampleSet_built hx
  have hmem : sampleFramed.zone ∈ ms.zones [] := by simp [zones, hareas]
  obtain ⟨f, hf⟩ : ∃ f, (16, f) ∈ ms.pageTable.dataFrames :=
    hb.formed.1.backed sampleFramed.zone hmem 16 ⟨by decide, by decide⟩
  refine ⟨ms, p, f, hb, hareas, rfl, hf, hb.formed.1.sound.allocated f (PageTable.data_mem hf), ?_⟩
  intro hrecycled
  rw [recycled_iff.mp hrecycled] at hf
  exact absurd hf List.not_mem_nil

end MemorySet

/-! ### Allocations and deallocations -/

inductive FrameEvent where
  | alloc (frame : ℕ)
  | dealloc (frame : ℕ)
  deriving DecidableEq, Repr

/-- The calls of `alloc` and `dealloc` on the way from one state of the memory to another.  Writes are not
recorded. -/
inductive Phys.Trace : Phys → List FrameEvent → Phys → Prop
  | nil {p : Phys} : Trace p [] p
  | alloc {p p₁ p' : Phys} {f : ℕ} {events : List FrameEvent} : p.alloc = some (f, p₁) →
      Trace p₁ events p' → Trace p (.alloc f :: events) p'
  | dealloc {p p₁ p' : Phys} {f : ℕ} {events : List FrameEvent} : p.dealloc f = some p₁ →
      Trace p₁ events p' → Trace p (.dealloc f :: events) p'
  | write {p p₁ p' : Phys} {events : List FrameEvent} : p₁.allocator = p.allocator →
      Trace p₁ events p' → Trace p events p'

namespace Phys

variable {p p' p'' : Phys} {events events' : List FrameEvent}

theorem Trace.append (h₁ : p.Trace events p') (h₂ : p'.Trace events' p'') :
    p.Trace (events ++ events') p'' := by
  induction h₁ with
  | nil => exact h₂
  | alloc ha _ ih => exact .alloc ha (ih h₂)
  | dealloc hd _ ih => exact .dealloc hd (ih h₂)
  | write hw _ ih => exact .write hw (ih h₂)

/-- A frame is allocated once more than it is deallocated if it comes into use, and once less if it goes
out of use. -/
theorem Trace.count (h : p.Trace events p') (f : ℕ) :
    events.count (.alloc f) + (if p.allocator.Allocated f then 1 else 0) =
      events.count (.dealloc f) + if p'.allocator.Allocated f then 1 else 0 := by
  induction h with
  | nil => rfl
  | @alloc p p₁ p' g events ha _ ih =>
    obtain ⟨hnew, _, hal, _⟩ := Phys.alloc_spec ha
    have hother : (FrameEvent.alloc g :: events).count (.dealloc f) = events.count (.dealloc f) :=
      List.count_cons_of_ne (by simp)
    rw [hother]
    by_cases hfg : g = f
    · subst hfg
      rw [if_pos ((hal g).mpr (Or.inr rfl))] at ih
      rw [List.count_cons_self, if_neg hnew]
      exact ih
    · have hiff : p₁.allocator.Allocated f ↔ p.allocator.Allocated f := by
        rw [hal f]
        exact or_iff_left fun heq => hfg heq.symm
      rw [List.count_cons_of_ne (by simp [hfg]), ← if_congr hiff rfl rfl]
      exact ih
  | @dealloc p p₁ p' g events hd _ ih =>
    obtain ⟨hlive, hal, _⟩ := Phys.dealloc_spec hd
    have hother : (FrameEvent.dealloc g :: events).count (.alloc f) = events.count (.alloc f) :=
      List.count_cons_of_ne (by simp)
    rw [hother]
    by_cases hfg : g = f
    · subst hfg
      rw [if_neg fun hal' => ((hal g).mp hal').2 rfl] at ih
      rw [List.count_cons_self, if_pos hlive]
      omega
    · have hiff : p₁.allocator.Allocated f ↔ p.allocator.Allocated f := by
        rw [hal f]
        exact and_iff_left fun heq => hfg heq.symm
      rw [List.count_cons_of_ne (by simp [hfg]), ← if_congr hiff rfl rfl]
      exact ih
  | write hw _ ih =>
    rw [hw] at ih
    exact ih

/-- Some calls lead from one state to the other. -/
def Reaches (p p' : Phys) : Prop := ∃ events, p.Trace events p'

theorem Reaches.refl (p : Phys) : p.Reaches p := ⟨[], .nil⟩

theorem Reaches.trans (h₁ : p.Reaches p') (h₂ : p'.Reaches p'') : p.Reaches p'' := by
  obtain ⟨events₁, h₁⟩ := h₁
  obtain ⟨events₂, h₂⟩ := h₂
  exact ⟨events₁ ++ events₂, h₁.append h₂⟩

theorem Reaches.of_alloc {f : ℕ} (h : p.alloc = some (f, p')) : p.Reaches p' := ⟨_, .alloc h .nil⟩

theorem Reaches.of_dealloc {f : ℕ} (h : p.dealloc f = some p') : p.Reaches p' := ⟨_, .dealloc h .nil⟩

theorem Reaches.of_write (h : p'.allocator = p.allocator) : p.Reaches p' := ⟨_, .write h .nil⟩

theorem deallocAll_reaches (frames : List ℕ) : ∀ {p : Phys}, p.deallocAll frames = some p' →
    p.Reaches p' := by
  intro p h
  refine foldlM_invariant (fun q : Phys => p.Reaches q) frames ?_ (Reaches.refl p) h
  intro q f q' _ hq hd
  exact hq.trans (.of_dealloc hd)

theorem alloc_noLeak {f : ℕ} {own own' : Set ℕ} (h : p.alloc = some (f, p'))
    (hown : ∀ g ∈ own, g ∈ own') (hf : f ∈ own') : NoLeak p.heap own p'.heap own' := by
  intro g hg
  rcases ((Phys.alloc_spec h).2.2.1 g).mp hg with hold | heq
  · by_cases hmem : g ∈ own
    · exact Or.inl (hown g hmem)
    · exact Or.inr ⟨hold, hmem⟩
  · rw [heq]
    exact Or.inl hf

end Phys

/-! ### Mapping keeps the frames it allocates -/

/-- Work on a page table that allocates frames: its tables stay, and no frame gets out of hand. -/
structure Allocating (pt : PageTable) (p : Phys) (pt' : PageTable) (p' : Phys) : Prop where
  metadata : ∀ f ∈ pt.metadataFrames, f ∈ pt'.metadataFrames
  noLeak : NoLeak p.heap pt.owned p'.heap pt'.owned
  reaches : p.Reaches p'

namespace Allocating

variable {pt pt' pt'' : PageTable} {p p' p'' : Phys} {area : MapArea} {vpn : ℕ}

theorem refl (pt : PageTable) (p : Phys) : Allocating pt p pt p :=
  ⟨fun _ hf => hf, NoLeak.refl _ _, .refl p⟩

theorem trans (h₁ : Allocating pt p pt' p') (h₂ : Allocating pt' p' pt'' p'') :
    Allocating pt p pt'' p'' :=
  ⟨fun f hf => h₂.metadata f (h₁.metadata f hf), h₁.noLeak.trans h₂.noLeak, h₁.reaches.trans h₂.reaches⟩

theorem write (pt : PageTable) (h : p'.allocator = p.allocator) : Allocating pt p pt p' := by
  refine ⟨fun _ hf => hf, fun f hf => ?_, .of_write h⟩
  rw [Phys.heap, h] at hf
  exact NoLeak.refl p.heap pt.owned f hf

theorem descendThenAlloc {t c i : ℕ}
    (h : PageTable.descendThenAlloc (t, pt, p) i = some (c, pt', p')) : Allocating pt p pt' p' := by
  rcases PageTable.descendThenAlloc_cases h with ⟨_, _, rfl, rfl⟩ | ⟨g, p₁, _, ha, _, rfl, rfl⟩
  · exact refl pt' p'
  · have hframes : ∀ f ∈ pt.owned,
        f ∈ ({ pt with metadataFrames := pt.metadataFrames ++ [g] } : PageTable).owned := by
      intro f hf
      rcases List.mem_append.mp hf with hdata | hmeta
      · exact List.mem_append_left _ hdata
      · exact List.mem_append_right _ (List.mem_append_left _ hmeta)
    have hnew : g ∈ ({ pt with metadataFrames := pt.metadataFrames ++ [g] } : PageTable).owned :=
      List.mem_append_right _ (List.mem_append_right _ (List.mem_singleton_self g))
    have hnoLeak := Phys.alloc_noLeak ha hframes hnew
    refine ⟨fun f hf => List.mem_append_left _ hf, fun f hf => hnoLeak f hf, ?_⟩
    exact (Phys.Reaches.of_alloc ha).trans (.of_write rfl)

theorem map {ppn flags : ℕ} (h : pt.map p vpn ppn flags = some (pt', p')) : Allocating pt p pt' p' := by
  obtain ⟨t, p₁, hfind, _, rfl⟩ := PageTable.map_cases h
  obtain ⟨i₁, i₂, t₁, pt₁, p₂, _, h₁, h₂⟩ := PageTable.findPteThenAlloc_cases hfind
  exact ((descendThenAlloc h₁).trans (descendThenAlloc h₂)).trans (write pt' rfl)

theorem mapOne (hs : pt.Sound p) (h : area.mapOne (pt, p) vpn = some (pt', p')) :
    Allocating pt p pt' p' := by
  by_cases ht : area.mapType = .framed
  · obtain ⟨_, hkey, f, p₁, ha, hmap⟩ := MapArea.mapOne_framed_inv hs ht h
    have hperm := PageTable.frames_insert (f := f) hkey
    have hframes : ∀ g ∈ pt.owned, g ∈ (pt.insert vpn f).2.owned := fun g hg =>
      hperm.mem_iff.mpr (List.mem_cons_of_mem f hg)
    have hnew : f ∈ (pt.insert vpn f).2.owned := hperm.mem_iff.mpr List.mem_cons_self
    have hrecord : Allocating pt p (pt.insert vpn f).2 p₁ :=
      ⟨fun _ hg => hg, Phys.alloc_noLeak ha hframes hnew, .of_alloc ha⟩
    exact hrecord.trans (map hmap)
  · obtain ⟨ppn, hmap⟩ := MapArea.mapOne_other_inv ht h
    exact map hmap

theorem mapArea (hs : pt.Sound p) (h : area.map (pt, p) = some (pt', p')) : Allocating pt p pt' p' := by
  refine (foldlM_invariant
    (fun st : PageTable × Phys => st.1.Sound st.2 ∧ Allocating pt p st.1 st.2) area.vpns ?_
    ⟨hs, refl pt p⟩ h).2
  rintro ⟨pt₁, p₁⟩ vpn ⟨pt₂, p₂⟩ hvpn ⟨hs₁, hall⟩ hone
  have hlt := MapArea.vpn_lt (MemorySet.mem_vpns hvpn)
  obtain ⟨_, hstep, _⟩ := MapArea.mapOne_spec hs₁ hlt hone
  exact ⟨hstep.sound, hall.trans (mapOne hs₁ hone)⟩

end Allocating

namespace MapArea

variable {area : MapArea} {pt pt' : PageTable} {p p' : Phys} {vpn : ℕ}

theorem dropFrame_reaches {old : Option ℕ} (h : p.dropFrame old = some p') : p.Reaches p' := by
  cases old with
  | none =>
    cases h
    exact .refl p
  | some f => exact .of_dealloc h

theorem unmapOne_reaches (h : area.unmapOne (pt, p) vpn = some (pt', p')) : p.Reaches p' := by
  by_cases ht : area.mapType = .framed
  · simp only [unmapOne, ht, if_true, Option.bind_eq_bind, Option.bind_eq_some_iff,
      Option.map_eq_some_iff, Option.some.injEq, Prod.mk.injEq, Prod.exists] at h
    obtain ⟨pt₁, p₁, ⟨p₂, hdrop, rfl, rfl⟩, p₃, hun, rfl, rfl⟩ := h
    obtain ⟨t, _, rfl⟩ := PageTable.unmap_cases hun
    exact (dropFrame_reaches hdrop).trans (.of_write rfl)
  · obtain ⟨rfl, hun⟩ := unmapOne_other_inv ht h
    obtain ⟨t, _, rfl⟩ := PageTable.unmap_cases hun
    exact .of_write rfl

theorem unmap_reaches (h : area.unmap (pt, p) = some (pt', p')) : p.Reaches p' := by
  refine foldlM_invariant (fun st : PageTable × Phys => p.Reaches st.2) area.vpns ?_ (.refl p) h
  rintro ⟨pt₁, p₁⟩ vpn ⟨pt₂, p₂⟩ _ hreach hone
  exact hreach.trans (unmapOne_reaches hone)

theorem leaf_of_mapOne_loop (n : ℕ) : ∀ {start : ℕ} {pt : PageTable} {p : Phys}, start + n ≤ vpnEnd →
    pt.Sound p → (List.range' start n).foldlM area.mapOne (pt, p) = some (pt', p') →
    ∀ v, start ≤ v → v < start + n → pt.leaf p v = none := by
  induction n with
  | zero =>
    intro start pt p _ _ _ v hle hlt
    omega
  | succ n ih =>
    intro start pt p hend hs h v hle hlt
    rw [List.range'_succ, List.foldlM_cons, Option.bind_eq_bind, Option.bind_eq_some_iff] at h
    obtain ⟨⟨pt₁, p₁⟩, hone, hrest⟩ := h
    obtain ⟨hnone, hstep, _⟩ := mapOne_spec hs (by omega) hone
    by_cases heq : v = start
    · rw [heq]
      exact hnone
    · rw [← hstep.leaf v (by omega) heq]
      exact ih (by omega) hstep.sound hrest v (by omega) (by omega)

theorem leaf_of_map (hs : pt.Sound p) (h : area.map (pt, p) = some (pt', p')) {v : ℕ}
    (hv : area.zone.Contains v) : pt.leaf p v = none := by
  have hend : area.start + (area.stop - area.start) = area.stop := Nat.add_sub_cancel' area.start_le
  exact leaf_of_mapOne_loop _ (hend.le.trans area.stop_le) hs h v hv.1 (hend.symm ▸ hv.2)

end MapArea

namespace MemorySet

variable {L : Layout} {ms ms' ms₁ : MemorySet} {p p' p₁ : Phys} {forgotten forgotten' : List MapArea}
variable {area : MapArea} {startVa endVa : ℕ} {perm : MapPermission}

/-! ### An area comes and goes -/

theorem insertFramedArea_inv (hnew : MapArea.new startVa endVa .framed perm = some area)
    (h : ms.insertFramedArea L p startVa endVa perm = some (ms₁, p₁)) :
    ms.push L p area none = some (ms₁, p₁) := by
  rw [insertFramedArea, hnew] at h
  exact h

/-- A page that is in no area, in no forgotten one and not the trampoline is not mapped. -/
theorem Built.leaf_eq_none (h : Built L ms forgotten p) {v : ℕ} (hv : v < vpnEnd)
    (htr : v ≠ trampolineVpn) (hout : ∀ a ∈ ms.areas ++ forgotten, ¬ a.zone.Contains v) :
    ms.pageTable.leaf p v = none := by
  cases hleaf : ms.pageTable.leaf p v with
  | none => rfl
  | some g =>
    rcases h.formed.1.accounted v g hv hleaf with hdata | ⟨heq, _⟩ | ⟨z, hz, _, hin⟩
    · obtain ⟨a, ha, _, hin⟩ := h.dataPages (v, g) hdata
      exact absurd hin (hout a ha)
    · exact absurd heq htr
    · obtain ⟨a, ha, rfl⟩ := List.mem_map.mp hz
      exact absurd hin (hout a ha)

/-- **`insert_framed_area` returns** over pages that are not mapped, if there are enough frames. -/
theorem insertFramedArea_returns (h : Built L ms forgotten p)
    (hnew : MapArea.new startVa endVa .framed perm = some area) (htr : ¬ area.zone.Contains trampolineVpn)
    (hout : ∀ a ∈ ms.areas ++ forgotten, ∀ v, area.zone.Contains v → ¬ a.zone.Contains v)
    (hcount : 3 * (area.stop - area.start) ≤ p.allocator.freeCount) :
    ∃ ms₁ p₁, ms.insertFramedArea L p startVa endVa perm = some (ms₁, p₁) ∧
      p.allocator.freeCount ≤ p₁.allocator.freeCount + 3 * (area.stop - area.start) := by
  have hnone : ∀ v, area.zone.Contains v → ms.pageTable.leaf p v = none := by
    intro v hv
    apply h.leaf_eq_none (MapArea.vpn_lt hv) (fun heq => htr (heq ▸ hv))
    exact fun a ha => hout a ha v hv
  obtain ⟨pt₁, p₁, hmap, hspent⟩ := mapArea_returns hcount h.formed.1.sound hnone
  refine ⟨⟨pt₁, ms.areas ++ [area]⟩, p₁, ?_, hspent.frames⟩
  rw [insertFramedArea, hnew]
  show (area.map (ms.pageTable, p)).bind _ = _
  rw [hmap]
  rfl

/-- The area that was pushed last is the one that is found, if no other starts at the same page. -/
theorem removeAreaWithStartVpn_last (pt : PageTable) (p : Phys) {areas : List MapArea}
    (hstart : ∀ a ∈ areas, a.start ≠ area.start) :
    (⟨pt, areas ++ [area]⟩ : MemorySet).removeAreaWithStartVpn p area.start =
      (area.unmap (pt, p)).map fun st => (⟨st.1, areas⟩, st.2) := by
  have hfind : (areas ++ [area]).find? (·.start = area.start) = some area := by
    rw [List.find?_append, List.find?_eq_none.mpr fun a ha => by simpa using hstart a ha]
    simp
  have herase : (areas ++ [area]).eraseP (·.start = area.start) = areas := by
    rw [List.eraseP_append_right _ fun a ha => by simpa using hstart a ha]
    simp
  simp only [removeAreaWithStartVpn, hfind, herase]
  cases area.unmap (pt, p) <;> rfl

/-- **What is left of an area that was inserted and removed.**  `ms₁` and `p₁` are the state in between. -/
structure Restored (ms : MemorySet) (p : Phys) (area : MapArea) (ms₁ : MemorySet) (p₁ : Phys)
    (ms₂ : MemorySet) (p₂ : Phys) : Prop where
  areas : ms₂.areas = ms.areas
  entry : ∀ v, v < vpnEnd → ms₂.pageTable.entry p₂ v = ms.pageTable.entry p v
  released : ∀ f, p₂.allocator.Allocated f ↔
    p₁.allocator.Allocated f ∧ ∀ v, area.zone.Contains v → (v, f) ∉ ms₁.pageTable.dataFrames
  kept : ∀ f, p₂.allocator.Allocated f ↔ p.allocator.Allocated f ∨ f ∈ ms₂.pageTable.metadataFrames

theorem released_iff {pt pt' : PageTable} {zones : List Zone} (hs : Space L pt p (area.zone :: zones))
    (h : area.unmap (pt, p) = some (pt', p')) (f : ℕ) : p'.allocator.Allocated f ↔
      p.allocator.Allocated f ∧ ∀ v, area.zone.Contains v → (v, f) ∉ pt.dataFrames := by
  have hun := MapArea.unmapped_of_unmap hs h
  obtain ⟨hs', hfoot⟩ := hs.unmap h
  have hlive := hun.noLeak.live_iff hfoot hs'.sound.allocated f
  rw [show p'.allocator.Allocated f ↔ _ from hlive]
  constructor
  · intro hor
    rcases hor with hown | ⟨hold, hnot⟩
    · rcases List.mem_append.mp hown with hdata | hmeta
      · obtain ⟨e, he, rfl⟩ := List.mem_map.mp hdata
        obtain ⟨hbefore, hout⟩ := (hun.data e).mp he
        refine ⟨hs.sound.allocated e.2 (PageTable.data_mem hbefore), fun v hv hrec => hout ?_⟩
        -- one frame is recorded for one page
        have hinj := List.inj_on_of_nodup_map (List.nodup_append.mp hs.sound.nodup).1
        rw [show e = (v, e.2) from hinj hbefore hrec rfl]
        exact hv
      · rw [hun.metadata] at hmeta
        refine ⟨hs.sound.allocated f (PageTable.metadata_mem hmeta), fun v _ hrec => ?_⟩
        exact hs.sound.data_not_metadata hrec hmeta
    · exact ⟨hold, fun v _ hrec => hnot (PageTable.data_mem hrec)⟩
  · rintro ⟨hold, hnot⟩
    by_cases hown : f ∈ pt.owned
    · left
      rcases List.mem_append.mp hown with hdata | hmeta
      · obtain ⟨e, he, rfl⟩ := List.mem_map.mp hdata
        exact PageTable.data_mem ((hun.data e).mpr ⟨he, fun hin => hnot e.1 hin he⟩)
      · exact PageTable.metadata_mem (hun.metadata.symm ▸ hmeta)
    · exact Or.inr ⟨hold, hown⟩

/-- The frames in use after an area was mapped and unmapped: those from before, and tables. -/
theorem kept_iff {pt pt₁ pt₂ : PageTable} {p₂ : Phys} {zones : List Zone} (hs : Space L pt p zones)
    (hmap : area.map (pt, p) = some (pt₁, p₁)) (hunmap : area.unmap (pt₁, p₁) = some (pt₂, p₂)) (f : ℕ) :
    p₂.allocator.Allocated f ↔ p.allocator.Allocated f ∨ f ∈ pt₂.metadataFrames := by
  obtain ⟨hs₁, hfoot₁⟩ := hs.map hmap
  obtain ⟨hs₂, hfoot₂⟩ := hs₁.unmap hunmap
  have hall := Allocating.mapArea hs.sound hmap
  have hun := MapArea.unmapped_of_unmap hs₁ hunmap
  have hmapped := MapArea.map_mapped hs.sound hmap
  have hdata : ∀ e, e ∈ pt₂.dataFrames ↔ e ∈ pt.dataFrames := by
    intro e
    rw [hun.data]
    by_cases hin : area.zone.Contains e.1
    · refine iff_of_false (fun h => h.2 hin) fun he => ?_
      have hleaf := (hs.sound.recorded e he).2
      rw [MapArea.leaf_of_map hs.sound hmap hin] at hleaf
      cases hleaf
    · rw [hmapped.data e hin]
      exact and_iff_left hin
  have hlive := (hall.noLeak.trans hun.noLeak).live_iff (hfoot₁.trans hfoot₂) hs₂.sound.allocated f
  rw [show p₂.allocator.Allocated f ↔ _ from hlive]
  constructor
  · intro hor
    rcases hor with hown | ⟨hold, _⟩
    · rcases List.mem_append.mp hown with hd | hmeta
      · obtain ⟨e, he, rfl⟩ := List.mem_map.mp hd
        exact Or.inl (hs.sound.allocated e.2 (PageTable.data_mem ((hdata e).mp he)))
      · exact Or.inr hmeta
    · exact Or.inl hold
  · intro hor
    rcases hor with hold | hmeta
    · by_cases hown : f ∈ pt.owned
      · left
        rcases List.mem_append.mp hown with hd | hmeta
        · obtain ⟨e, he, rfl⟩ := List.mem_map.mp hd
          exact PageTable.data_mem ((hdata e).mpr he)
        · exact PageTable.metadata_mem (hun.metadata.symm ▸ hall.metadata f hmeta)
      · exact Or.inr ⟨hold, hown⟩
    · exact Or.inl (PageTable.metadata_mem hmeta)

/-- **Removing an area that was just inserted** returns and restores the set. -/
theorem remove_restores (hi : ms.Inv L p forgotten) (hne : area.start < area.stop)
    (hareas : ∀ a ∈ ms.areas, a.start < a.stop)
    (hout : ∀ a ∈ ms.areas, ∀ v, area.zone.Contains v → ¬ a.zone.Contains v)
    (h : ms.push L p area none = some (ms₁, p₁)) :
    ∃ ms₂ p₂, ms₁.removeAreaWithStartVpn p₁ area.start = some (ms₂, p₂) ∧
      Restored ms p area ms₁ p₁ ms₂ p₂ := by
  obtain ⟨hmap, heq⟩ := push_inv h
  have hs₁ := (hi.map hmap).1
  obtain ⟨pt₂, p₂, hunmap, hun⟩ := MapArea.unmap_unmapped hs₁
  have hstart : ∀ a ∈ ms.areas, a.start ≠ area.start := by
    intro a ha hsame
    exact hout a ha area.start ⟨Nat.le_refl _, hne⟩ ⟨hsame.le, hsame ▸ hareas a ha⟩
  refine ⟨⟨pt₂, ms.areas⟩, p₂, ?_, rfl, fun v hv => ?_, ?_, kept_iff hi hmap hunmap⟩
  · rw [heq, removeAreaWithStartVpn_last _ _ hstart, hunmap]
    rfl
  · rw [hun.entry v hv]
    by_cases hin : area.start ≤ v ∧ v < area.stop
    · rw [if_pos hin]
      have hleaf := MapArea.leaf_of_map hi.sound hmap (v := v) hin
      rw [PageTable.leaf_eq_entry, Option.map_eq_none_iff] at hleaf
      exact hleaf.symm
    · rw [if_neg hin]
      exact (MapArea.map_mapped hi.sound hmap).other v hv hin
  · exact released_iff hs₁ hunmap

/-- `remove_area_with_start_vpn` never panics: the area it finds is mapped. -/
theorem removeAreaWithStartVpn_returns (hi : ms.Inv L p forgotten) (startVpn : ℕ) :
    (ms.removeAreaWithStartVpn p startVpn).isSome := by
  rw [removeAreaWithStartVpn]
  cases hfind : ms.areas.find? (·.start = startVpn) with
  | none => rfl
  | some area =>
    have hmem : area ∈ ms.areas := List.mem_of_find?_eq_some hfind
    obtain ⟨before, after, hsplit⟩ := List.append_of_mem hmem
    have hperm : (ms.areas ++ forgotten).Perm ((area :: (before ++ after)) ++ forgotten) := by
      rw [hsplit]
      exact List.perm_middle.append_right forgotten
    have hs := hi.perm (hperm.map MapArea.zone)
    obtain ⟨pt', p', hunmap, _⟩ := MapArea.unmap_unmapped hs
    simp [hunmap]

/-! ### A whole life -/

/-- One call on a memory set. -/
inductive OwnStep (L : Layout) (ms : MemorySet) (forgotten : List MapArea) (p : Phys) :
    MemorySet → List MapArea → Phys → Prop
  | mapTrampoline {ms' : MemorySet} {p' : Phys} : forgotten = [] → ms.areas = [] →
      ms.mapTrampoline L p = some (ms', p') → OwnStep L ms forgotten p ms' [] p'
  | push {ms' : MemorySet} {p' : Phys} {area : MapArea} : ms.push L p area none = some (ms', p') →
      OwnStep L ms forgotten p ms' forgotten p'
  | pushData {ms' : MemorySet} {p' : Phys} {area : MapArea} {data : List ℕ} : forgotten = [] →
      AllFramed ms.areas → ms.push L p area (some data) = some (ms', p') →
      OwnStep L ms forgotten p ms' [] p'
  | removeArea {ms' : MemorySet} {p' : Phys} {startVpn : ℕ} :
      ms.removeAreaWithStartVpn p startVpn = some (ms', p') → OwnStep L ms forgotten p ms' forgotten p'
  | recycleDataPages : OwnStep L ms forgotten p ms.recycleDataPages (ms.areas ++ forgotten) p

theorem OwnStep.built (hb : Built L ms forgotten p) (h : OwnStep L ms forgotten p ms' forgotten' p') :
    Built L ms' forgotten' p' := by
  cases h with
  | mapTrampoline hnil hareas hmap => exact .mapTrampoline (hnil ▸ hb) hareas hmap
  | push hpush => exact hb.push hpush
  | pushData hnil hframed hpush => exact .pushData (hnil ▸ hb) hframed hpush
  | removeArea hremove => exact hb.removeArea hremove
  | recycleDataPages => exact hb.recycleDataPages

theorem OwnStep.work (hi : ms.Inv L p forgotten) (h : OwnStep L ms forgotten p ms' forgotten' p') :
    Work L p ms.pageTable.owned ms' p' forgotten' := by
  cases h with
  | mapTrampoline hnil hareas hmap => exact (mapTrampoline_spec (hnil ▸ hi) hareas hmap).1
  | push hpush => exact (push_spec hi hpush).1
  | pushData hnil hframed hpush => exact (push_data_spec (hnil ▸ hi) hframed hpush).1
  | removeArea hremove => exact removeAreaWithStartVpn_spec hi hremove
  | recycleDataPages => exact ⟨recycleDataPages_spec hi, Footprint.refl _ _⟩

theorem copyData_allocator {pt : PageTable} {data : List ℕ} (h : area.copyData L pt p data = some p') :
    p'.allocator = p.allocator := by
  rw [MapArea.copyData] at h
  split at h
  · obtain ⟨⟨vpn, p₁⟩, hfold, rfl⟩ := Option.map_eq_some_iff.mp h
    refine foldlM_invariant (fun st : ℕ × Phys => st.2.allocator = p.allocator) _ ?_ rfl hfold
    rintro ⟨v, q⟩ chunk ⟨v', q'⟩ _ hq hone
    simp only [MapArea.copyChunk, Option.bind_eq_bind, Option.bind_eq_some_iff, Option.some.injEq,
      Prod.mk.injEq] at hone
    obtain ⟨e, _, q₂, hstore, _, rfl⟩ := hone
    rw [Phys.store] at hstore
    split at hstore
    · obtain rfl := Option.some.inj hstore
      exact hq
    · cases hstore
  · cases h

/-- A call on a memory set loses no frame, and is a sequence of allocations and deallocations. -/
theorem OwnStep.noLeak (hi : ms.Inv L p forgotten) (h : OwnStep L ms forgotten p ms' forgotten' p') :
    NoLeak p.heap ms.pageTable.owned p'.heap ms'.pageTable.owned ∧ p.Reaches p' := by
  cases h with
  | mapTrampoline _ _ hmap =>
    obtain ⟨⟨pt, p₁⟩, hpt, heq⟩ := Option.bind_eq_some_iff.mp hmap
    cases heq
    exact ⟨(Allocating.map hpt).noLeak, (Allocating.map hpt).reaches⟩
  | push hpush =>
    have hall := Allocating.mapArea hi.sound (push_inv hpush).1
    exact ⟨hall.noLeak, hall.reaches⟩
  | pushData _ hframed hpush =>
    obtain ⟨pt, p₁, hmap, hcopy, rfl, _⟩ := push_data_inv hframed hpush
    have hall := (Allocating.mapArea hi.sound hmap).trans (.write pt (copyData_allocator hcopy))
    exact ⟨hall.noLeak, hall.reaches⟩
  | removeArea hremove =>
    rcases removeAreaWithStartVpn_inv hremove with ⟨rfl, rfl, -⟩ | ⟨area, -, hunmap, hperm⟩
    · exact ⟨NoLeak.refl _ _, .refl _⟩
    · have hun := MapArea.unmapped_of_unmap (hi.perm (zones_perm hperm _)) hunmap
      exact ⟨hun.noLeak, MapArea.unmap_reaches hunmap⟩
  | recycleDataPages => exact ⟨NoLeak.refl _ _, .refl p⟩

/-- A memory set from `new_bare` on, with the calls of `alloc` and `dealloc` that were made for it.  Between
two calls the pages are written to, and others use other frames. -/
inductive Life (L : Layout) : MemorySet → List MapArea → Phys → List FrameEvent → Prop
  | newBare {ms : MemorySet} {p p' : Phys} {events : List FrameEvent} : newBare p = some (ms, p') →
      p.Trace events p' → Life L ms [] p' events
  | step {ms ms' : MemorySet} {forgotten forgotten' : List MapArea} {p p' : Phys}
      {events events' : List FrameEvent} : Life L ms forgotten p events →
      OwnStep L ms forgotten p ms' forgotten' p' → p.Trace events' p' →
      Life L ms' forgotten' p' (events ++ events')
  | other {ms : MemorySet} {forgotten : List MapArea} {p p' : Phys} {events : List FrameEvent} :
      Life L ms forgotten p events → (∀ f ∈ ms.pageTable.frames, p'.allocator.Allocated f) →
      (∀ f ∈ ms.pageTable.metadataFrames, p'.memory f = p.memory f) → Life L ms forgotten p' events

variable {events : List FrameEvent}

theorem Life.built (h : Life L ms forgotten p events) : Built L ms forgotten p := by
  induction h with
  | newBare hnew _ => exact .newBare hnew
  | step _ hstep _ ih => exact hstep.built ih
  | other _ hal hmem ih => exact ih.other hal hmem

theorem newBare_noLeak (h : newBare p = some (ms, p')) :
    NoLeak p.heap ∅ p'.heap ms.pageTable.owned ∧ p.Reaches p' := by
  obtain ⟨⟨pt, p₁⟩, hpt, heq⟩ := Option.bind_eq_some_iff.mp h
  cases heq
  obtain ⟨⟨f, p₂⟩, ha, heq⟩ := Option.bind_eq_some_iff.mp hpt
  cases heq
  refine ⟨Phys.alloc_noLeak ha (fun _ hg => absurd hg (Set.notMem_empty _)) ?_, .of_alloc ha⟩
  exact List.mem_singleton_self f

theorem Built.exists_life (h : Built L ms forgotten p) : ∃ events, Life L ms forgotten p events := by
  have hstep : ∀ {ms ms' : MemorySet} {forgotten forgotten' : List MapArea} {p p' : Phys},
      OwnStep L ms forgotten p ms' forgotten' p' → (∃ events, Life L ms forgotten p events) →
      ∃ events, Life L ms' forgotten' p' events := by
    rintro ms ms' forgotten forgotten' p p' hown ⟨events, hlife⟩
    obtain ⟨_, events', htrace⟩ := hown.noLeak hlife.built.formed.1
    exact ⟨events ++ events', hlife.step hown htrace⟩
  induction h with
  | newBare hnew =>
    obtain ⟨_, events, htrace⟩ := newBare_noLeak hnew
    exact ⟨events, .newBare hnew htrace⟩
  | mapTrampoline _ hareas hmap ih => exact hstep (.mapTrampoline rfl hareas hmap) ih
  | push _ hpush ih => exact hstep (.push hpush) ih
  | pushData _ hframed hpush ih => exact hstep (.pushData rfl hframed hpush) ih
  | removeArea _ hremove ih => exact hstep (.removeArea hremove) ih
  | recycleDataPages _ ih => exact hstep .recycleDataPages ih
  | other _ hal hmem ih =>
    obtain ⟨events, hlife⟩ := ih
    exact ⟨events, hlife.other hal hmem⟩

theorem balance_step {own own' : Set ℕ} [DecidablePred (· ∈ own)] [DecidablePred (· ∈ own')]
    (hfoot : Footprint p.heap own p'.heap own') (hnoLeak : NoLeak p.heap own p'.heap own')
    (hown : ∀ f ∈ own, p.allocator.Allocated f) (hown' : ∀ f ∈ own', p'.allocator.Allocated f)
    (htrace : p.Trace events p') (f : ℕ) :
    events.count (.alloc f) + (if f ∈ own then 1 else 0) =
      events.count (.dealloc f) + if f ∈ own' then 1 else 0 := by
  have hcount := htrace.count f
  have hlive : p'.allocator.Allocated f ↔ f ∈ own' ∨ p.allocator.Allocated f ∧ f ∉ own :=
    hnoLeak.live_iff hfoot hown' f
  rw [if_congr hlive rfl rfl] at hcount
  by_cases hin : f ∈ own
  · rw [if_pos (hown f hin)] at hcount
    rw [if_pos hin, hcount]
    exact congrArg _ (if_congr (by tauto) rfl rfl)
  · rw [if_neg hin]
    by_cases hin' : f ∈ own'
    · -- what is the worker's afterwards and was not before was not in use
      have hdead : ¬ p.allocator.Allocated f := (hfoot.fresh f hin').resolve_left hin
      rw [if_neg hdead, if_pos (Or.inl hin')] at hcount
      rw [if_pos hin']
      exact hcount
    · rw [if_neg hin']
      have hsame : (f ∈ own' ∨ p.allocator.Allocated f ∧ f ∉ own) ↔ p.allocator.Allocated f := by tauto
      rw [if_congr hsame rfl rfl] at hcount
      omega

instance (pt : PageTable) : DecidablePred (· ∈ pt.owned) := fun f =>
  inferInstanceAs (Decidable (f ∈ pt.frames))

/-- **The frames of a memory set are those that were allocated for it once more than deallocated.** -/
theorem Life.balance (h : Life L ms forgotten p events) (f : ℕ) :
    events.count (.alloc f) = events.count (.dealloc f) + if f ∈ ms.pageTable.owned then 1 else 0 := by
  induction h with
  | @newBare ms p p' events hnew htrace =>
    obtain ⟨hw, _⟩ := newBare_spec L hnew
    have hbalance := balance_step hw.footprint (newBare_noLeak hnew).1
      (fun g hg => absurd hg (Set.notMem_empty g)) hw.inv.sound.allocated htrace f
    rw [if_neg (Set.notMem_empty f)] at hbalance
    exact hbalance
  | @step ms ms' forgotten forgotten' p p' events events' hlife hown htrace ih =>
    have hi := hlife.built.formed.1
    have hw := hown.work hi
    have hbalance := balance_step hw.footprint (hown.noLeak hi).1 hi.sound.allocated
      hw.inv.sound.allocated htrace f
    rw [List.count_append, List.count_append]
    omega
  | other _ _ _ ih => exact ih

/-- **The end of a life**: dropping the set returns, and then every frame has been deallocated as often as it
was allocated. -/
theorem Life.drop (h : Life L ms forgotten p events) : ∃ p', ms.drop p = some p' ∧ p.Reaches p' ∧
    ∀ events', p.Trace events' p' → ∀ f,
      (events ++ events').count (.alloc f) = (events ++ events').count (.dealloc f) := by
  have hi := h.built.formed.1
  obtain ⟨p', hdrop, hal, _⟩ := Phys.deallocAll_spec _ hi.sound.nodup hi.sound.allocated
  refine ⟨p', hdrop, Phys.deallocAll_reaches _ hdrop, fun events' htrace f => ?_⟩
  have hbalance := h.balance f
  have hcount := htrace.count f
  rw [List.count_append, List.count_append]
  by_cases hown : f ∈ ms.pageTable.owned
  · rw [if_pos (hi.sound.allocated f hown), if_neg fun halive => ((hal f).mp halive).2 hown] at hcount
    rw [if_pos hown] at hbalance
    omega
  · have hsame : p'.allocator.Allocated f ↔ p.allocator.Allocated f := by
      rw [hal f]
      exact and_iff_left hown
    rw [if_congr hsame rfl rfl] at hcount
    rw [if_neg hown] at hbalance
    omega

/-- **Inserting and removing an area restores the set, and over a whole life every frame is given back once.**
At any time in the life of a memory set whose areas have pages: if an area with pages is inserted that
overlaps with no other and not with the trampoline, then removing it by its first page returns, and restores
the entries of all pages and the list of areas; exactly the frames behind its pages go back, and only tables
stay.  The insertion returns if there are three frames for each page and no forgotten area overlaps with it
either.  Removing never panics, nor does dropping the set, after which every frame has been deallocated as
often as it was allocated. -/
theorem area_life (h : Life L ms forgotten p events) :
    ((∀ a ∈ ms.areas, a.start < a.stop) → ∀ startVa endVa perm area,
      MapArea.new startVa endVa .framed perm = some area → area.start < area.stop →
      (∀ a ∈ ms.areas, ∀ v, area.zone.Contains v → ¬ a.zone.Contains v) →
      ¬ area.zone.Contains trampolineVpn →
      ((∀ a ∈ forgotten, ∀ v, area.zone.Contains v → ¬ a.zone.Contains v) →
        3 * (area.stop - area.start) ≤ p.allocator.freeCount →
        (ms.insertFramedArea L p startVa endVa perm).isSome) ∧
      ∀ ms₁ p₁, ms.insertFramedArea L p startVa endVa perm = some (ms₁, p₁) →
        ∃ ms₂ p₂, ms₁.removeAreaWithStartVpn p₁ area.start = some (ms₂, p₂) ∧
          Restored ms p area ms₁ p₁ ms₂ p₂) ∧
    (∀ startVpn, (ms.removeAreaWithStartVpn p startVpn).isSome) ∧
    ∃ p', ms.drop p = some p' ∧ p.Reaches p' ∧ ∀ events', p.Trace events' p' → ∀ f,
      (events ++ events').count (.alloc f) = (events ++ events').count (.dealloc f) := by
  have hb := h.built
  refine ⟨?_, removeAreaWithStartVpn_returns hb.formed.1, h.drop⟩
  intro hareas startVa endVa perm area hnew hne hout htr
  constructor
  · intro hforgotten hcount
    have hboth : ∀ a ∈ ms.areas ++ forgotten, ∀ v, area.zone.Contains v → ¬ a.zone.Contains v := by
      intro a ha
      rcases List.mem_append.mp ha with ha | ha
      · exact hout a ha
      · exact hforgotten a ha
    obtain ⟨ms₁, p₁, hinsert, -⟩ := insertFramedArea_returns hb hnew htr hboth hcount
    exact Option.isSome_iff_exists.mpr ⟨_, hinsert⟩
  · intro ms₁ p₁ hinsert
    exact remove_restores hb.formed.1 hne hareas hout (insertFramedArea_inv hnew hinsert)

/-- A page is inserted behind the one that is there, and removed. -/
theorem area_life_two_pages : ∃ ms p events ms₁ p₁ ms₂ p₂, Life sampleLayout ms [] p events ∧
    ms.areas = [sampleFramed] ∧
    ms.insertFramedArea sampleLayout p 0x11000 0x12000 ⟨true, true, false, true⟩ = some (ms₁, p₁) ∧
    ms₁.removeAreaWithStartVpn p₁ 17 = some (ms₂, p₂) ∧ ms₂.areas = [sampleFramed] := by
  have hset : ∃ x ∈ sampleSet sampleFilled [sampleFramed], x.2.allocator.recycled = [] ∧
      x.2.allocator.current = 0x80216 ∧ x.2.allocator.endPpn = 0x88000 := by decide +kernel
  obtain ⟨⟨ms, p⟩, hx, hrec, hcur, hend⟩ := hset
  obtain ⟨hb, hareas⟩ := sampleSet_built hx
  obtain ⟨events, hlife⟩ := hb.exists_life
  have hcount : 3 * (18 - 17) ≤ p.allocator.freeCount := by
    rw [StackFrameAllocator.freeCount, hrec, hcur, hend]
    decide
  have hpages : ∀ a ∈ ms.areas, a.start < a.stop := by
    rw [hareas, List.forall_mem_singleton]
    decide
  have hout : ∀ a ∈ ms.areas, ∀ v, 17 ≤ v ∧ v < 18 → ¬ a.zone.Contains v := by
    rw [hareas, List.forall_mem_singleton]
    intro v hv hin
    have hlt : v < 17 := hin.2
    omega
  obtain ⟨hreturns, hrestores⟩ := (area_life hlife).1 hpages 0x11000 0x12000 ⟨true, true, false, true⟩
    ⟨17, 18, .framed, ⟨true, true, false, true⟩, by decide, by decide⟩ rfl (by decide) hout
    (fun hin => absurd hin.2 (by decide))
  obtain ⟨⟨ms₁, p₁⟩, hinsert⟩ := Option.isSome_iff_exists.mp
    (hreturns (fun a ha => absurd ha List.not_mem_nil) hcount)
  obtain ⟨ms₂, p₂, hremove, hrestored⟩ := hrestores ms₁ p₁ hinsert
  exact ⟨ms, p, events, ms₁, p₁, ms₂, p₂, hlife, hareas, hinsert, hremove, hrestored.areas.trans hareas⟩

end MemorySet

end LemonCore.Kernel.Mm
