import LemonCore.Kernel.PageEntries
import LemonCore.Kernel.MemorySets

/-!
# The entries of areas

The pages of an area have the flags of the area, and mapping an area touches only tables.

* `PageTable.bare`: a page table without its records.  `map` does not look at them, so that `map` writes to
  frames of tables only (`map_tables_only`);
* `MapArea.Mapped`, `MapArea.map_mapped`: the effect of mapping an area on entries, records and frames;
* `Unmapped`, `MapArea.unmap_unmapped`: unmapping an area that was mapped returns, and its effect on the
  same;
* `MemorySet.Flagged`: every page of every area has a valid entry with the flags of its area;
* `MemorySet.Built`: the memory sets that the functions of `mm/memory_set.rs` build, while the pages are
  written to and others use other frames; `Built.formed` is their invariant.
-/

namespace LemonCore.Kernel.Mm

open Foundation.SharedHeap

variable {p p' : Phys} {pt pt' : PageTable} {area : MapArea} {L : Layout}

/-! ### Frames that `map` writes to -/

theorem Phys.alloc_footprint {f : ℕ} (h : p.alloc = some (f, p')) (own : Set ℕ) :
    Footprint p.heap own p'.heap own := by
  obtain ⟨hnew, -, hal, hmem⟩ := Phys.alloc_spec h
  refine ⟨fun g hg _ => ⟨(hal g).mpr (Or.inl hg), ?_⟩, fun g hg => Or.inl hg⟩
  have hgf : g ≠ f := fun heq => hnew (heq ▸ hg)
  show p'.memory g = p.memory g
  rw [hmem, Function.update_of_ne hgf]

namespace PageTable

variable {pt pt' : PageTable} {p p' : Phys} {vpn ppn flags : ℕ}

/-- The page table without the record of the frames behind the pages. -/
def bare (pt : PageTable) : PageTable := { pt with dataFrames := [] }

theorem Tables.bare (ht : pt.Tables p) : pt.bare.Tables p where
  nodup := (List.nodup_append.mp ht.nodup).2.1
  allocated := fun f hf => ht.allocated f (metadata_mem hf)
  labelled := ht.labelled
  blank := ht.blank

theorem descendThenAlloc_bare (t : ℕ) (pt : PageTable) (p : Phys) (i : ℕ) :
    descendThenAlloc (t, pt.bare, p) i =
      (descendThenAlloc (t, pt, p) i).map fun x => (x.1, x.2.1.bare, x.2.2) := by
  rw [descendThenAlloc, descendThenAlloc]
  by_cases hv : isValid (p.memory t i)
  · simp [hv]
  · cases p.alloc with
    | none => simp [hv]
    | some x => simp [hv, bare]

theorem findPteThenAlloc_bare (pt : PageTable) (p : Phys) (vpn : ℕ) :
    pt.bare.findPteThenAlloc p vpn =
      (pt.findPteThenAlloc p vpn).map fun x => (x.1, x.2.1.bare, x.2.2) := by
  rw [findPteThenAlloc, findPteThenAlloc]
  generalize hroot : pt.rootPpn = root
  have hroot' : pt.bare.rootPpn = root := hroot
  rw [hroot']
  clear hroot hroot'
  induction indexes vpn generalizing root pt p with
  | nil => rfl
  | cons i is ih =>
    rw [List.foldlM_cons, List.foldlM_cons, descendThenAlloc_bare]
    cases descendThenAlloc (root, pt, p) i with
    | none => rfl
    | some x =>
      obtain ⟨t, pt₁, p₁⟩ := x
      exact ih pt₁ p₁ t

theorem map_bare (h : pt.map p vpn ppn flags = some (pt', p')) :
    pt.bare.map p vpn ppn flags = some (pt'.bare, p') := by
  rw [map, findPteThenAlloc_bare]
  rw [map] at h
  cases hx : pt.findPteThenAlloc p vpn with
  | none => simp [hx] at h
  | some x =>
    obtain ⟨t, pt₁, p₁⟩ := x
    simp only [hx, Option.bind_eq_bind, Option.bind_some] at h
    simp only [Option.map_some, Option.bind_eq_bind, Option.bind_some]
    split at h
    · cases h
    · rename_i hv
      obtain ⟨rfl, rfl⟩ := Prod.mk.inj (Option.some.inj h)
      rw [if_neg hv]

/-- The frames of the tables. -/
def tables (pt : PageTable) : Set ℕ := {f | f ∈ pt.metadataFrames}

/-- **`map` writes to tables only**, and adds only new frames to them. -/
theorem map_tables_only (ht : pt.Tables p) (hflags : flags < 2 ^ 10)
    (h : pt.map p vpn ppn flags = some (pt', p')) : Footprint p.heap pt.tables p'.heap pt'.tables :=
  (map_spec ht.bare hflags (map_bare h)).2.footprint

end PageTable

/-! ### Mapping an area -/

namespace MapArea

variable {area : MapArea} {pt pt' : PageTable} {p p' : Phys} {vpn : ℕ}

theorem bits_or_lt (perm : MapPermission) : perm.bits ||| pteV < 2 ^ 8 := by
  have h : perm.bits < 2 ^ 8 := by
    rw [MapPermission.bits]
    have := Bool.toNat_le perm.r
    have := Bool.toNat_le perm.w
    have := Bool.toNat_le perm.x
    have := Bool.toNat_le perm.u
    omega
  exact Nat.or_lt_two_pow h (by decide)

/-- The page has a valid entry with the flags of the area. -/
def PageFlags (area : MapArea) (pt : PageTable) (p : Phys) (v : ℕ) : Prop :=
  ∃ e, pt.entry p v = some e ∧ pteFlags e = area.mapPerm.bits ||| pteV

theorem entry_of_map (ht : pt.Tables p) (hvpn : vpn < vpnEnd) {ppn : ℕ}
    (h : pt.map p vpn ppn area.mapPerm.bits = some (pt', p')) :
    area.PageFlags pt' p' vpn ∧ ∀ v, v < vpnEnd → v ≠ vpn → pt'.entry p' v = pt.entry p v := by
  have hentry := PageTable.map_entry ht h
  constructor
  · exact ⟨_, (hentry vpn).trans (if_pos ⟨rfl, rfl⟩), pteFlags_pteNew (bits_or_lt _)⟩
  · intro v hv hne
    rw [hentry v, if_neg fun hboth => hne ((same_page_iff hv hvpn).mp hboth)]

/-- **`map_one`** sets the entry of its page and writes to tables only. -/
theorem mapOne_entry (hs : pt.Sound p) (hvpn : vpn < vpnEnd)
    (h : area.mapOne (pt, p) vpn = some (pt', p')) :
    area.PageFlags pt' p' vpn ∧ (∀ v, v < vpnEnd → v ≠ vpn → pt'.entry p' v = pt.entry p v) ∧
      Footprint p.heap pt.tables p'.heap pt'.tables := by
  by_cases ht : area.mapType = .framed
  · obtain ⟨-, hkey, f, p₁, ha, hmap⟩ := mapOne_framed_inv hs ht h
    obtain ⟨htab, -, -⟩ := PageTable.recorded_ahead hs ha hkey
    obtain ⟨hflags, hother⟩ := entry_of_map htab hvpn hmap
    have hmem : ∀ g ∈ pt.metadataFrames, p₁.memory g = p.memory g := fun g hg =>
      ((Phys.alloc_footprint ha ∅).kept g (hs.allocated g (PageTable.metadata_mem hg))
        (Set.notMem_empty g)).2
    refine ⟨hflags, fun v hv hne => ?_, ?_⟩
    · rw [hother v hv hne]
      exact PageTable.entry_congr hs.toTables hmem v
    · have hrest := PageTable.map_tables_only htab (bits_lt _) hmap
      exact (Phys.alloc_footprint ha pt.tables).trans hrest
  · obtain ⟨ppn, hmap⟩ := mapOne_other_inv ht h
    obtain ⟨hflags, hother⟩ := entry_of_map hs.toTables hvpn hmap
    exact ⟨hflags, hother, PageTable.map_tables_only hs.toTables (bits_lt _) hmap⟩

/-- **The effect of mapping an area.** -/
structure Mapped (area : MapArea) (pt : PageTable) (p : Phys) (pt' : PageTable) (p' : Phys) : Prop where
  flags : ∀ v, area.zone.Contains v → area.PageFlags pt' p' v
  other : ∀ v, v < vpnEnd → ¬ area.zone.Contains v → pt'.entry p' v = pt.entry p v
  data : ∀ e, ¬ area.zone.Contains e.1 → (e ∈ pt'.dataFrames ↔ e ∈ pt.dataFrames)
  tablesOnly : Footprint p.heap pt.tables p'.heap pt'.tables

theorem mem_vpns_iff {v : ℕ} : v ∈ area.vpns ↔ area.zone.Contains v := by
  refine ⟨MemorySet.mem_vpns, fun hv => ?_⟩
  have hle := area.start_le
  have hlt : v < area.stop := hv.2
  rw [vpns, List.mem_range'_1]
  exact ⟨hv.1, by omega⟩

theorem vpn_lt {v : ℕ} (hv : area.zone.Contains v) : v < vpnEnd := hv.2.trans_le area.stop_le

theorem map_mapped (hs : pt.Sound p) (h : area.map (pt, p) = some (pt', p')) :
    area.Mapped pt p pt' p' := by
  -- The pages outside stay as they were; a page that has been mapped keeps its entry.
  obtain ⟨⟨-, hother, hdata, hfoot⟩, hall, -⟩ := foldlM_forall
    (fun st : PageTable × Phys => st.1.Sound st.2 ∧
      (∀ v, v < vpnEnd → ¬ area.zone.Contains v → st.1.entry st.2 v = pt.entry p v) ∧
      (∀ e, ¬ area.zone.Contains e.1 → (e ∈ st.1.dataFrames ↔ e ∈ pt.dataFrames)) ∧
      Footprint p.heap pt.tables st.2.heap st.1.tables)
    (fun v st => v < vpnEnd ∧ area.PageFlags st.1 st.2 v) area.vpns
    (by
      rintro ⟨pt₁, p₁⟩ vpn ⟨pt₂, p₂⟩ hvpn ⟨hs₁, hother₁, hdata₁, hfoot₁⟩ hone
      have hin := mem_vpns_iff.mp hvpn
      obtain ⟨-, hstep, -⟩ := mapOne_spec hs₁ (vpn_lt hin) hone
      obtain ⟨hflags, hrest, hfoot₂⟩ := mapOne_entry hs₁ (vpn_lt hin) hone
      refine ⟨⟨hstep.sound, fun v hv hout => ?_, fun e hout => ?_, hfoot₁.trans hfoot₂⟩, vpn_lt hin,
        hflags⟩
      · have hne : v ≠ vpn := fun heq => hout (heq ▸ hin)
        exact (hrest v hv hne).trans (hother₁ v hv hout)
      · have hne : e.1 ≠ vpn := fun heq => hout (heq ▸ hin)
        exact (hstep.data e hne).trans (hdata₁ e hout))
    (by
      rintro ⟨pt₁, p₁⟩ vpn ⟨pt₂, p₂⟩ c hvpn ⟨hs₁, _⟩ ⟨hc, e, he, hfl⟩ hone
      have hin := mem_vpns_iff.mp hvpn
      obtain ⟨hflags, hrest, -⟩ := mapOne_entry hs₁ (vpn_lt hin) hone
      by_cases heq : c = vpn
      · rw [heq]
        exact ⟨vpn_lt hin, hflags⟩
      · exact ⟨hc, e, (hrest c hc heq).trans he, hfl⟩)
    ⟨hs, fun _ _ _ => rfl, fun _ _ => Iff.rfl, Footprint.refl _ _⟩ h
  exact ⟨fun v hv => (hall v (mem_vpns_iff.mpr hv)).2, hother, hdata, hfoot⟩

theorem unmapOne_entry (hs : pt.Sound p) (hvpn : vpn < vpnEnd) (hb : pt.Backed p area.mapType vpn)
    (h : area.unmapOne (pt, p) vpn = some (pt', p')) {v : ℕ} (hv : v < vpnEnd) (hne : v ≠ vpn) :
    pt'.entry p' v = pt.entry p v := by
  have hpage : ¬ (indexes v = indexes vpn ∧ lastIndex v = lastIndex vpn) := fun hboth =>
    hne ((same_page_iff hv hvpn).mp hboth)
  by_cases ht : area.mapType = .framed
  · rw [ht] at hb
    obtain ⟨f, hf⟩ := hb
    obtain ⟨rfl, p₁, hd, hun⟩ := unmapOne_framed_inv hs ht hf h
    obtain ⟨htab, -, -⟩ := removed_ahead hs hf hd
    rw [PageTable.unmap_entry htab hun, if_neg hpage]
    have hmem : ∀ g ∈ pt.metadataFrames, p₁.memory g = p.memory g := fun g _ => by
      rw [(Phys.dealloc_spec hd).2.2]
    exact PageTable.entry_congr hs.toTables hmem v
  · obtain ⟨rfl, hun⟩ := unmapOne_other_inv ht h
    rw [PageTable.unmap_entry hs.toTables hun, if_neg hpage]

/-- **`unmap_one` returns** on a page that is backed as the map type says. -/
theorem unmapOne_returns (hs : pt.Sound p) (hb : pt.Backed p area.mapType vpn) :
    ∃ pt' p', area.unmapOne (pt, p) vpn = some (pt', p') := by
  -- a page with a leaf has a valid entry, which is what `unmap` asserts
  have hunmap : ∀ {pt : PageTable} {p : Phys}, pt.leaf p vpn ≠ none →
      ∃ p', pt.unmap p vpn = some p' := by
    intro pt p hleaf
    rw [PageTable.leaf_eq_entry, ne_eq, Option.map_eq_none_iff, ← ne_eq, Option.ne_none_iff_isSome] at hleaf
    exact Option.isSome_iff_exists.mp ((PageTable.unmap_isSome_iff pt p vpn).mpr hleaf)
  have hleaf := hb.leaf_ne_none hs
  by_cases ht : area.mapType = .framed
  · rw [ht] at hb
    obtain ⟨f, hf⟩ := hb
    have hold : (pt.remove vpn).1 = some f := hs.find_eq hf
    obtain ⟨a, ha⟩ := Option.isSome_iff_exists.mp
      (StackFrameAllocator.dealloc_isSome (hs.allocated f (PageTable.data_mem hf)))
    have hd : p.dealloc f = some { p with allocator := a } := by
      rw [Phys.dealloc, ha]
      rfl
    obtain ⟨_, hsame, _⟩ := removed_ahead hs hf hd
    obtain ⟨p', hun⟩ := hunmap ((hsame vpn).symm ▸ hleaf)
    refine ⟨(pt.remove vpn).2, p', ?_⟩
    simp only [unmapOne, ht, if_true, hold, Phys.dropFrame, hd, Option.map_some, Option.bind_eq_bind,
      Option.bind_some, hun]
  · obtain ⟨p', hun⟩ := hunmap hleaf
    refine ⟨pt, p', ?_⟩
    simp only [unmapOne, ht, if_false, Option.bind_eq_bind, Option.bind_some, hun]

theorem unmapOne_noLeak (hs : pt.Sound p) (hb : pt.Backed p area.mapType vpn)
    (h : area.unmapOne (pt, p) vpn = some (pt', p')) :
    pt'.metadataFrames = pt.metadataFrames ∧ NoLeak p.heap pt.owned p'.heap pt'.owned := by
  by_cases ht : area.mapType = .framed
  · rw [ht] at hb
    obtain ⟨f, hf⟩ := hb
    obtain ⟨rfl, p₁, hd, hun⟩ := unmapOne_framed_inv hs ht hf h
    obtain ⟨t, _, rfl⟩ := PageTable.unmap_cases hun
    refine ⟨rfl, fun g hg => ?_⟩
    obtain ⟨hlive, hne⟩ := ((Phys.dealloc_spec hd).2.1 g).mp hg
    by_cases hown : g ∈ pt.owned
    · left
      rcases List.mem_append.mp hown with hdata | hmeta
      · obtain ⟨e, he, rfl⟩ := List.mem_map.mp hdata
        apply PageTable.data_mem
        rw [PageTable.mem_remove]
        refine ⟨he, fun hev => hne ?_⟩
        have hleaf := (hs.recorded e he).2
        rw [hev, (hs.recorded _ hf).2] at hleaf
        exact (Option.some.inj hleaf).symm
      · exact List.mem_append_right _ hmeta
    · exact Or.inr ⟨hlive, hown⟩
  · obtain ⟨rfl, hun⟩ := unmapOne_other_inv ht h
    obtain ⟨t, _, rfl⟩ := PageTable.unmap_cases hun
    exact ⟨rfl, NoLeak.refl _ _⟩

end MapArea

/-- **The effect of unmapping the pages from `lo` to `hi`.** -/
structure Unmapped (pt : PageTable) (p : Phys) (lo hi : ℕ) (pt' : PageTable) (p' : Phys) : Prop where
  entry : ∀ v, v < vpnEnd → pt'.entry p' v = if lo ≤ v ∧ v < hi then none else pt.entry p v
  data : ∀ e, e ∈ pt'.dataFrames ↔ e ∈ pt.dataFrames ∧ ¬ (lo ≤ e.1 ∧ e.1 < hi)
  metadata : pt'.metadataFrames = pt.metadataFrames
  noLeak : NoLeak p.heap pt.owned p'.heap pt'.owned

theorem Unmapped.refl (pt : PageTable) (p : Phys) (lo : ℕ) : Unmapped pt p lo lo pt p := by
  have hempty : ∀ v, ¬ (lo ≤ v ∧ v < lo) := fun v hv => absurd hv.2 (Nat.not_lt.mpr hv.1)
  refine ⟨fun v _ => (if_neg (hempty v)).symm, fun e => ?_, rfl, NoLeak.refl _ _⟩
  exact (and_iff_left (hempty e.1)).symm

theorem Unmapped.trans {pt'' : PageTable} {p'' : Phys} {lo mid hi : ℕ} (hlo : lo ≤ mid)
    (hhi : mid ≤ hi) (h₁ : Unmapped pt p lo mid pt' p') (h₂ : Unmapped pt' p' mid hi pt'' p'') :
    Unmapped pt p lo hi pt'' p'' := by
  refine ⟨fun v hv => ?_, fun e => ?_, h₂.metadata.trans h₁.metadata, h₁.noLeak.trans h₂.noLeak⟩
  · rw [h₂.entry v hv, h₁.entry v hv]
    by_cases hin : mid ≤ v ∧ v < hi
    · rw [if_pos hin, if_pos ⟨by omega, hin.2⟩]
    · rw [if_neg hin]
      exact if_congr (by omega) rfl rfl
  · rw [h₂.data, h₁.data, and_assoc]
    exact and_congr_right fun _ => by omega

theorem MapArea.unmapOne_unmapped {vpn : ℕ}
    (hs : pt.Sound p) (hvpn : vpn < vpnEnd) (hb : pt.Backed p area.mapType vpn)
    (h : area.unmapOne (pt, p) vpn = some (pt', p')) : Unmapped pt p vpn (vpn + 1) pt' p' := by
  obtain ⟨hstep, hnone⟩ := unmapOne_spec hs hvpn hb h
  obtain ⟨hmetadata, hnoLeak⟩ := unmapOne_noLeak hs hb h
  refine ⟨fun v hv => ?_, fun e => ?_, hmetadata, hnoLeak⟩
  · by_cases heq : v = vpn
    · rw [if_pos (by omega), heq]
      rw [PageTable.leaf_eq_entry, Option.map_eq_none_iff] at hnone
      exact hnone
    · rw [if_neg (by omega), unmapOne_entry hs hvpn hb h hv heq]
  · by_cases heq : e.1 = vpn
    · refine iff_of_false (fun he => ?_) fun he => he.2 (by omega)
      have hleaf := (hstep.sound.recorded e he).2
      rw [heq, hnone] at hleaf
      cases hleaf
    · rw [hstep.data e heq]
      exact (and_iff_left (by omega)).symm

theorem Space.unmapOne_unmapped {zones : List Zone} {stop : ℕ} (n : ℕ) :
    ∀ {vpn : ℕ} {pt : PageTable} {p : Phys}, vpn + n = stop →
    Space L pt p (⟨vpn, stop, area.mapType⟩ :: zones) →
    ∃ pt' p', (List.range' vpn n).foldlM area.unmapOne (pt, p) = some (pt', p') ∧
      Unmapped pt p vpn stop pt' p' := by
  induction n with
  | zero =>
    intro vpn pt p hend _
    rw [Nat.add_zero] at hend
    subst hend
    exact ⟨pt, p, rfl, Unmapped.refl pt p vpn⟩
  | succ n ih =>
    intro vpn pt p hend hs
    have hlt : vpn < stop := by omega
    have hstop : stop ≤ vpnEnd := hs.bounded _ List.mem_cons_self
    have hb := hs.backed _ List.mem_cons_self vpn ⟨le_rfl, hlt⟩
    obtain ⟨pt₁, p₁, hone⟩ := MapArea.unmapOne_returns hs.sound hb
    obtain ⟨pt', p', hrest, hun⟩ := ih (by omega) (hs.unmapOne hlt hone).1
    have hfirst := MapArea.unmapOne_unmapped hs.sound (hlt.trans_le hstop) hb hone
    refine ⟨pt', p', ?_, hfirst.trans (Nat.le_succ vpn) hlt hun⟩
    rw [List.range'_succ, List.foldlM_cons, hone]
    exact hrest

/-- **`unmap` returns** and unmaps the pages of the area. -/
theorem MapArea.unmap_unmapped
    {zones : List Zone} (hs : Space L pt p (area.zone :: zones)) :
    ∃ pt' p', area.unmap (pt, p) = some (pt', p') ∧ Unmapped pt p area.start area.stop pt' p' := by
  have hend : area.start + (area.stop - area.start) = area.stop := Nat.add_sub_cancel' area.start_le
  exact Space.unmapOne_unmapped (area.stop - area.start) hend hs

theorem MapArea.unmapped_of_unmap
    {zones : List Zone} (hs : Space L pt p (area.zone :: zones))
    (h : area.unmap (pt, p) = some (pt', p')) : Unmapped pt p area.start area.stop pt' p' := by
  obtain ⟨pt₁, p₁, heq, hun⟩ := MapArea.unmap_unmapped hs
  rw [h, Option.some.injEq, Prod.mk.injEq] at heq
  obtain ⟨rfl, rfl⟩ := heq
  exact hun

/-! ### The flags of a memory set -/

namespace MemorySet

variable {L : Layout} {ms ms' : MemorySet} {p p' : Phys} {forgotten : List MapArea}

/-- The pages of the areas have the flags of their areas. -/
def Flagged (ms : MemorySet) (p : Phys) : Prop :=
  ∀ area ∈ ms.areas, ∀ v, area.zone.Contains v → area.PageFlags ms.pageTable p v

theorem Flagged.congr (hf : ms.Flagged p) (hi : ms.Inv L p forgotten)
    (h : ∀ f ∈ ms.pageTable.metadataFrames, p'.memory f = p.memory f) : ms.Flagged p' := by
  intro area ha v hv
  obtain ⟨e, he, hfl⟩ := hf area ha v hv
  exact ⟨e, (PageTable.entry_congr hi.sound.toTables h v).trans he, hfl⟩

/-- A mapped area joins the others. -/
theorem Flagged.push {area : MapArea} {pt : PageTable} (hf : ms.Flagged p) (hi : ms.Inv L p forgotten)
    (h : area.map (ms.pageTable, p) = some (pt, p')) : (⟨pt, ms.areas ++ [area]⟩ : MemorySet).Flagged p' := by
  have hm := MapArea.map_mapped hi.sound h
  intro a ha v hv
  rcases List.mem_append.mp ha with ha | ha
  · -- The page of an old area is not in the new one.
    have hout : ¬ area.zone.Contains v := fun hin =>
      (List.pairwise_cons.mp (hi.map h).1.disjoint).1 a.zone
        (List.mem_map_of_mem (List.mem_append_left _ ha)) v hin hv
    obtain ⟨e, he, hfl⟩ := hf a ha v hv
    exact ⟨e, (hm.other v (MapArea.vpn_lt hv) hout).trans he, hfl⟩
  · rw [List.mem_singleton.mp ha] at hv ⊢
    exact hm.flags v hv

theorem Flagged.remove {startVpn : ℕ} (hf : ms.Flagged p) (hi : ms.Inv L p forgotten)
    (h : ms.removeAreaWithStartVpn p startVpn = some (ms', p')) : ms'.Flagged p' := by
  rcases removeAreaWithStartVpn_inv h with ⟨rfl, rfl, -⟩ | ⟨area, -, hun, hperm⟩
  · exact hf
  · have hs := hi.perm (zones_perm hperm forgotten)
    intro a ha v hv
    have hout : ¬ area.zone.Contains v := fun hin =>
      (List.pairwise_cons.mp hs.disjoint).1 a.zone
        (List.mem_map_of_mem (List.mem_append_left _ ha)) v hin hv
    obtain ⟨e, he, hfl⟩ := hf a (hperm.mem_iff.mpr (List.mem_cons_of_mem area ha)) v hv
    have hsame := (MapArea.unmapped_of_unmap hs hun).entry v (MapArea.vpn_lt hv)
    rw [if_neg (show ¬ (area.start ≤ v ∧ v < area.stop) from hout)] at hsame
    exact ⟨e, hsame.trans he, hfl⟩

/-! ### Memory sets that the functions build -/

/-- The memory sets that the functions of `mm/memory_set.rs` build, with the areas that they have forgotten.
Between two calls the pages are written to, and others use other frames. -/
inductive Built (L : Layout) : MemorySet → List MapArea → Phys → Prop
  | newBare {ms : MemorySet} {p p' : Phys} : newBare p = some (ms, p') → Built L ms [] p'
  | mapTrampoline {ms ms' : MemorySet} {p p' : Phys} : Built L ms [] p → ms.areas = [] →
      ms.mapTrampoline L p = some (ms', p') → Built L ms' [] p'
  | push {ms ms' : MemorySet} {forgotten : List MapArea} {p p' : Phys} {area : MapArea} :
      Built L ms forgotten p → ms.push L p area none = some (ms', p') → Built L ms' forgotten p'
  /-- The kernel writes data through entries: its own set, which is not framed, is not filled so. -/
  | pushData {ms ms' : MemorySet} {p p' : Phys} {area : MapArea} {data : List ℕ} : Built L ms [] p →
      AllFramed ms.areas → ms.push L p area (some data) = some (ms', p') → Built L ms' [] p'
  | removeArea {ms ms' : MemorySet} {forgotten : List MapArea} {p p' : Phys} {startVpn : ℕ} :
      Built L ms forgotten p → ms.removeAreaWithStartVpn p startVpn = some (ms', p') →
      Built L ms' forgotten p'
  | recycleDataPages {ms : MemorySet} {forgotten : List MapArea} {p : Phys} : Built L ms forgotten p →
      Built L ms.recycleDataPages (ms.areas ++ forgotten) p
  | other {ms : MemorySet} {forgotten : List MapArea} {p p' : Phys} : Built L ms forgotten p →
      (∀ f ∈ ms.pageTable.frames, p'.allocator.Allocated f) →
      (∀ f ∈ ms.pageTable.metadataFrames, p'.memory f = p.memory f) → Built L ms forgotten p'

theorem push_inv {area : MapArea} (h : ms.push L p area none = some (ms', p')) :
    area.map (ms.pageTable, p) = some (ms'.pageTable, p') ∧ ms' = ⟨ms'.pageTable, ms.areas ++ [area]⟩ := by
  simp only [push, Option.bind_eq_bind, Option.bind_eq_some_iff, Option.some.injEq, Prod.mk.injEq,
    Prod.exists] at h
  obtain ⟨pt, p₁, hmap, p₂, rfl, rfl, rfl⟩ := h
  exact ⟨hmap, rfl⟩

/-- **A memory set in order** whose pages have the flags of their areas. -/
theorem Built.formed (h : Built L ms forgotten p) : ms.Inv L p forgotten ∧ ms.Flagged p := by
  induction h with
  | newBare hnew =>
    obtain ⟨hw, ha⟩ := newBare_spec L hnew
    refine ⟨hw.inv, fun area harea => ?_⟩
    rw [ha] at harea
    exact absurd harea List.not_mem_nil
  | mapTrampoline _ ha hmap ih =>
    obtain ⟨hw, ha'⟩ := mapTrampoline_spec ih.1 ha hmap
    refine ⟨hw.inv, fun area harea => ?_⟩
    rw [ha'] at harea
    exact absurd harea List.not_mem_nil
  | push _ hpush ih =>
    obtain ⟨hmap, heq⟩ := push_inv hpush
    refine ⟨(push_spec ih.1 hpush).1.inv, ?_⟩
    rw [heq]
    exact ih.2.push ih.1 hmap
  | pushData _ hfr hpush ih =>
    obtain ⟨pt, p₁, hmap, hcopy, rfl, hfr'⟩ := push_data_inv hfr hpush
    have hs : Inv L ⟨pt, _⟩ p₁ [] := (ih.1.map hmap).1.perm (zones_push _ pt _ [])
    rw [Inv, zones, List.append_nil] at hs
    refine ⟨(push_data_spec ih.1 hfr hpush).1.inv, ?_⟩
    exact (ih.2.push ih.1 hmap).congr ((ih.1.map hmap).1.perm (zones_push _ pt _ []))
      (copyData_spec hs hfr' hcopy).2.2
  | removeArea _ hrem ih => exact ⟨(removeAreaWithStartVpn_spec ih.1 hrem).inv, ih.2.remove ih.1 hrem⟩
  | recycleDataPages _ ih =>
    exact ⟨recycleDataPages_spec ih.1, fun area harea => absurd harea List.not_mem_nil⟩
  | other _ hal hmem ih => exact ⟨ih.1.congr hal hmem, ih.2.congr ih.1 hmem⟩

end MemorySet

end LemonCore.Kernel.Mm
