import LemonCore.Kernel.AddressSpaces
import LemonCore.Kernel.FrameBudget

/-!
# Copies of address spaces

`MemorySet::clone` (`mm/memory_set.rs`) is how `fork` makes the memory of the child.

* `Mirror`: a page of the copy holds what the page of the original held when the copying began;
* `clonePage_mirror`, `cloneArea_mirror`: each page and each area that is copied is mirrored, and what was
  mirrored before stays so.  A page that is not framed has the same frame in both spaces: it is mirrored as
  long as the allocator does not hand out that frame in the meantime (`FixedPages`);
* `CloneOk`, `clone_mirrors`: what the copy and the original hold afterwards;
* `clone_returns`: the copy succeeds if there are enough frames, three for a page at most.
-/

namespace LemonCore.Kernel.Mm

open Foundation.SharedHeap

namespace MemorySet

variable {L : Layout} {src ms ms' : MemorySet} {p p' q q' : Phys} {forgotten : List MapArea} {v : ℕ}

/-! ### What a memory set shows -/

/-- A page of the areas of the set. -/
def Page (ms : MemorySet) (v : ℕ) : Prop := ∃ area ∈ ms.areas, area.zone.Contains v

def FramedPage (ms : MemorySet) (v : ℕ) : Prop :=
  ∃ area ∈ ms.areas, area.mapType = .framed ∧ area.zone.Contains v

/-- The content of a page. -/
def content (ms : MemorySet) (p : Phys) (v : ℕ) : Option (ℕ → ℕ) := (ms.pageTable.leaf p v).map p.memory

/-- The flags of a page. -/
def flags (ms : MemorySet) (p : Phys) (v : ℕ) : Option ℕ := (ms.pageTable.entry p v).map pteFlags

/-- The frames behind the framed pages. -/
def framedFrames (ms : MemorySet) (p : Phys) : Set ℕ :=
  {f | ∃ v, ms.FramedPage v ∧ ms.pageTable.leaf p v = some f}

/-- The pages that are not framed lie on frames that are in use and not the set's own, such as the image
of the kernel or the registers of a device. -/
def FixedPages (ms : MemorySet) (p : Phys) : Prop :=
  ∀ area ∈ ms.areas, area.mapType ≠ .framed → ∀ v, area.zone.Contains v → ∀ g,
    ms.pageTable.leaf p v = some g → p.allocator.Allocated g ∧ g ∉ ms.pageTable.frames

/-- The record of a framed page. -/
theorem Inv.recorded (hi : ms.Inv L p forgotten) (hv : ms.FramedPage v) :
    ∃ f, (v, f) ∈ ms.pageTable.dataFrames ∧ ms.pageTable.leaf p v = some f := by
  obtain ⟨area, ha, hty, hin⟩ := hv
  have hb := hi.backed area.zone (List.mem_map_of_mem (List.mem_append_left _ ha)) v hin
  have hz : area.zone.mapType = .framed := hty
  rw [hz] at hb
  obtain ⟨f, hf⟩ := hb
  exact ⟨f, hf, (hi.sound.recorded _ hf).2⟩

theorem Inv.framed_recorded (hi : ms.Inv L p forgotten) {f : ℕ} (hf : f ∈ ms.framedFrames p) :
    ∃ w, (w, f) ∈ ms.pageTable.dataFrames := by
  obtain ⟨w, hw, hleaf⟩ := hf
  obtain ⟨f', hrec, hleaf'⟩ := hi.recorded hw
  rw [hleaf, Option.some.injEq] at hleaf'
  exact ⟨w, hleaf' ▸ hrec⟩

theorem Inv.live_leaf (hi : ms.Inv L p forgotten) (hx : ms.FixedPages p) (hv : ms.Page v) :
    ∃ g, ms.pageTable.leaf p v = some g ∧ p.allocator.Allocated g := by
  obtain ⟨area, ha, hin⟩ := hv
  by_cases hty : area.mapType = .framed
  · obtain ⟨f, hf, hleaf⟩ := hi.recorded ⟨area, ha, hty, hin⟩
    exact ⟨f, hleaf, hi.sound.allocated f (PageTable.data_mem hf)⟩
  · have hb := hi.backed area.zone (List.mem_map_of_mem (List.mem_append_left _ ha)) v hin
    obtain ⟨g, hg⟩ := Option.ne_none_iff_exists'.mp (hb.leaf_ne_none hi.sound)
    exact ⟨g, hg, (hx area ha hty v hin g hg).1⟩

/-- The building of a new set does not touch a frame in use. -/
theorem Work.kept (hw : Work L p ∅ ms q []) {f : ℕ} (hf : p.allocator.Allocated f) :
    q.allocator.Allocated f ∧ q.memory f = p.memory f :=
  hw.footprint.kept f hf (Set.notMem_empty f)

/-- The frames of a new set were not in use. -/
theorem Work.new (hw : Work L p ∅ ms q []) {f : ℕ} (hf : f ∈ ms.pageTable.frames) :
    ¬ p.allocator.Allocated f := (hw.footprint.fresh f hf).resolve_left (Set.notMem_empty f)

theorem Work.tables_kept (hw : Work L p ∅ ms q []) (hi : src.Inv L p forgotten) :
    ∀ f ∈ src.pageTable.metadataFrames, q.memory f = p.memory f := fun f hf =>
  (hw.kept (hi.sound.allocated f (PageTable.metadata_mem hf))).2

/-! ### Mirrored pages -/

/-- The page `v` of `pt` holds what the page of `src` held at `p`; its frame was in use at `p`, or is one
that `pt` has taken for the page. -/
def Mirror (src : PageTable) (p : Phys) (pt : PageTable) (q : Phys) (v : ℕ) : Prop :=
  ∃ g f, src.leaf p v = some g ∧ pt.leaf q v = some f ∧ q.memory f = p.memory g ∧
    (p.allocator.Allocated f ∨ (v, f) ∈ pt.dataFrames)

theorem Work.mirror_frame (hw : Work L p ∅ ms q []) {f : ℕ}
    (hf : p.allocator.Allocated f ∨ (v, f) ∈ ms.pageTable.dataFrames) :
    q.allocator.Allocated f ∧ f ∉ ms.pageTable.metadataFrames := by
  rcases hf with hf | hf
  · exact ⟨(hw.kept hf).1, fun hm => hw.new (PageTable.metadata_mem hm) hf⟩
  · exact ⟨hw.inv.sound.allocated f (PageTable.data_mem hf), hw.inv.sound.data_not_metadata hf⟩

/-- Mapping another area keeps a page mirrored: only tables are written to. -/
theorem Mirror.mapped {pt : PageTable} {area : MapArea} (hw : Work L p ∅ ms q [])
    (hm : area.Mapped ms.pageTable q pt q') (hv : v < vpnEnd) (hout : ¬ area.zone.Contains v)
    (h : Mirror src.pageTable p ms.pageTable q v) : Mirror src.pageTable p pt q' v := by
  obtain ⟨g, f, hg, hf, hcontent, hkind⟩ := h
  obtain ⟨hlive, hnot⟩ := hw.mirror_frame hkind
  refine ⟨g, f, hg, ?_, ?_, hkind.imp id (hm.data (v, f) hout).mpr⟩
  · rw [PageTable.leaf_eq_entry, hm.other v hv hout, ← PageTable.leaf_eq_entry]
    exact hf
  · exact (hm.tablesOnly.kept f hlive hnot).2.trans hcontent

theorem clonePage_store (hsrc : src.Inv L p forgotten) (hx : src.FixedPages p) (hw : Work L p ∅ ms q [])
    (hv : src.Page v) {f : ℕ} (hf : ms.pageTable.leaf q v = some f) :
    ∃ g, src.pageTable.leaf p v = some g ∧ p.allocator.Allocated g ∧
      clonePage L src.pageTable ms.pageTable q v = q.store L f (p.memory g) := by
  obtain ⟨g, hg, hlive⟩ := hsrc.live_leaf hx hv
  have hg' : src.pageTable.leaf q v = some g :=
    (PageTable.leaf_congr hsrc.sound.toTables (hw.tables_kept hsrc) v).trans hg
  have hcontent : q.memory g = p.memory g := (hw.kept hlive).2
  refine ⟨g, hg, hlive, ?_⟩
  rw [clonePage_eq hg' hf, hcontent]

/-- The frame of a page of an area that is in both sets: one of the copy's own, or the same as in the
original. -/
theorem copy_leaf (hsrc : src.Inv L p forgotten) (hx : src.FixedPages p) (hw : Work L p ∅ ms q [])
    {area : MapArea} (ha : area ∈ src.areas) (ha' : area ∈ ms.areas) (hv : area.zone.Contains v) :
    (∃ f, (v, f) ∈ ms.pageTable.dataFrames ∧ ms.pageTable.leaf q v = some f) ∨
      area.mapType ≠ .framed ∧ ∃ g, src.pageTable.leaf p v = some g ∧ ms.pageTable.leaf q v = some g ∧
        p.allocator.Allocated g ∧ g ∉ src.pageTable.frames := by
  by_cases hty : area.mapType = .framed
  · exact Or.inl (hw.inv.recorded ⟨area, ha', hty, hv⟩)
  · obtain ⟨g, hg, -⟩ := hsrc.live_leaf hx ⟨area, ha, hv⟩
    have hbs := hsrc.backed area.zone (List.mem_map_of_mem (List.mem_append_left _ ha)) v hv
    have hbd := hw.inv.backed area.zone (List.mem_map_of_mem (List.mem_append_left _ ha')) v hv
    refine Or.inr ⟨hty, g, hg, ?_, hx area ha hty v hv g hg⟩
    cases htype : area.zone.mapType with
    | framed => exact absurd htype hty
    | identical =>
      rw [htype] at hbs hbd
      rw [hbd.1, ← hbs.1, hg]
    | linear off =>
      rw [htype] at hbs hbd
      rw [hbd.1, ← hbs.1, hg]

/-- **One page copied**: it is mirrored then, and every page that was mirrored stays so. -/
theorem clonePage_mirror (hsrc : src.Inv L p forgotten) (hx : src.FixedPages p) (hw : Work L p ∅ ms q [])
    {area : MapArea} (ha : area ∈ src.areas) (ha' : area ∈ ms.areas) (hv : area.zone.Contains v)
    (h : clonePage L src.pageTable ms.pageTable q v = some q') :
    Mirror src.pageTable p ms.pageTable q' v ∧
      (∀ c, Mirror src.pageTable p ms.pageTable q c → Mirror src.pageTable p ms.pageTable q' c) ∧
      ∀ f ∈ ms.pageTable.metadataFrames, q'.memory f = q.memory f := by
  rcases copy_leaf hsrc hx hw ha ha' hv with ⟨f, hrec, hf⟩ | ⟨-, g, hg, hf, hlive, -⟩
  · obtain ⟨g, hg, -, heq⟩ := clonePage_store hsrc hx hw ⟨area, ha, hv⟩ hf
    rw [heq, Phys.store] at h
    split at h
    · obtain rfl := Option.some.inj h
      have htables : ∀ t ∈ ms.pageTable.metadataFrames,
          (q.setFrame f (p.memory g)).memory t = q.memory t := by
        intro t ht
        have hne : t ≠ f := fun heq => hw.inv.sound.data_not_metadata hrec (heq ▸ ht)
        exact Phys.setFrame_memory_of_ne hne _
      have hleaf := PageTable.leaf_congr hw.inv.sound.toTables htables
      refine ⟨⟨g, f, hg, (hleaf v).trans hf, q.setFrame_memory_self f _, Or.inr hrec⟩, ?_, htables⟩
      rintro c ⟨gc, fc, hgc, hfc, hcontent, hkind⟩
      refine ⟨gc, fc, hgc, (hleaf c).trans hfc, ?_, hkind⟩
      by_cases hsame : fc = f
      · -- The frame was taken for one page only.
        have hcv : c = v := by
          rcases hkind with hlive | hrec'
          · exact absurd (hsame ▸ hlive) (hw.new (PageTable.data_mem hrec))
          · have hinj := List.inj_on_of_nodup_map (List.nodup_append.mp hw.inv.sound.nodup).1
            exact congrArg Prod.fst (hinj hrec' hrec hsame)
        rw [hcv, hg, Option.some.injEq] at hgc
        rw [hsame, ← hgc, q.setFrame_memory_self f]
      · rw [Phys.setFrame_memory_of_ne hsame, hcontent]
    · cases h
  · obtain ⟨g', hg', -, heq⟩ := clonePage_store hsrc hx hw ⟨area, ha, hv⟩ hf
    have hcontent : q.memory g = p.memory g := (hw.kept hlive).2
    rw [hg, Option.some.injEq] at hg'
    rw [heq, Phys.store] at h
    split at h
    · -- The page has the same frame in both spaces: nothing is changed.
      obtain rfl : q = q' := by
        rw [← Option.some.inj h, ← hg', ← hcontent, Phys.setFrame, Function.update_eq_self]
      exact ⟨⟨g, g, hg, hf, hcontent, Or.inl hlive⟩, fun c hc => hc, fun f _ => rfl⟩
    · cases h

/-- **One area copied.** -/
theorem cloneArea_mirror (hsrc : src.Inv L p forgotten) (hx : src.FixedPages p) {area : MapArea}
    (ha : area ∈ src.areas) (hw : Work L p ∅ ms q [])
    (hdone : ∀ v, ms.Page v → Mirror src.pageTable p ms.pageTable q v)
    (h : cloneArea L src (ms, q) area = some (ms', q')) :
    ms'.areas = ms.areas ++ [area] ∧ ∀ v, ms'.Page v → Mirror src.pageTable p ms'.pageTable q' v := by
  simp only [cloneArea, Option.bind_eq_bind, Option.bind_eq_some_iff, Option.some.injEq,
    Prod.mk.injEq, Prod.exists] at h
  obtain ⟨ms₂, q₂, hpush, q₃, hcopy, rfl, rfl⟩ := h
  obtain ⟨hw₂, hareas⟩ := push_spec hw.inv hpush
  obtain ⟨hmap, -⟩ := push_inv hpush
  have hm := MapArea.map_mapped hw.inv.sound hmap
  have ha' : area ∈ ms₂.areas := by simp [hareas]
  obtain ⟨-, hall, hold⟩ := foldlM_forall (fun q : Phys => Work L p ∅ ms₂ q [])
    (fun v q => Mirror src.pageTable p ms₂.pageTable q v) area.vpns
    (by
      intro q₀ v q₁ hv hw₀ hone
      have hin := mem_vpns hv
      obtain ⟨hs, hf⟩ := clonePage_spec (hw₀.other hsrc) hw₀.inv
        (List.mem_map_of_mem (List.mem_append_left _ ha)) (List.mem_map_of_mem (List.mem_append_left _ ha'))
        hin hone
      exact ⟨hw₀.trans ⟨hs, hf⟩, (clonePage_mirror hsrc hx hw₀ ha ha' hin hone).1⟩)
    (fun q₀ v q₁ c hv hw₀ hc hone => (clonePage_mirror hsrc hx hw₀ ha ha' (mem_vpns hv) hone).2.1 c hc)
    (hw.trans hw₂) hcopy
  refine ⟨hareas, ?_⟩
  rintro v ⟨a, haa, hv⟩
  by_cases hin : area.zone.Contains v
  · exact hall v (MapArea.mem_vpns_iff.mpr hin)
  · rw [hareas, List.mem_append, List.mem_singleton] at haa
    rcases haa with haa | haa
    · exact hold v ((hdone v ⟨a, haa, hv⟩).mapped hw hm (MapArea.vpn_lt hv) hin)
    · exact absurd (haa ▸ hv) hin

theorem clone_inv (h : src.clone L p = some (ms', p')) :
    ∃ ms p₀ ms₁ p₁, newBare p = some (ms, p₀) ∧ ms.mapTrampoline L p₀ = some (ms₁, p₁) ∧
      src.areas.foldlM (cloneArea L src) (ms₁, p₁) = some (ms', p') := by
  simp only [clone, Option.bind_eq_bind, Option.bind_eq_some_iff, Prod.exists] at h
  obtain ⟨ms, p₀, hbare, ms₁, p₁, htr, hfold⟩ := h
  exact ⟨ms, p₀, ms₁, p₁, hbare, htr, hfold⟩

/-- The loop over the areas, by induction on the areas still to come. -/
theorem cloneAreas_mirror (hsrc : src.Inv L p forgotten) (hx : src.FixedPages p) (areas : List MapArea) :
    ∀ {ms : MemorySet} {q : Phys}, (∀ a ∈ areas, a ∈ src.areas) → Work L p ∅ ms q [] →
      (∀ v, ms.Page v → Mirror src.pageTable p ms.pageTable q v) →
      areas.foldlM (cloneArea L src) (ms, q) = some (ms', q') →
      ms'.areas = ms.areas ++ areas ∧ Work L p ∅ ms' q' [] ∧
        ∀ v, ms'.Page v → Mirror src.pageTable p ms'.pageTable q' v := by
  induction areas with
  | nil =>
    intro ms q _ hw hdone h
    obtain ⟨rfl, rfl⟩ : ms = ms' ∧ q = q' := by simpa using h
    exact ⟨(List.append_nil _).symm, hw, hdone⟩
  | cons area areas ih =>
    intro ms q hsub hw hdone h
    rw [List.foldlM_cons, Option.bind_eq_bind, Option.bind_eq_some_iff] at h
    obtain ⟨⟨ms₁, q₁⟩, hone, hrest⟩ := h
    have ha := hsub area List.mem_cons_self
    obtain ⟨hareas, hdone₁⟩ := cloneArea_mirror hsrc hx ha hw hdone hone
    obtain ⟨hareas', hw', hdone'⟩ := ih (fun a ha => hsub a (List.mem_cons_of_mem area ha))
      (cloneArea_spec hsrc ha hw hone) hdone₁ hrest
    refine ⟨?_, hw', hdone'⟩
    rw [hareas', hareas, List.append_assoc]
    rfl

/-- One turn of the loop builds a set, as far as the functions of `mm/memory_set.rs` go: the area is pushed,
and its pages are written to. -/
theorem cloneArea_built (hsrc : src.Inv L p forgotten) (hx : src.FixedPages p) {area : MapArea}
    (ha : area ∈ src.areas) (hw : Work L p ∅ ms q []) (hb : Built L ms [] q)
    (h : cloneArea L src (ms, q) area = some (ms', q')) : Built L ms' [] q' := by
  have hw' := cloneArea_spec hsrc ha hw h
  simp only [cloneArea, Option.bind_eq_bind, Option.bind_eq_some_iff, Option.some.injEq,
    Prod.mk.injEq, Prod.exists] at h
  obtain ⟨ms₂, q₂, hpush, q₃, hcopy, rfl, rfl⟩ := h
  obtain ⟨hw₂, hareas⟩ := push_spec hw.inv hpush
  have ha' : area ∈ ms₂.areas := by simp [hareas]
  refine (hb.push hpush).other hw'.inv.sound.allocated ?_
  refine (foldlM_invariant (fun q : Phys => Work L p ∅ ms₂ q [] ∧
    ∀ f ∈ ms₂.pageTable.metadataFrames, q.memory f = q₂.memory f) area.vpns ?_
    ⟨hw.trans hw₂, fun f _ => rfl⟩ hcopy).2
  rintro q₀ v q₁ hv ⟨hw₀, hsame⟩ hone
  have hin := mem_vpns hv
  obtain ⟨hs, hf⟩ := clonePage_spec (hw₀.other hsrc) hw₀.inv
    (List.mem_map_of_mem (List.mem_append_left _ ha)) (List.mem_map_of_mem (List.mem_append_left _ ha'))
    hin hone
  have htables := (clonePage_mirror hsrc hx hw₀ ha ha' hin hone).2.2
  exact ⟨hw₀.trans ⟨hs, hf⟩, fun f hf => (htables f hf).trans (hsame f hf)⟩

theorem clone_built (hsrc : src.Inv L p forgotten) (hx : src.FixedPages p)
    (h : src.clone L p = some (ms', p')) : Built L ms' [] p' := by
  obtain ⟨ms, p₀, ms₁, p₁, hbare, htr, hfold⟩ := clone_inv h
  obtain ⟨hw₀, ha₀⟩ := newBare_spec L hbare
  have hw₁ := hw₀.trans (mapTrampoline_spec hw₀.inv ha₀ htr).1
  have hb₁ := (Built.newBare hbare).mapTrampoline ha₀ htr
  refine (foldlM_invariant (fun st : MemorySet × Phys => Work L p ∅ st.1 st.2 [] ∧ Built L st.1 [] st.2)
    src.areas ?_ ⟨hw₁, hb₁⟩ hfold).2
  rintro ⟨ms₂, p₂⟩ area ⟨ms₃, p₃⟩ ha ⟨hw₂, hb₂⟩ hone
  exact ⟨cloneArea_spec hsrc ha hw₂ hone, cloneArea_built hsrc hx ha hw₂ hb₂ hone⟩

/-! ### The copy and the original -/

/-- The same memory, except for some frames. -/
def SameOutside (frames : Set ℕ) (q q' : Phys) : Prop := ∀ f ∉ frames, q'.memory f = q.memory f

/-- **What `clone` is for.** -/
structure CloneOk (src : MemorySet) (p : Phys) (ms' : MemorySet) (p' : Phys) : Prop where
  areas : ms'.areas = src.areas
  flags : ∀ v, src.Page v → src.flags p v ≠ none ∧ ms'.flags p' v = src.flags p v
  content : ∀ v, src.Page v → src.content p v ≠ none ∧ ms'.content p' v = src.content p v
  /-- The framed pages of the copy lie on new frames. -/
  fresh : ∀ v, src.FramedPage v → ∃ f, ms'.pageTable.leaf p' v = some f ∧ ¬ p.allocator.Allocated f ∧
    p'.allocator.Allocated f ∧ f ∉ src.pageTable.frames
  /-- The original is as it was. -/
  original : (∀ v, src.pageTable.entry p' v = src.pageTable.entry p v) ∧
    ∀ v, src.Page v → src.content p' v = src.content p v
  /-- After any writes to the framed pages of the two, the copy shows nothing of those to the original. -/
  unseen : ∀ q q', SameOutside (src.framedFrames p' ∪ ms'.framedFrames p') p' q →
    SameOutside (src.framedFrames p') q q' → ∀ v, src.Page v → ms'.content q' v = ms'.content q v
  /-- And the original shows nothing of the writes to the copy. -/
  unseen' : ∀ q q', SameOutside (src.framedFrames p' ∪ ms'.framedFrames p') p' q →
    SameOutside (ms'.framedFrames p') q q' → ∀ v, src.Page v → src.content q' v = src.content q v

theorem Flagged.flags_eq (hf : ms.Flagged p) {area : MapArea} (ha : area ∈ ms.areas)
    (hv : area.zone.Contains v) : ms.flags p v = some (area.mapPerm.bits ||| pteV) := by
  obtain ⟨e, he, hfl⟩ := hf area ha v hv
  rw [flags, he, Option.map_some, hfl]

theorem content_eq (hi : ms.Inv L p forgotten) {f : ℕ} (hf : ms.pageTable.leaf p v = some f)
    (hq : ∀ t ∈ ms.pageTable.metadataFrames, q.memory t = p.memory t) :
    ms.content q v = some (q.memory f) := by
  rw [content, PageTable.leaf_congr hi.sound.toTables hq v, hf, Option.map_some]

/-- **Writes to framed pages of one set** are not seen in another whose pages have other frames. -/
theorem content_unseen {other : MemorySet} {fgt : List MapArea} (hi : ms.Inv L p forgotten)
    (hio : other.Inv L p fgt) (hapart : ∀ f ∈ other.pageTable.frames, f ∉ ms.pageTable.frames)
    (hpages : ∀ f ∈ other.framedFrames p, ms.pageTable.leaf p v ≠ some f)
    (hsome : ms.pageTable.leaf p v ≠ none)
    (hq : SameOutside (ms.framedFrames p ∪ other.framedFrames p) p q)
    (hq' : SameOutside (other.framedFrames p) q q') : ms.content q' v = ms.content q v := by
  have hother : ∀ t ∈ ms.pageTable.metadataFrames, t ∉ other.framedFrames p := by
    intro t ht hmem
    obtain ⟨w, hw⟩ := hio.framed_recorded hmem
    exact hapart t (PageTable.data_mem hw) (PageTable.metadata_mem ht)
  have htables : ∀ t ∈ ms.pageTable.metadataFrames, q.memory t = p.memory t := by
    intro t ht
    refine hq t fun hmem => ?_
    rcases hmem with hmem | hmem
    · obtain ⟨w, hw⟩ := hi.framed_recorded hmem
      exact hi.sound.data_not_metadata hw ht
    · exact hother t ht hmem
  obtain ⟨f, hf⟩ := Option.ne_none_iff_exists'.mp hsome
  have hf' : f ∉ other.framedFrames p := fun hmem => hpages f hmem hf
  rw [content_eq hi hf htables, content_eq hi hf fun t ht => (hq' t (hother t ht)).trans (htables t ht),
    hq' f hf']

/-- **The copy is right** whenever `clone` returns. -/
theorem clone_mirrors (hb : Built L src forgotten p) (hx : src.FixedPages p)
    (h : src.clone L p = some (ms', p')) : CloneOk src p ms' p' := by
  obtain ⟨hsrc, hflags⟩ := hb.formed
  have hflags' := (clone_built hsrc hx h).formed.2
  obtain ⟨ms, p₀, ms₁, p₁, hbare, htr, hfold⟩ := clone_inv h
  obtain ⟨hw₀, ha₀⟩ := newBare_spec L hbare
  obtain ⟨hw₁, ha₁⟩ := mapTrampoline_spec hw₀.inv ha₀ htr
  have hnone : ∀ v, ms₁.Page v → Mirror src.pageTable p ms₁.pageTable p₁ v := by
    rintro v ⟨area, harea, _⟩
    rw [ha₁] at harea
    exact absurd harea List.not_mem_nil
  obtain ⟨hareas, hw, hmirror⟩ := cloneAreas_mirror hsrc hx src.areas (fun a ha => ha)
    (hw₀.trans hw₁) hnone hfold
  rw [ha₁, List.nil_append] at hareas
  have hsrc' : src.Inv L p' forgotten := hw.other hsrc
  have htables := hw.tables_kept hsrc
  have hleaf := PageTable.leaf_congr hsrc.sound.toTables htables
  have hpage : ∀ {v}, src.Page v → ms'.Page v := by
    rintro v ⟨a, ha, hv⟩
    exact ⟨a, hareas ▸ ha, hv⟩
  have hold : ∀ f ∈ src.pageTable.frames, p.allocator.Allocated f := hsrc.sound.allocated
  have hapart : ∀ f ∈ src.pageTable.frames, f ∉ ms'.pageTable.frames := fun f hs hf => hw.new hf (hold f hs)
  refine ⟨hareas, ?_, ?_, ?_, ?_, ?_, ?_⟩
  · rintro v ⟨area, ha, hv⟩
    rw [hflags.flags_eq ha hv, hflags'.flags_eq (hareas ▸ ha) hv]
    exact ⟨Option.some_ne_none _, rfl⟩
  · intro v hv
    obtain ⟨g, f, hg, hf, hcontent, -⟩ := hmirror v (hpage hv)
    rw [content, content, hg, hf, Option.map_some, Option.map_some, hcontent]
    exact ⟨Option.some_ne_none _, rfl⟩
  · rintro v ⟨area, ha, hty, hv⟩
    obtain ⟨f, hrec, hf⟩ := hw.inv.recorded ⟨area, hareas ▸ ha, hty, hv⟩
    have hmem := PageTable.data_mem hrec
    exact ⟨f, hf, hw.new hmem, hw.inv.sound.allocated f hmem, fun hs => hw.new hmem (hold f hs)⟩
  · refine ⟨PageTable.entry_congr hsrc.sound.toTables htables, fun v hv => ?_⟩
    obtain ⟨g, hg, hlive⟩ := hsrc.live_leaf hx hv
    rw [content_eq hsrc hg htables, content, hg, Option.map_some, (hw.kept hlive).2]
  · intro q q' hq hq' v hv
    rw [Set.union_comm] at hq
    obtain ⟨g, f, -, hf, -⟩ := hmirror v (hpage hv)
    refine content_unseen hw.inv hsrc' hapart ?_ (by simp [hf]) hq hq'
    intro s hs hsv
    obtain ⟨w, hrec⟩ := hsrc'.framed_recorded hs
    have hmem : s ∈ src.pageTable.frames := PageTable.data_mem hrec
    obtain ⟨area, ha, hin⟩ := hv
    rcases copy_leaf hsrc hx hw ha (hareas ▸ ha) hin with ⟨f', hrec', hf'⟩ | ⟨-, g', -, hf', -, hout⟩
    · rw [hsv, Option.some.injEq] at hf'
      exact hw.new (hf' ▸ PageTable.data_mem hrec') (hold s hmem)
    · rw [hsv, Option.some.injEq] at hf'
      exact hout (hf' ▸ hmem)
  · intro q q' hq hq' v hv
    obtain ⟨g, hg, hlive⟩ := hsrc.live_leaf hx hv
    have hg' := (hleaf v).trans hg
    refine content_unseen hsrc' hw.inv (fun f hf hs => hapart f hs hf) ?_ (by simp [hg']) hq hq'
    intro s hs hsv
    obtain ⟨w, hrec⟩ := hw.inv.framed_recorded hs
    rw [hg', Option.some.injEq] at hsv
    exact hw.new (PageTable.data_mem hrec) (hsv ▸ hlive)

/-! ### The copy returns -/

/-- The number of pages of some areas. -/
def pageCount (areas : List MapArea) : ℕ := (areas.map fun area => area.stop - area.start).sum

/-- The kernel can write to the frames of the pages that are not framed. -/
def WritablePages (L : Layout) (ms : MemorySet) (p : Phys) : Prop :=
  ∀ area ∈ ms.areas, area.mapType ≠ .framed → ∀ v, area.zone.Contains v → ∀ g,
    ms.pageTable.leaf p v = some g → L.Writable g

theorem clonePage_returns (hsrc : src.Inv L p forgotten) (hx : src.FixedPages p)
    (hwr : WritablePages L src p) (hw : Work L p ∅ ms q []) {n : ℕ} (hr : Ready L ms.pageTable q n)
    {area : MapArea} (ha : area ∈ src.areas) (ha' : area ∈ ms.areas) (hv : area.zone.Contains v) :
    ∃ q', clonePage L src.pageTable ms.pageTable q v = some q' ∧ Ready L ms.pageTable q' n := by
  have hstored : ∀ {f : ℕ}, ms.pageTable.leaf q v = some f → L.Writable f →
      ∃ q', clonePage L src.pageTable ms.pageTable q v = some q' ∧ Ready L ms.pageTable q' n := by
    intro f hf hwf
    obtain ⟨g, -, -, heq⟩ := clonePage_store hsrc hx hw ⟨area, ha, hv⟩ hf
    refine ⟨q.setFrame f (p.memory g), ?_, hr.frames, hr.free, hr.data⟩
    rw [heq, Phys.store, if_pos hwf]
  rcases copy_leaf hsrc hx hw ha ha' hv with ⟨f, hrec, hf⟩ | ⟨hty, g, hg, hf, -, -⟩
  · exact hstored hf (hr.data _ hrec)
  · exact hstored hf (hwr area ha hty v hv g hg)

/-- **One area is copied** if none of its pages is mapped in the copy; the other pages stay. -/
theorem cloneArea_returns (hsrc : src.Inv L p forgotten) (hx : src.FixedPages p)
    (hwr : WritablePages L src p) (hw : Work L p ∅ ms q []) {area : MapArea} {n : ℕ}
    (ha : area ∈ src.areas) (hr : Ready L ms.pageTable q (n + 3 * (area.stop - area.start)))
    (hnone : ∀ v, area.zone.Contains v → ms.pageTable.leaf q v = none) :
    ∃ ms' q', cloneArea L src (ms, q) area = some (ms', q') ∧ Ready L ms'.pageTable q' n ∧
      ∀ v, v < vpnEnd → ¬ area.zone.Contains v → ms'.pageTable.leaf q' v = ms.pageTable.leaf q v := by
  obtain ⟨pt, q₂, hmap, hr₂⟩ := hr.mapArea hw.inv.sound hnone
  have hm := MapArea.map_mapped hw.inv.sound hmap
  have hpush : ms.push L q area none = some (⟨pt, ms.areas ++ [area]⟩, q₂) := by
    rw [push, hmap]
    rfl
  have hw₂ := hw.trans (push_spec hw.inv hpush).1
  have ha' : area ∈ ms.areas ++ [area] := by simp
  obtain ⟨q₃, hcopy, -, hr₃, -, hleaf₃⟩ := foldlM_returns
    (fun (rest : List ℕ) (q : Phys) => Work L p ∅ ⟨pt, ms.areas ++ [area]⟩ q [] ∧ Ready L pt q n ∧
      (∀ v ∈ rest, area.zone.Contains v) ∧ ∀ v, pt.leaf q v = pt.leaf q₂ v)
    (by
      rintro v rest q ⟨hwq, hrq, hin, hleaf⟩
      have hv := hin v List.mem_cons_self
      obtain ⟨q', hone, hr'⟩ := clonePage_returns hsrc hx hwr hwq hrq ha ha' hv
      obtain ⟨hs, hf⟩ := clonePage_spec (hwq.other hsrc) hwq.inv
        (List.mem_map_of_mem (List.mem_append_left _ ha)) (List.mem_map_of_mem (List.mem_append_left _ ha'))
        hv hone
      have htables := (clonePage_mirror hsrc hx hwq ha ha' hv hone).2.2
      refine ⟨q', hone, hwq.trans ⟨hs, hf⟩, hr', fun w hw => hin w (List.mem_cons_of_mem v hw), fun w => ?_⟩
      exact (PageTable.leaf_congr hwq.inv.sound.toTables htables w).trans (hleaf w))
    area.vpns (b := q₂) ⟨hw₂, hr₂, fun v hv => mem_vpns hv, fun _ => rfl⟩
  refine ⟨⟨pt, ms.areas ++ [area]⟩, q₃, ?_, hr₃, fun v hv hout => ?_⟩
  · rw [cloneArea, hpush]
    show (area.vpns.foldlM (clonePage L src.pageTable pt) q₂).bind _ = _
    rw [hcopy]
    rfl
  · rw [hleaf₃ v, PageTable.leaf_eq_entry, hm.other v hv hout, ← PageTable.leaf_eq_entry]

theorem start_returns (L : Layout) (n : ℕ) (hfree : ∀ f, p.allocator.Free f → L.Writable f)
    (hcount : n + 3 ≤ p.allocator.freeCount) :
    ∃ ms p₀ ms₁ p₁, newBare p = some (ms, p₀) ∧ ms.mapTrampoline L p₀ = some (ms₁, p₁) ∧
      Ready L ms₁.pageTable p₁ n ∧
      ∀ v, v < vpnEnd → v ≠ trampolineVpn → ms₁.pageTable.leaf p₁ v = none := by
  have hstart : Ready L ⟨0, [], []⟩ p (n + 2 + 1) :=
    ⟨hcount, hfree, fun e he => absurd he List.not_mem_nil⟩
  obtain ⟨f, p₀, ha, hr₀⟩ := hstart.alloc
  have hnew : PageTable.new p = some (⟨f, [], [f]⟩, p₀) := by
    rw [PageTable.new, ha]
    rfl
  obtain ⟨htab, -, hleaf, -⟩ := PageTable.new_spec hnew
  have hr₁ : Ready L ⟨f, [], [f]⟩ p₀ (n + 2) := ⟨hr₀.frames, hr₀.free, hr₀.data⟩
  obtain ⟨pt, p₁, hmap, hr₂⟩ := hr₁.map htab (hleaf trampolineVpn) (pageFloor L.strampoline) 10
  refine ⟨⟨⟨f, [], [f]⟩, []⟩, p₀, ⟨pt, []⟩, p₁, ?_, ?_, hr₂, fun v hv hne => ?_⟩
  · rw [newBare, hnew]
    rfl
  · rw [mapTrampoline]
    show (PageTable.map _ p₀ trampolineVpn _ 10).bind _ = _
    rw [hmap]
    rfl
  · obtain ⟨-, hwr⟩ := PageTable.map_spec htab (by decide) hmap
    rw [hwr.leaf_of_ne (by decide) hv hne, hleaf v]

/-- **`clone` returns** if three frames are free for every page and for the trampoline. -/
theorem clone_returns (hsrc : src.Inv L p forgotten) (hx : src.FixedPages p) (hwr : WritablePages L src p)
    (htr : ¬ src.Page trampolineVpn) (hfree : ∀ f, p.allocator.Free f → L.Writable f)
    (hcount : 3 * pageCount src.areas + 3 ≤ p.allocator.freeCount) :
    ∃ ms' p', src.clone L p = some (ms', p') := by
  obtain ⟨ms, p₀, ms₁, p₁, hbare, htramp, hr₁, hleaf₁⟩ := start_returns L _ hfree hcount
  obtain ⟨hw₀, ha₀⟩ := newBare_spec L hbare
  have hw₁ := hw₀.trans (mapTrampoline_spec hw₀.inv ha₀ htramp).1
  have hdisjoint : src.areas.Pairwise fun a b => ∀ v, a.zone.Contains v → ¬ b.zone.Contains v := by
    have hzones := hsrc.disjoint
    rw [zones, List.map_append] at hzones
    exact List.pairwise_map.mp (List.pairwise_append.mp hzones).1
  have hunmapped : ∀ a ∈ src.areas, ∀ v, a.zone.Contains v → ms₁.pageTable.leaf p₁ v = none := by
    intro a ha v hv
    exact hleaf₁ v (MapArea.vpn_lt hv) fun heq => htr ⟨a, ha, heq ▸ hv⟩
  -- The areas still to come are not mapped in the copy.
  obtain ⟨⟨ms', p'⟩, hfold, -⟩ := foldlM_returns
    (fun (rest : List MapArea) (st : MemorySet × Phys) => Work L p ∅ st.1 st.2 [] ∧
      Ready L st.1.pageTable st.2 (3 * pageCount rest) ∧ (∀ a ∈ rest, a ∈ src.areas) ∧
      rest.Pairwise (fun a b => ∀ v, a.zone.Contains v → ¬ b.zone.Contains v) ∧
      ∀ a ∈ rest, ∀ v, a.zone.Contains v → st.1.pageTable.leaf st.2 v = none)
    (by
      rintro area rest ⟨ms₂, p₂⟩ ⟨hw₂, hr₂, hsub, hpw, hun⟩
      have ha := hsub area List.mem_cons_self
      obtain ⟨hhead, htail⟩ := List.pairwise_cons.mp hpw
      rw [pageCount, List.map_cons, List.sum_cons, Nat.mul_add, Nat.add_comm] at hr₂
      obtain ⟨ms₃, p₃, hone, hr₃, hleaf₃⟩ := cloneArea_returns hsrc hx hwr hw₂ ha hr₂
        (hun area List.mem_cons_self)
      refine ⟨(ms₃, p₃), hone, cloneArea_spec hsrc ha hw₂ hone, hr₃,
        fun a ha => hsub a (List.mem_cons_of_mem area ha), htail, fun a ha v hv => ?_⟩
      have hout : ¬ area.zone.Contains v := fun hin => hhead a ha v hin hv
      rw [hleaf₃ v (MapArea.vpn_lt hv) hout]
      exact hun a (List.mem_cons_of_mem area ha) v hv)
    src.areas (b := (ms₁, p₁)) ⟨hw₁, hr₁, fun a ha => ha, hdisjoint, hunmapped⟩
  refine ⟨ms', p', ?_⟩
  rw [clone, hbare]
  show (ms.mapTrampoline L p₀).bind _ = _
  rw [htramp]
  exact hfold

/-- **`clone` copies.**  For every memory set that the functions build: whenever `clone` returns, the copy
and the original are as they should be; and it returns if no area has the page of the trampoline, the
kernel can write where it copies to, and there are enough frames. -/
theorem clone_copies (hb : Built L src forgotten p) (hx : src.FixedPages p) :
    (∀ ms' p', src.clone L p = some (ms', p') → CloneOk src p ms' p') ∧
    (¬ src.Page trampolineVpn → WritablePages L src p → (∀ f, p.allocator.Free f → L.Writable f) →
      3 * pageCount src.areas + 3 ≤ p.allocator.freeCount →
      ∃ ms' p', src.clone L p = some (ms', p') ∧ CloneOk src p ms' p') := by
  constructor
  · intro ms' p' h
    exact clone_mirrors hb hx h
  · intro htr hwr hfree hcount
    obtain ⟨ms', p', h⟩ := clone_returns hb.formed.1 hx hwr htr hfree hcount
    exact ⟨ms', p', h, clone_mirrors hb hx h⟩

/-- The memory at first; all its words are 7. -/
def sampleFilled : Phys := (State.start sampleLayout fun _ _ => 7).phys

/-- A set with the trampoline and these areas. -/
def sampleSet (p : Phys) (areas : List MapArea) : Option (MemorySet × Phys) := do
  let (ms, p) ← newBare p
  let (ms, p) ← ms.mapTrampoline sampleLayout p
  areas.foldlM (fun s area => s.1.push sampleLayout s.2 area none) (ms, p)

theorem built_pushes {areas : List MapArea} (hb : Built sampleLayout src [] p)
    (h : areas.foldlM (fun s area => s.1.push sampleLayout s.2 area none) (src, p) = some (ms, q)) :
    Built sampleLayout ms [] q ∧ ms.areas = src.areas ++ areas := by
  induction areas generalizing src p with
  | nil =>
    cases h
    exact ⟨hb, (List.append_nil _).symm⟩
  | cons area areas ih =>
    simp only [List.foldlM_cons, Option.bind_eq_bind, Option.bind_eq_some_iff, Prod.exists] at h
    obtain ⟨ms₁, p₁, hpush, h⟩ := h
    obtain ⟨hms, hareas⟩ := ih (hb.push hpush) h
    rw [(push_spec hb.formed.1 hpush).2, List.append_assoc] at hareas
    exact ⟨hms, hareas⟩

theorem sampleSet_built {areas : List MapArea} (h : sampleSet q areas = some (ms, p)) :
    Built sampleLayout ms [] p ∧ ms.areas = areas := by
  simp only [sampleSet, Option.bind_eq_bind, Option.bind_eq_some_iff, Prod.exists] at h
  obtain ⟨ms₀, p₀, hbare, ms₁, p₁, htr, hpush⟩ := h
  have ha₀ := (newBare_spec sampleLayout hbare).2
  have hb₁ := (Built.newBare hbare).mapTrampoline ha₀ htr
  obtain ⟨hb, hareas⟩ := built_pushes hb₁ hpush
  rw [(mapTrampoline_spec (Built.newBare hbare).formed.1 ha₀ htr).2] at hareas
  exact ⟨hb, hareas⟩

/-- A page of its own, readable and writable for the program. -/
def sampleFramed : MapArea := ⟨16, 17, .framed, ⟨true, true, false, true⟩, by decide, by decide⟩

/-- A page of physical memory, the first that the allocator hands out. -/
def sampleShared : MapArea :=
  ⟨0x80210, 0x80211, .identical, ⟨true, true, false, false⟩, by decide, by decide⟩

/-- The only page that is not framed lies on the frame that was handed out first. -/
theorem shared_frame (hareas : src.areas = [sampleFramed, sampleShared])
    (hleaf : src.pageTable.leaf p 0x80210 = some 0x80210) : ∀ area ∈ src.areas, area.mapType ≠ .framed →
      ∀ v, area.zone.Contains v → ∀ g, src.pageTable.leaf p v = some g → g = 0x80210 := by
  intro area ha hty v hv g hg
  rw [hareas] at ha
  rcases List.mem_pair.mp ha with rfl | rfl
  · exact absurd rfl hty
  · rw [Nat.le_antisymm (Nat.le_of_lt_succ hv.2) hv.1, hleaf] at hg
    exact (Option.some.inj hg).symm

/-- A copy of a set with a framed page and a page on a frame that somebody else holds. -/
theorem clone_copies_shared : ∃ src p ms' p', Built sampleLayout src [] p ∧ src.FixedPages p ∧
    WritablePages sampleLayout src p ∧ src.FramedPage 16 ∧ src.Page 0x80210 ∧
    src.pageTable.leaf p 0x80210 = some 0x80210 ∧
    src.clone sampleLayout p = some (ms', p') ∧ CloneOk src p ms' p' := by
  have hset : ∃ held ∈ sampleFilled.alloc, ∃ x ∈ sampleSet held.2 [sampleFramed, sampleShared],
      x.2.allocator.recycled = [] ∧ x.2.allocator.current = 0x80219 ∧ x.2.allocator.endPpn = 0x88000 ∧
      x.1.pageTable.leaf x.2 0x80210 = some 0x80210 ∧ 0x80210 ∉ x.1.pageTable.frames := by decide +kernel
  obtain ⟨held, -, ⟨src, p⟩, hx, hrec, hcur, hend, hleaf, hout⟩ := hset
  obtain ⟨hb, hareas⟩ := sampleSet_built hx
  have hpage : ∀ v, src.Page v ↔ v = 16 ∨ v = 0x80210 := by
    intro v
    simp only [Page, hareas, List.mem_cons, List.not_mem_nil, or_false, exists_eq_or_imp, exists_eq_left,
      Zone.Contains, MapArea.zone, sampleFramed, sampleShared]
    omega
  have hshared := shared_frame hareas hleaf
  have hfixed : src.FixedPages p := by
    intro area ha hty v hv g hg
    rw [hshared area ha hty v hv g hg]
    refine ⟨⟨?_, ?_⟩, hout⟩
    · rw [hcur]
      decide
    · rw [hrec]
      exact List.not_mem_nil
  have hwr : WritablePages sampleLayout src p := by
    intro area ha hty v hv g hg
    rw [hshared area ha hty v hv g hg]
    exact ⟨by decide, by decide⟩
  have hcount : 3 * pageCount src.areas + 3 ≤ p.allocator.freeCount := by
    rw [StackFrameAllocator.freeCount, hrec, hcur, hend, hareas]
    decide
  have hfree : ∀ f, p.allocator.Free f → sampleLayout.Writable f := by
    intro f hf
    rw [StackFrameAllocator.Free, hrec, hcur, hend] at hf
    rcases hf with hf | hf
    · exact absurd hf List.not_mem_nil
    · exact ⟨le_trans (by decide) hf.1, hf.2⟩
  have htr : ¬ src.Page trampolineVpn := fun htr => absurd ((hpage _).mp htr) (by decide)
  obtain ⟨ms', p', hclone, hok⟩ := (clone_copies hb hfixed).2 htr hwr hfree hcount
  have hframed : src.FramedPage 16 := ⟨sampleFramed, by simp [hareas], rfl, by decide, by decide⟩
  exact ⟨src, p, ms', p', hb, hfixed, hwr, hframed, (hpage _).mpr (Or.inr rfl), hleaf, hclone, hok⟩

/-- A page of physical memory that the allocator has not handed out yet. -/
def sampleIdentical : MapArea :=
  ⟨0x80215, 0x80216, .identical, ⟨true, true, false, false⟩, by decide, by decide⟩

/-- The copy takes the frame of that page for a table, and the page of the original changes. -/
theorem clone_overwrites_identical : ∃ src p ms' p', Built sampleLayout src [] p ∧
    src.areas = [sampleIdentical] ∧ ¬ src.Page trampolineVpn ∧
    src.clone sampleLayout p = some (ms', p') ∧ src.Page 0x80215 ∧
    src.content p' 0x80215 ≠ src.content p 0x80215 ∧ ¬ CloneOk src p ms' p' := by
  have hset : ∃ x ∈ sampleSet sampleFilled [sampleIdentical], ∃ y ∈ x.1.clone sampleLayout x.2,
      (x.1.content x.2 0x80215).map (fun words => words 0) = some 7 ∧
      (x.1.content y.2 0x80215).map (fun words => words 0) = some 0 := by decide +kernel
  obtain ⟨⟨src, p⟩, hx, ⟨ms', p'⟩, hy, hbefore, hafter⟩ := hset
  obtain ⟨hb, hareas⟩ := sampleSet_built hx
  have hpage : src.Page 0x80215 := ⟨sampleIdentical, by simp [hareas], by decide, by decide⟩
  have hne : src.content p' 0x80215 ≠ src.content p 0x80215 := by
    intro heq
    rw [heq, hbefore] at hafter
    cases hafter
  refine ⟨src, p, ms', p', hb, hareas, ?_, hy, hpage, hne, fun hok => hne (hok.original.2 _ hpage)⟩
  rintro ⟨area, ha, hv⟩
  rw [hareas, List.mem_singleton] at ha
  rw [ha] at hv
  exact absurd hv.2 (by decide)

end MemorySet

end LemonCore.Kernel.Mm
