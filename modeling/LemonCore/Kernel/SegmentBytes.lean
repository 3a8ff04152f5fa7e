import LemonCore.Kernel.ElfLoading
import LemonCore.Kernel.UserBytes

/-!
# The bytes of the segments

`from_elf` fills a segment with `copy_data`, which writes the bytes of the file to the pages of the area, one
page after the other, and starts at the beginning of the first page.

* `copyChunks_memory`, `map_zeroed`: what the loops of `copy_data` and `map` do to the frames behind the
  pages;
* `push_content`: a segment that is pushed is filled, and those before it are left alone;
* `segments_loaded_iff`: the bytes are where the header says exactly if they are not shifted by the offset of
  the address in its page, or if the shift makes no difference.
-/

namespace LemonCore.Kernel.Mm

open Foundation.SharedHeap

/-! ### Chunks of the data -/

/-- The part of the data that goes to one page. -/
def chunkAt (data : List ℕ) (k : ℕ) : List ℕ := (data.drop (pageSize * k)).take pageSize

theorem chunks_getElem {data : List ℕ} {k : ℕ} (hk : k < (chunks data).length) :
    (chunks data)[k] = chunkAt data k := by
  simp only [chunks, List.getElem_map, List.getElem_range]
  rfl

theorem length_chunks (data : List ℕ) : (chunks data).length = (data.length + (pageSize - 1)) / pageSize := by
  rw [chunks, List.length_map, List.length_range]

theorem chunkAt_eq_nil {data : List ℕ} {k : ℕ} (hk : (chunks data).length ≤ k) : chunkAt data k = [] := by
  rw [length_chunks, pageSize] at hk
  rw [chunkAt, pageSize, List.drop_eq_nil_of_le (by omega), List.take_nil]

theorem chunkAt_getD (data : List ℕ) (k : ℕ) {off : ℕ} (hoff : off < pageSize) :
    (chunkAt data k).getD off 0 = data.getD (pageSize * k + off) 0 := by
  rw [chunkAt, List.getD_eq_getElem?_getD, List.getD_eq_getElem?_getD, List.getElem?_take_of_lt hoff,
    List.getElem?_drop]

theorem mem_of_mem_chunkAt {data : List ℕ} {k b : ℕ} (h : b ∈ chunkAt data k) : b ∈ data :=
  List.mem_of_mem_drop (List.mem_of_mem_take h)

/-! ### Frames behind pages -/

namespace MapArea

variable {area : MapArea} {pt pt' : PageTable} {p p' : Phys} {vpn v f : ℕ}

/-- The frame of a page that `map_one` maps is new, and it has been cleared. -/
theorem mapOne_zeroed (hs : pt.Sound p) (ht : area.mapType = .framed)
    (h : area.mapOne (pt, p) vpn = some (pt', p')) (hf : (vpn, f) ∈ pt'.dataFrames) :
    p'.memory f = fun _ => 0 := by
  obtain ⟨-, hkey, g, p₁, ha, hmap⟩ := mapOne_framed_inv hs ht h
  obtain ⟨htab, -, -⟩ := PageTable.recorded_ahead hs ha hkey
  obtain ⟨-, hw⟩ := PageTable.map_spec htab (bits_lt _) hmap
  rw [hw.dataFrames] at hf
  have hfg : f = g := by
    rcases PageTable.mem_insert.mp hf with heq | ⟨hold, -⟩
    · exact (Prod.mk.inj heq).2
    · exact absurd rfl (hkey _ hold)
  subst hfg
  have hkept := (PageTable.map_tables_only htab (bits_lt _) hmap).kept f
    (htab.allocated f (PageTable.data_mem hf)) (htab.data_not_metadata hf)
  obtain ⟨-, -, -, hmem⟩ := Phys.alloc_spec ha
  have hzero : p₁.memory f = fun _ => 0 := by rw [hmem, Function.update_self]
  exact hkept.2.trans hzero

/-- **Mapping an area clears the frames of its pages.** -/
theorem map_zeroed (hs : pt.Sound p) (ht : area.mapType = .framed)
    (h : area.map (pt, p) = some (pt', p')) (hv : area.zone.Contains v) (hf : (v, f) ∈ pt'.dataFrames) :
    p'.memory f = fun _ => 0 := by
  obtain ⟨-, hall, -⟩ := foldlM_forall (fun st : PageTable × Phys => st.1.Sound st.2)
    (fun v st => ∀ f, (v, f) ∈ st.1.dataFrames → st.2.memory f = fun _ => 0) area.vpns
    (by
      rintro ⟨pt₁, p₁⟩ vpn ⟨pt₂, p₂⟩ hvpn hs₁ hone
      obtain ⟨-, hstep, -⟩ := mapOne_spec hs₁ (vpn_lt (mem_vpns_iff.mp hvpn)) hone
      exact ⟨hstep.sound, fun f hf => mapOne_zeroed hs₁ ht hone hf⟩)
    (by
      rintro ⟨pt₁, p₁⟩ vpn ⟨pt₂, p₂⟩ c hvpn hs₁ hc hone f hf
      have hlt := vpn_lt (mem_vpns_iff.mp hvpn)
      obtain ⟨-, hstep, -⟩ := mapOne_spec hs₁ hlt hone
      by_cases heq : c = vpn
      · subst heq
        exact mapOne_zeroed hs₁ ht hone hf
      · have hold := (hstep.data (c, f) heq).mp hf
        rw [hs₁.memory_kept (mapOne_entry hs₁ hlt hone).2.2 hold]
        exact hc f hold)
    hs h
  exact hall v (mem_vpns_iff.mpr hv) f hf

end MapArea

namespace MemorySet

variable {L : Layout} {ms ms' : MemorySet} {p p' : Phys} {elf : ElfFile} {ph : ProgramHeader}
  {base entry n v f : ℕ} {done : List ProgramHeader} {st st' : MemorySet × Phys × ℕ} {area : MapArea}
  {data : List ℕ}

/-- **The loop of `copy_data`** writes the chunks to the frames of consecutive pages, by induction on the
chunks. -/
theorem copyChunks_memory {pt : PageTable} {zs : List Zone} (hfr : ∀ z ∈ zs, z.mapType = .framed)
    (cs : List (List ℕ)) : ∀ {vpn vpn' : ℕ} {p : Phys}, Space L pt p zs → vpn + cs.length ≤ vpnEnd →
    cs.foldlM (MapArea.copyChunk L pt) (vpn, p) = some (vpn', p') →
    ∀ v f, (v, f) ∈ pt.dataFrames → p'.memory f =
      if vpn ≤ v ∧ v < vpn + cs.length then overlay (p.memory f) (cs.getD (v - vpn) []) else p.memory f := by
  induction cs with
  | nil =>
    intro vpn vpn' p _ _ h v f _
    obtain ⟨-, rfl⟩ : vpn = vpn' ∧ p = p' := by simpa using h
    rw [if_neg]
    rw [List.length_nil]
    omega
  | cons c cs ih =>
    intro vpn vpn' p hs hend h v f hf
    rw [List.length_cons] at hend ⊢
    rw [List.foldlM_cons, Option.bind_eq_bind, Option.bind_eq_some_iff] at h
    obtain ⟨⟨vpn₁, p₁⟩, hone, hrest⟩ := h
    simp only [MapArea.copyChunk, Option.bind_eq_bind, Option.bind_eq_some_iff, Option.some.injEq,
      Prod.mk.injEq] at hone
    obtain ⟨e, ht, p₂, hst, rfl, rfl⟩ := hone
    rw [Phys.store] at hst
    split at hst
    · rename_i hw
      obtain rfl := Option.some.inj hst
      have hrec := writable_recorded hs hfr ht hw
      rw [Nat.mod_eq_of_lt (by omega)] at hrec
      rw [ih (hs.setFrame hrec _).1 (by omega) hrest v f hf]
      by_cases hv : v = vpn
      · subst hv
        obtain rfl := hs.sound.frame_unique hf hrec
        rw [if_neg (by omega), if_pos (by omega), Phys.setFrame_memory_self, Nat.sub_self,
          List.getD_cons_zero]
      · have hne : f ≠ ptePpn e := by
          intro heq
          subst heq
          exact hv (hs.sound.page_unique hf hrec)
        rw [Phys.setFrame_memory_of_ne hne]
        by_cases hin : vpn + 1 ≤ v ∧ v < vpn + 1 + cs.length
        · rw [if_pos hin, if_pos (by omega), show v - vpn = v - (vpn + 1) + 1 by omega, List.getD_cons_succ]
        · rw [if_neg hin, if_neg (by omega)]
    · cases hst

/-- **A segment is pushed**: its pages hold the data and zeros behind it, and the pages that there were are
left alone. -/
theorem push_content (hi : ms.Inv L p []) (hfr : AllFramed ms.areas) (hbytes : ∀ b ∈ data, b < 256)
    (hroom : area.start + (chunks data).length ≤ area.stop)
    (h : ms.push L p area (some data) = some (ms', p')) (hf : (v, f) ∈ ms'.pageTable.dataFrames) :
    (area.zone.Contains v → ∀ off, off < pageSize →
      byteOf (p'.memory f) off = data.getD (pageSize * (v - area.start) + off) 0) ∧
    (¬ area.zone.Contains v → (v, f) ∈ ms.pageTable.dataFrames ∧ p'.memory f = p.memory f) := by
  obtain ⟨pt, p₁, hmap, hcopy, rfl, hfr'⟩ := push_data_inv hfr h
  have hs : Space L pt p₁ ((ms.areas ++ [area]).map MapArea.zone) := by
    have hs := (hi.map hmap).1.perm (zones_push ms pt area [])
    rwa [zones, List.append_nil] at hs
  have hty : area.mapType = .framed := hfr' area (List.mem_append_right _ List.mem_cons_self)
  rw [MapArea.copyData, if_pos hty, Option.map_eq_some_iff] at hcopy
  obtain ⟨⟨vpn', p₂⟩, hfold, rfl⟩ := hcopy
  have hzones : ∀ z ∈ (ms.areas ++ [area]).map MapArea.zone, z.mapType = .framed := by
    intro z hz
    obtain ⟨a, ha, rfl⟩ := List.mem_map.mp hz
    exact hfr' a ha
  have hmem := copyChunks_memory hzones (chunks data) hs (hroom.trans area.stop_le) hfold v f hf
  constructor
  · intro hv off hoff
    have hzero := MapArea.map_zeroed hi.sound hty hmap hv hf
    have hchunk : p₂.memory f = overlay (fun _ => 0) (chunkAt data (v - area.start)) ∨
        chunkAt data (v - area.start) = [] ∧ p₂.memory f = fun _ => 0 := by
      by_cases hin : area.start ≤ v ∧ v < area.start + (chunks data).length
      · left
        have hk : v - area.start < (chunks data).length := by omega
        rw [hmem, if_pos hin, hzero, List.getD_eq_getElem?_getD, List.getElem?_eq_getElem hk, chunks_getElem]
        rfl
      · right
        refine ⟨chunkAt_eq_nil ?_, by rw [hmem, if_neg hin, hzero]⟩
        have hle : area.start ≤ v := hv.1
        omega
    rw [← chunkAt_getD data _ hoff]
    have hblank : byteOf (fun _ => 0) off = 0 := by rw [byteOf, Nat.zero_div, Nat.zero_mod]
    rcases hchunk with hchunk | ⟨hnil, hblankFrame⟩
    · rw [hchunk, byteOf_overlay (fun b hb => hbytes b (mem_of_mem_chunkAt hb)), hblank]
    · rw [hblankFrame, hblank, hnil]
      rfl
  · intro hout
    have hold := ((MapArea.map_mapped hi.sound hmap).data (v, f) hout).mp hf
    refine ⟨hold, ?_⟩
    have hnot : ¬ (area.start ≤ v ∧ v < area.start + (chunks data).length) := by
      intro hin
      exact hout ⟨hin.1, hin.2.trans_le hroom⟩
    rw [hmem, if_neg hnot]
    exact hi.sound.memory_kept (MapArea.map_mapped hi.sound hmap).tablesOnly hold

/-! ### The segments -/

/-- The pages of the segments that have been loaded hold the bytes of the file, from the start of the first
page on, and zeros behind them. -/
def Filled (elf : ElfFile) (done : List ProgramHeader) (st : MemorySet × Phys × ℕ) : Prop :=
  ∀ ph ∈ done.filter (·.load), ∀ v f, ph.startVpn ≤ v → v < ph.endVpn → (v, f) ∈ st.1.pageTable.dataFrames →
    ∀ off, off < pageSize →
      byteOf (st.2.1.memory f) off = (elf.slice ph).getD (pageSize * (v - ph.startVpn) + off) 0

theorem Filled.step (hl : Loading L done st) (h : Filled elf done st) (hbytes : ∀ b ∈ elf.input, b < 256)
    (hroom : ph.load = true → ph.startVpn + (chunks (elf.slice ph)).length ≤ ph.endVpn)
    (hone : loadSegment L elf st ph = some st') : Filled elf (done ++ [ph]) st' := by
  obtain ⟨ms, p, n⟩ := st
  rcases loadSegment_cases hone with ⟨hload, rfl⟩ | ⟨hload, area, ms', p', harea, -, -, hpush, rfl⟩
  · intro ph' hph'
    rw [List.filter_append, List.filter_cons_of_neg (by rw [hload]; decide), List.filter_nil,
      List.append_nil] at hph'
    exact h ph' hph'
  · intro ph' hph' v f hle hlt hf off hoff
    have hi := hl.built.formed.1
    have hslice : ∀ b ∈ elf.slice ph, b < 256 := fun b hb =>
      hbytes b (List.mem_of_mem_take (List.mem_of_mem_drop hb))
    have hroom' : area.start + (chunks (elf.slice ph)).length ≤ area.stop := by
      rw [harea.start, harea.stop]
      exact hroom hload
    obtain ⟨hnew, hold⟩ := push_content hi hl.framed hslice hroom' hpush hf
    rw [List.filter_append, List.filter_cons_of_pos hload, List.filter_nil] at hph'
    rcases List.mem_append.mp hph' with hph' | hph'
    · -- a page of an earlier segment is mapped, so it is not in the new area
      have hout : ¬ area.zone.Contains v := by
        intro hin
        obtain ⟨area', hmem, hof⟩ := hl.area_of hph'
        obtain ⟨pt, p₁, hmap, -⟩ := push_data_inv hl.framed hpush
        have hnone := MapArea.leaf_of_map hi.sound hmap hin
        obtain ⟨g, -, hleaf⟩ := hi.recorded ⟨area', hmem, hof.framed, hof.contains.mpr ⟨hle, hlt⟩⟩
        cases hleaf.symm.trans hnone
      obtain ⟨hrec, hmemory⟩ := hold hout
      show byteOf (p'.memory f) off = _
      rw [hmemory]
      exact h ph' hph' v f hle hlt hrec off hoff
    · obtain rfl := List.mem_singleton.mp hph'
      rw [hnew (harea.contains.mpr ⟨hle, hlt⟩) off hoff, harea.start]

/-- The segment is in the memory of the program, at the addresses of the header and with its flags. -/
def SegmentLoaded (ms : MemorySet) (p : Phys) (elf : ElfFile) (ph : ProgramHeader) : Prop :=
  ∀ i, i < ph.memSize → ms.userByte p (ph.virtualAddr + i) = some (elf.image ph i) ∧
    ms.flags p (vpnOf (ph.virtualAddr + i)) = some (ph.mapPerm.bits ||| pteV)

/-- The segments of canonical addresses do not wrap around, and their pages are those from the first to the
last. -/
theorem Loading.canonical_pages (h : Loading L done st) (hph : ph ∈ done.filter (·.load))
    (hcanonical : ∀ i, i < ph.memSize → Canonical (ph.virtualAddr + i)) :
    (∀ i, i < ph.memSize →
      vpnOf (ph.virtualAddr + i) = ph.startVpn + (ph.virtualAddr % pageSize + i) / pageSize ∧
        vpnOf (ph.virtualAddr + i) < ph.endVpn) ∧
      ∀ n, n ≤ ph.memSize → ph.startVpn + (n + (pageSize - 1)) / pageSize ≤ ph.endVpn := by
  obtain ⟨area, -, hof⟩ := h.area_of hph
  have hle : ph.startVpn ≤ ph.endVpn := by
    rw [← hof.start, ← hof.stop]
    exact area.start_le
  have hpage : pageSize = 4096 := rfl
  rcases Nat.eq_zero_or_pos ph.memSize with hzero | hpos
  · refine ⟨fun i hi => absurd hi (by omega), fun n hn => ?_⟩
    rw [show n = 0 by omega, hpage]
    exact hle
  have hhalf : ph.virtualAddr + ph.memSize ≤ 2 ^ 38 ∨
      2 ^ 64 - 2 ^ 38 ≤ ph.virtualAddr ∧ ph.virtualAddr + ph.memSize ≤ 2 ^ 64 := by
    have hfirst := hcanonical 0 hpos
    have hlast := hcanonical (ph.memSize - 1) (by omega)
    have hgap := hcanonical (2 ^ 38 - ph.virtualAddr)
    rw [Canonical] at hfirst hlast hgap
    omega
  have hstart : ph.startVpn = ph.virtualAddr % 2 ^ 39 / 4096 := rfl
  have hend : ph.endVpn = if (ph.virtualAddr + ph.memSize) % 2 ^ 39 = 0 then 0
      else ((ph.virtualAddr + ph.memSize) % 2 ^ 39 - 1 + 4096) / 4096 := rfl
  rw [hstart, hend] at hle
  rw [hstart, hend, hpage]
  split at hle
  · omega
  · rename_i hne
    rw [if_neg hne]
    refine ⟨fun i hi => ?_, fun n hn => ?_⟩
    · rw [vpnOf, pageFloor, hpage]
      omega
    · omega

theorem fromElf_bounds (h : fromElf L p elf = some (ms, p', base, entry)) (hph : ph ∈ elf.loads) :
    ph.offset ≤ (ph.offset + ph.fileSize) % 2 ^ 64 := by
  obtain ⟨ms₁, p₁, last, -, hfold, -⟩ := fromElf_loop h
  have hloop := foldlM_history (fun done _ => ∀ ph ∈ done, ph.load = true →
      ph.offset ≤ (ph.offset + ph.fileSize) % 2 ^ 64) elf.programHeaders
    (by
      rintro done ⟨ms, p, n⟩ ph st' _ hdone hone ph' hph' hload'
      rcases List.mem_append.mp hph' with hph' | hph'
      · exact hdone ph' hph' hload'
      obtain rfl := List.mem_singleton.mp hph'
      rcases loadSegment_cases hone with ⟨hload, -⟩ | ⟨-, _, _, _, -, hle, -⟩
      · rw [hload'] at hload
        cases hload
      · exact hle)
    (fun ph hph => absurd hph List.not_mem_nil) hfold
  rw [List.nil_append] at hloop
  obtain ⟨hmem, hload⟩ := List.mem_filter.mp hph
  exact hloop ph hmem hload

theorem slice_getD (h : fromElf L p elf = some (ms, p', base, entry)) (hparsed : elf.Parsed)
    (hph : ph ∈ elf.loads) :
    (elf.slice ph).length ≤ ph.fileSize ∧ ∀ i, (elf.slice ph).getD i 0 = elf.image ph i := by
  have hle := fromElf_bounds h hph
  obtain ⟨-, -, hoff, hsize⟩ := hparsed.word ph (List.mem_filter.mp hph).1
  have hstop : (ph.offset + ph.fileSize) % 2 ^ 64 = ph.offset + ph.fileSize := by omega
  rw [ElfFile.slice, hstop]
  constructor
  · rw [List.length_drop, List.length_take]
    omega
  · intro i
    rw [List.getD_eq_getElem?_getD, List.getElem?_drop, List.getElem?_take, ElfFile.image,
      List.getD_eq_getElem?_getD]
    by_cases hi : i < ph.fileSize
    · rw [if_pos hi, if_pos (by omega)]
    · rw [if_neg hi, if_neg (by omega)]
      rfl

/-- **What the program finds** in segments of canonical addresses: the bytes of the file from the start of the
first page on. -/
theorem userByte_segment (h : fromElf L p elf = some (ms, p', base, entry)) (hparsed : elf.Parsed)
    (hsize : ∀ ph ∈ elf.loads, ph.fileSize ≤ ph.memSize)
    (hcanonical : ∀ ph ∈ elf.loads, ∀ i, i < ph.memSize → Canonical (ph.virtualAddr + i))
    (hph : ph ∈ elf.loads) {i : ℕ} (hi : i < ph.memSize) :
    ms.userByte p' (ph.virtualAddr + i) = some (elf.image ph (ph.virtualAddr % pageSize + i)) ∧
      ms.flags p' (vpnOf (ph.virtualAddr + i)) = some (ph.mapPerm.bits ||| pteV) := by
  obtain ⟨ms₁, p₁, last, hstart, hfold, -⟩ := fromElf_loop h
  have hl := (fromElf_loading h).1
  have hroom : ∀ ph ∈ elf.loads, ph.startVpn + (chunks (elf.slice ph)).length ≤ ph.endVpn := by
    intro ph hph
    rw [length_chunks]
    exact (hl.canonical_pages hph (hcanonical ph hph)).2 _
      ((slice_getD h hparsed hph).1.trans (hsize ph hph))
  have hfilled : Filled elf elf.programHeaders (ms, p', last) := by
    have hloop := foldlM_history (fun done st => Loading L done st ∧ Filled elf done st) elf.programHeaders
      (by
        rintro done st ph st' hmem ⟨hl, hf⟩ hone
        refine ⟨hl.step hone, hf.step hl hparsed.byte (fun hload => hroom ph ?_) hone⟩
        exact List.mem_filter.mpr ⟨hmem, hload⟩)
      ⟨hstart, fun ph hph => absurd hph List.not_mem_nil⟩ hfold
    rw [List.nil_append] at hloop
    exact hloop.2
  obtain ⟨hvpn, hlt⟩ := (hl.canonical_pages hph (hcanonical ph hph)).1 i hi
  have hle : ph.startVpn ≤ vpnOf (ph.virtualAddr + i) := by
    rw [hvpn]
    exact Nat.le_add_right _ _
  obtain ⟨area, hmem, hof⟩ := hl.area_of hph
  have hin := hof.contains.mpr ⟨hle, hlt⟩
  obtain ⟨hinv, hflagged⟩ := hl.built.formed
  obtain ⟨f, hf, hleaf⟩ := hinv.recorded ⟨area, hmem, hof.framed, hin⟩
  refine ⟨?_, ?_⟩
  · have hoff := offsetOf_lt (ph.virtualAddr + i)
    have hbyte := hfilled ph hph _ f hle hlt hf _ hoff
    have hplace : pageSize * (vpnOf (ph.virtualAddr + i) - ph.startVpn) + offsetOf (ph.virtualAddr + i) =
        ph.virtualAddr % pageSize + i := by
      rw [hvpn, offsetOf_eq, Nat.add_sub_cancel_left, ← Nat.mod_add_mod]
      exact Nat.div_add_mod _ _
    rw [hplace, (slice_getD h hparsed hph).2] at hbyte
    rw [userByte, if_pos (hcanonical ph hph i hi), PageTable.byteAt_of_leaf hleaf, p'.byte_frame f hoff,
      hbyte]
  · rw [hflagged.flags_eq hmem hin, hof.perm]

/-- **Which programs are loaded as their headers say.**  The bytes of the file are copied to the start of the
first page of a segment, whatever the offset of the address in its page; and the addresses of the segment
have to be canonical for the program to get at them. -/
theorem segments_loaded_iff (h : fromElf L p elf = some (ms, p', base, entry)) (hparsed : elf.Parsed)
    (hsize : ∀ ph ∈ elf.loads, ph.fileSize ≤ ph.memSize) :
    (∀ ph ∈ elf.loads, ms.SegmentLoaded p' elf ph) ↔
      ∀ ph ∈ elf.loads, ∀ i, i < ph.memSize → Canonical (ph.virtualAddr + i) ∧
        elf.image ph (ph.virtualAddr % pageSize + i) = elf.image ph i := by
  constructor
  · intro hloaded
    have hcanonical : ∀ ph ∈ elf.loads, ∀ i, i < ph.memSize → Canonical (ph.virtualAddr + i) := by
      intro ph hph i hi
      by_contra hno
      have hbyte := (hloaded ph hph i hi).1
      rw [userByte, if_neg hno] at hbyte
      cases hbyte
    intro ph hph i hi
    refine ⟨hcanonical ph hph i hi, ?_⟩
    have hbyte := (userByte_segment h hparsed hsize hcanonical hph hi).1
    exact Option.some.inj (hbyte.symm.trans (hloaded ph hph i hi).1)
  · intro hcond ph hph i hi
    obtain ⟨hbyte, hflags⟩ :=
      userByte_segment h hparsed hsize (fun ph hph i hi => (hcond ph hph i hi).1) hph hi
    refine ⟨?_, hflags⟩
    rw [hbyte, (hcond ph hph i hi).2]

/-- The executable of `sampleElf`, whose segment starts at a page. -/
theorem segments_loaded_aligned : ∃ ms p base entry,
    fromElf sampleLayout samplePhys sampleElf = some (ms, p, base, entry) ∧
      ∀ ph ∈ sampleElf.loads, ms.SegmentLoaded p sampleElf ph := by
  have hsome : ∃ r, fromElf sampleLayout samplePhys sampleElf = some r := by
    apply Option.isSome_iff_exists.mp
    decide +kernel
  obtain ⟨⟨ms, p, base, entry⟩, hload⟩ := hsome
  refine ⟨ms, p, base, entry, hload, (segments_loaded_iff hload ⟨by decide, by decide⟩ (by decide)).mpr ?_⟩
  intro ph hph i hi
  obtain rfl : ph = ⟨true, 0x10000, 0x1000, 0, 4, true, false, true⟩ := List.mem_singleton.mp hph
  have hi' : i < 0x1000 := hi
  refine ⟨Or.inl (by show 0x10000 + i < 2 ^ 38; omega), ?_⟩
  rw [show (0x10000 : ℕ) % pageSize = 0 from rfl, Nat.zero_add]

/-- An executable with one byte in the middle of a page. -/
def unalignedElf : ElfFile where
  input := [7]
  programHeaders := [⟨true, 0x10800, 1, 0, 1, true, false, true⟩]
  entryPoint := 0x10800

/-- The byte is at the start of the page, and at its address there is a zero. -/
theorem unaligned_byte_misplaced : ∃ ms p base entry,
    fromElf sampleLayout samplePhys unalignedElf = some (ms, p, base, entry) ∧
      ms.userByte p 0x10800 = some 0 ∧ ms.userByte p 0x10000 = some 7 ∧
      ¬ ∀ ph ∈ unalignedElf.loads, ms.SegmentLoaded p unalignedElf ph := by
  have hsome : ∃ r ∈ fromElf sampleLayout samplePhys unalignedElf,
      r.1.userByte r.2.1 0x10800 = some 0 ∧ r.1.userByte r.2.1 0x10000 = some 7 := by decide +kernel
  obtain ⟨⟨ms, p, base, entry⟩, hload, hzero, hseven⟩ := hsome
  refine ⟨ms, p, base, entry, hload, hzero, hseven, fun hall => ?_⟩
  have hbyte := (hall _ List.mem_cons_self 0 Nat.one_pos).1
  exact absurd (hzero.symm.trans hbyte) (by decide)

end MemorySet

end LemonCore.Kernel.Mm
