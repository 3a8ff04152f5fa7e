import LemonCore.Kernel.MapAreas

/-!
# Memory sets

A `MemorySet` (`mm/memory_set.rs`) is an address space: a page table and the list of its areas.

* `push`, `insertFramedArea`, `removeAreaWithStartVpn`, `recycleDataPages`: areas come and go;
* `newKernel`, `fromElf`, `clone`: the three ways to build an address space;
* `allocUserRes`, `deallocUserRes`, `exec`: what threads and processes do with theirs (`task/id.rs`,
  `task/pcb.rs`);
* `drop`: all frames go back to the allocator.

`MemorySet.Work` says what each of them does to the frames; the lemmas `push_spec` to `drop_spec` prove it,
one for each function.  `recycle_data_pages` forgets the areas but unmaps nothing, so the zones of a set are
its areas and those it has forgotten.
-/

namespace LemonCore.Kernel.Mm

open Foundation.SharedHeap

structure MemorySet where
  pageTable : PageTable
  areas : List MapArea

/-- `TRAMPOLINE`, `usize::MAX - PAGE_SIZE + 1`. -/
def trampoline : ℕ := 2 ^ 64 - pageSize

/-- `TRAP_CONTEXT_BASE`. -/
def trapContextBase : ℕ := trampoline - pageSize

def userStackSize : ℕ := 4096 * 2

/-- A program header of an executable, as `xmas_elf` gives it. -/
structure ProgramHeader where
  /-- The type is `Load`. -/
  load : Bool
  virtualAddr : ℕ
  memSize : ℕ
  offset : ℕ
  fileSize : ℕ
  read : Bool
  write : Bool
  execute : Bool

/-- An executable that `xmas_elf` has accepted. -/
structure ElfFile where
  input : List ℕ
  programHeaders : List ProgramHeader
  entryPoint : ℕ

/-- `MMIO` of the board. -/
def mmio : List (ℕ × ℕ) := [(0x100000, 0x200), (0xC000000, 0x210000), (0x10000000, 0x9000)]

namespace MemorySet

variable {area : MapArea} {pt : PageTable} {data : List ℕ} {elf : ElfFile} {src : MemorySet} {tid : ℕ}

/-! ### The model -/

/-- `new_bare`. -/
def newBare (p : Phys) : Option (MemorySet × Phys) := do
  let (pt, p) ← PageTable.new p
  some (⟨pt, []⟩, p)

/-- `map_trampoline`; the flags are `R | X`. -/
def mapTrampoline (L : Layout) (ms : MemorySet) (p : Phys) : Option (MemorySet × Phys) := do
  let (pt, p) ← ms.pageTable.map p trampolineVpn (pageFloor L.strampoline) 10
  some ({ ms with pageTable := pt }, p)

/-- `push`. -/
def push (L : Layout) (ms : MemorySet) (p : Phys) (area : MapArea) (data : Option (List ℕ)) :
    Option (MemorySet × Phys) := do
  let (pt, p) ← area.map (ms.pageTable, p)
  let p ← match data with
    | none => some p
    | some data => area.copyData L pt p data
  some (⟨pt, ms.areas ++ [area]⟩, p)

/-- `insert_framed_area`. -/
def insertFramedArea (L : Layout) (ms : MemorySet) (p : Phys) (startVa endVa : ℕ)
    (permission : MapPermission) : Option (MemorySet × Phys) := do
  let area ← MapArea.new startVa endVa .framed permission
  ms.push L p area none

/-- `remove_area_with_start_vpn`. -/
def removeAreaWithStartVpn (ms : MemorySet) (p : Phys) (startVpn : ℕ) : Option (MemorySet × Phys) :=
  match ms.areas.find? (·.start = startVpn) with
  | some area => do
    let (pt, p) ← area.unmap (ms.pageTable, p)
    some (⟨pt, ms.areas.eraseP (·.start = startVpn)⟩, p)
  | none => some (ms, p)

/-- `recycle_data_pages`. -/
def recycleDataPages (ms : MemorySet) : MemorySet := { ms with areas := [] }

/-- The areas of `new_kernel`: the sections of the image, the physical memory and the registers of the
devices. -/
def kernelAreas (L : Layout) : List (ℕ × ℕ × MapPermission) :=
  [(L.stext, L.etext, ⟨true, false, true, false⟩),
    (L.srodata, L.erodata, ⟨true, false, false, false⟩),
    (L.sdata, L.edata, ⟨true, true, false, false⟩),
    (L.sbssWithStack, L.ebss, ⟨true, true, false, false⟩),
    (L.ekernel, memoryEnd, ⟨true, true, false, false⟩)] ++
  mmio.map fun pair => (pair.1, pair.1 + pair.2, ⟨true, true, false, false⟩)

/-- `new_kernel`. -/
def newKernel (L : Layout) (p : Phys) : Option (MemorySet × Phys) := do
  let (ms, p) ← newBare p
  let st ← ms.mapTrampoline L p
  (kernelAreas L).foldlM (fun (ms, p) (start, stop, perm) => do
    let area ← MapArea.new start stop .identical perm
    ms.push L p area none) st

/-- The segment of one program header in `from_elf`; the last component is `max_end_vpn`. -/
def loadSegment (L : Layout) (elf : ElfFile) (st : MemorySet × Phys × ℕ) (ph : ProgramHeader) :
    Option (MemorySet × Phys × ℕ) := do
  let (ms, p, maxEndVpn) := st
  if ph.load then
    let mapPerm := ⟨ph.read, ph.write, ph.execute, true⟩
    let area ← MapArea.new ph.virtualAddr (ph.virtualAddr + ph.memSize) .framed mapPerm
    let stop := (ph.offset + ph.fileSize) % 2 ^ 64
    -- The bounds of the slice of the input.
    if ph.offset ≤ stop ∧ stop ≤ elf.input.length then
      let (ms, p) ← ms.push L p area (some ((elf.input.take stop).drop ph.offset))
      some (ms, p, area.stop)
    else none
  else some (ms, p, maxEndVpn)

/-- `from_elf`: the memory set, the base of the user stacks and the entry point. -/
def fromElf (L : Layout) (p : Phys) (elf : ElfFile) : Option (MemorySet × Phys × ℕ × ℕ) := do
  let (ms, p) ← newBare p
  let (ms, p) ← ms.mapTrampoline L p
  let (ms, p, maxEndVpn) ← elf.programHeaders.foldlM (loadSegment L elf) (ms, p, 0)
  -- The conversion of an address to `usize` extends the sign.
  let maxEndVa := maxEndVpn * pageSize
  let maxEnd := if 2 ^ 38 ≤ maxEndVa then maxEndVa ||| (2 ^ 64 - 2 ^ 39) else maxEndVa
  some (ms, p, (maxEnd + pageSize) % 2 ^ 64, elf.entryPoint)

/-- One page copied by `clone`. -/
def clonePage (L : Layout) (src dst : PageTable) (p : Phys) (vpn : ℕ) : Option Phys := do
  let srcPpn := ptePpn (← src.translate p vpn)
  let dstPpn := ptePpn (← dst.translate p vpn)
  p.store L dstPpn (p.memory srcPpn)

/-- One turn of the loop of `clone`. -/
def cloneArea (L : Layout) (src : MemorySet) (st : MemorySet × Phys) (area : MapArea) :
    Option (MemorySet × Phys) := do
  let (ms, p) ← st.1.push L st.2 area none
  let p ← area.vpns.foldlM (clonePage L src.pageTable ms.pageTable) p
  some (ms, p)

/-- `clone`. -/
def clone (L : Layout) (src : MemorySet) (p : Phys) : Option (MemorySet × Phys) := do
  let (ms, p) ← newBare p
  let st ← ms.mapTrampoline L p
  src.areas.foldlM (cloneArea L src) st

/-- The drop of a memory set. -/
def drop (ms : MemorySet) (p : Phys) : Option Phys := p.deallocAll ms.pageTable.frames

/-- `ustack_bottom_from_tid`. -/
def ustackBottom (ustackBase tid : ℕ) : ℕ := (ustackBase + tid * (pageSize + userStackSize)) % 2 ^ 64

/-- `trap_cx_bottom_from_tid`. -/
def trapCxBottom (tid : ℕ) : ℕ := (((trapContextBase : ℤ) - tid * pageSize) % 2 ^ 64).toNat

/-- `TaskUserRes::alloc_user_res`. -/
def allocUserRes (L : Layout) (ms : MemorySet) (p : Phys) (ustackBase tid : ℕ) :
    Option (MemorySet × Phys) := do
  let ustack := ustackBottom ustackBase tid
  let (ms, p) ← ms.insertFramedArea L p ustack (ustack + userStackSize) ⟨true, true, false, true⟩
  let trapCx := trapCxBottom tid
  ms.insertFramedArea L p trapCx (trapCx + pageSize) ⟨true, true, false, false⟩

/-- `remove_area_with_start_vpn(va.into())`: the conversion asserts that the address is aligned. -/
def removeAreaAt (ms : MemorySet) (p : Phys) (va : ℕ) : Option (MemorySet × Phys) :=
  if va % 2 ^ 39 % pageSize = 0 then ms.removeAreaWithStartVpn p (pageFloor (va % 2 ^ 39)) else none

/-- `TaskUserRes::dealloc_user_res`. -/
def deallocUserRes (ms : MemorySet) (p : Phys) (ustackBase tid : ℕ) : Option (MemorySet × Phys) := do
  let (ms, p) ← ms.removeAreaAt p (ustackBottom ustackBase tid)
  ms.removeAreaAt p (trapCxBottom tid)

/-- What `exec` does to the address space of the process: the new one is built first, then it replaces the
old one, which is dropped, and the main thread gets its stack and trap context. -/
def exec (L : Layout) (old : MemorySet) (p : Phys) (elf : ElfFile) (tid : ℕ) :
    Option (MemorySet × Phys) := do
  let (ms, p, ustackBase, _) ← fromElf L p elf
  let p ← old.drop p
  ms.allocUserRes L p ustackBase tid

/-! ### What the functions do to the frames -/

variable {L : Layout} {ms ms' : MemorySet} {p p' : Phys} {forgotten : List MapArea}

/-- The zones of a memory set that has forgotten some of its areas. -/
def zones (ms : MemorySet) (forgotten : List MapArea) : List Zone := (ms.areas ++ forgotten).map MapArea.zone

/-- The invariant of a memory set. -/
def Inv (L : Layout) (ms : MemorySet) (p : Phys) (forgotten : List MapArea) : Prop :=
  Space L ms.pageTable p (ms.zones forgotten)

/-- A function that starts with the frames `own` and ends with the memory set `ms'`. -/
structure Work (L : Layout) (p : Phys) (own : Set ℕ) (ms' : MemorySet) (p' : Phys)
    (forgotten : List MapArea) : Prop where
  inv : ms'.Inv L p' forgotten
  footprint : Footprint p.heap own p'.heap ms'.pageTable.owned

theorem Work.trans {own : Set ℕ} {ms'' : MemorySet} {p'' : Phys} {fgt : List MapArea}
    (h₁ : Work L p own ms' p' forgotten) (h₂ : Work L p' ms'.pageTable.owned ms'' p'' fgt) :
    Work L p own ms'' p'' fgt := ⟨h₂.inv, h₁.footprint.trans h₂.footprint⟩

theorem Work.refl (hi : ms.Inv L p forgotten) : Work L p ms.pageTable.owned ms p forgotten :=
  ⟨hi, Footprint.refl _ _⟩

/-- Another memory set whose frames are not the worker's is not affected. -/
theorem Inv.kept {own own' : Set ℕ} {other : MemorySet} {fgt : List MapArea} (hi : other.Inv L p fgt)
    (hw : Footprint p.heap own p'.heap own')
    (hd : ∀ f ∈ other.pageTable.frames, f ∉ own) : other.Inv L p' fgt := by
  have hkept : ∀ f ∈ other.pageTable.frames,
      p'.allocator.Allocated f ∧ p'.memory f = p.memory f := fun f hf =>
    hw.kept f (hi.sound.allocated f hf) (hd f hf)
  exact hi.congr (fun f hf => (hkept f hf).1) fun f hf => (hkept f (PageTable.metadata_mem hf)).2

theorem newBare_spec (L : Layout) (h : newBare p = some (ms', p')) :
    Work L p ∅ ms' p' [] ∧ ms'.areas = [] := by
  simp only [newBare, Option.bind_eq_bind, Option.bind_eq_some_iff, Option.some.injEq,
    Prod.mk.injEq, Prod.exists] at h
  obtain ⟨pt, p₁, hnew, rfl, rfl⟩ := h
  obtain ⟨htab, hdata, hleaf, hfoot⟩ := PageTable.new_spec hnew
  refine ⟨⟨⟨⟨htab, ?_⟩, ?_, List.Pairwise.nil, ?_, ?_⟩, hfoot⟩, rfl⟩
  · rw [hdata]
    exact fun e he => absurd he List.not_mem_nil
  · exact fun z hz => absurd hz List.not_mem_nil
  · exact fun z hz => absurd hz List.not_mem_nil
  · intro v g _ hg
    rw [hleaf v] at hg
    cases hg

theorem mapTrampoline_spec (hi : ms.Inv L p []) (ha : ms.areas = [])
    (h : ms.mapTrampoline L p = some (ms', p')) :
    Work L p ms.pageTable.owned ms' p' [] ∧ ms'.areas = [] := by
  simp only [mapTrampoline, Option.bind_eq_bind, Option.bind_eq_some_iff, Option.some.injEq,
    Prod.mk.injEq, Prod.exists] at h
  obtain ⟨pt, p₁, hmap, rfl, rfl⟩ := h
  obtain ⟨hnone, hw⟩ := PageTable.map_spec hi.sound.toTables (by decide) hmap
  have hvpn : trampolineVpn < vpnEnd := by decide
  have hstep := hw.pageStep hvpn fun e he => by
    refine ⟨(hi.sound.recorded e he).1, fun _ => (hi.sound.recorded e he).2, fun hev => ?_⟩
    rw [← hev, (hi.sound.recorded e he).2] at hnone
    cases hnone
  have hz : ({ ms with pageTable := pt } : MemorySet).zones [] = [] := by simp [zones, ha]
  refine ⟨⟨⟨hstep.sound, ?_, ?_, ?_, ?_⟩, hw.footprint⟩, ha⟩
  · rw [hz]
    exact fun z hz => absurd hz List.not_mem_nil
  · rw [hz]
    exact List.Pairwise.nil
  · rw [hz]
    exact fun z hz => absurd hz List.not_mem_nil
  · intro v g hv hg
    by_cases hev : v = trampolineVpn
    · rw [hev, hw.leaf_self, Option.some.injEq] at hg
      exact Or.inr (Or.inl ⟨hev, hg.symm⟩)
    · rw [hstep.leaf v hv hev] at hg
      have := hi.accounted v g hv hg
      simp only [zones, ha, List.append_nil, List.map_nil] at this
      rcases this with hd | ht | ⟨z, hz, -⟩
      · exact Or.inl ((hstep.data (v, g) hev).mpr hd)
      · exact Or.inr (Or.inl ht)
      · exact absurd hz List.not_mem_nil

theorem zones_push (ms : MemorySet) (pt : PageTable) (area : MapArea) (forgotten : List MapArea) :
    (area.zone :: ms.zones forgotten).Perm (zones ⟨pt, ms.areas ++ [area]⟩ forgotten) := by
  rw [zones, zones, ← List.map_cons]
  refine List.Perm.map _ ?_
  simpa using List.perm_middle.symm

theorem push_spec (hi : ms.Inv L p forgotten)
    (h : ms.push L p area none = some (ms', p')) :
    Work L p ms.pageTable.owned ms' p' forgotten ∧ ms'.areas = ms.areas ++ [area] := by
  simp only [push, Option.bind_eq_bind, Option.bind_eq_some_iff, Option.some.injEq, Prod.mk.injEq,
    Prod.exists] at h
  obtain ⟨pt, p₁, hmap, p₂, rfl, rfl, rfl⟩ := h
  obtain ⟨hs, hf⟩ := hi.map hmap
  exact ⟨⟨hs.perm (zones_push ms pt area forgotten), hf⟩, rfl⟩

/-- In a space all of whose zones are framed, what the kernel can write through an entry is a recorded
frame: an invalid entry is zero, and the trampoline is not writable. -/
theorem writable_recorded {zs : List Zone} (hs : Space L pt p zs)
    (hfr : ∀ z ∈ zs, z.mapType = .framed) {vpn e : ℕ} (ht : pt.translate p vpn = some e)
    (hw : L.Writable (ptePpn e)) : (vpn % vpnEnd, ptePpn e) ∈ pt.dataFrames := by
  have hvalid : isValid e = true := by
    rw [PageTable.translate, Option.map_eq_some_iff] at ht
    obtain ⟨t, hfind, rfl⟩ := ht
    rw [PageTable.findPte_eq] at hfind
    have htm := hs.sound.walk_mem (by simp [indexes]) hfind
    rcases hs.sound.blank t htm (lastIndex vpn) with hv | hzero
    · exact hv
    · have hpos : 0 < pageCeil L.ekernel := Nat.zero_lt_of_lt L.strampoline_lt
      rw [hzero] at hw
      exact absurd hw.1 (Nat.not_le.mpr hpos)
  have hleaf : pt.leaf p (vpn % vpnEnd) = some (ptePpn e) := by
    rw [PageTable.leaf_mod, PageTable.leaf_eq_translate, ht]
    simp [hvalid]
  rcases hs.accounted _ _ (Nat.mod_lt _ (by decide)) hleaf with hd | ⟨-, htr⟩ | ⟨z, hz, hty, -⟩
  · exact hd
  · have hlt := L.strampoline_lt
    have hle : pageFloor L.strampoline % 2 ^ 44 ≤ pageFloor L.strampoline := Nat.mod_le _ _
    exact absurd hw.1 (by rw [htr]; omega)
  · exact absurd (hfr z hz) hty

/-- The loop of `copy_data` in a space all of whose zones are framed: no table is written to. -/
theorem copyChunks_spec {zs : List Zone} (hs : Space L pt p zs)
    (hfr : ∀ z ∈ zs, z.mapType = .framed) {cs : List (List ℕ)} {vpn vpn' : ℕ}
    (h : cs.foldlM (MapArea.copyChunk L pt) (vpn, p) = some (vpn', p')) :
    Space L pt p' zs ∧ Footprint p.heap pt.owned p'.heap pt.owned ∧
      ∀ f ∈ pt.metadataFrames, p'.memory f = p.memory f := by
  refine foldlM_invariant
    (fun st : ℕ × Phys => Space L pt st.2 zs ∧ Footprint p.heap pt.owned st.2.heap pt.owned ∧
      ∀ f ∈ pt.metadataFrames, st.2.memory f = p.memory f) cs ?_
    ⟨hs, Footprint.refl _ _, fun f _ => rfl⟩ h
  rintro ⟨vpn₀, p₀⟩ chunk ⟨vpn₁, p₁⟩ _ ⟨hs₀, hf₀, hm₀⟩ hone
  simp only [MapArea.copyChunk, Option.bind_eq_bind, Option.bind_eq_some_iff, Option.some.injEq,
    Prod.mk.injEq] at hone
  obtain ⟨e, ht, p₂, hst, -, rfl⟩ := hone
  rw [Phys.store] at hst
  split at hst
  · rename_i hw
    obtain rfl := Option.some.inj hst
    have hrec := writable_recorded hs₀ hfr ht hw
    obtain ⟨hs₁, hf₁⟩ := hs₀.setFrame hrec (overlay (p₀.memory (ptePpn e)) chunk)
    refine ⟨hs₁, hf₀.trans hf₁, fun f hf => ?_⟩
    have hne : f ≠ ptePpn e := fun heq => hs₀.sound.data_not_metadata hrec (heq ▸ hf)
    exact (Phys.setFrame_memory_of_ne hne _).trans (hm₀ f hf)
  · cases hst

/-- The areas of a memory set are framed. -/
def AllFramed (areas : List MapArea) : Prop := ∀ a ∈ areas, a.mapType = .framed

theorem copyData_spec {areas : List MapArea}
    (hs : Space L pt p (areas.map MapArea.zone)) (hfr : AllFramed areas)
    (h : area.copyData L pt p data = some p') :
    Space L pt p' (areas.map MapArea.zone) ∧ Footprint p.heap pt.owned p'.heap pt.owned ∧
      ∀ f ∈ pt.metadataFrames, p'.memory f = p.memory f := by
  rw [MapArea.copyData] at h
  split at h
  · rw [Option.map_eq_some_iff] at h
    obtain ⟨⟨vpn, p₁⟩, hfold, rfl⟩ := h
    refine copyChunks_spec hs ?_ hfold
    intro z hz
    obtain ⟨a, ha, rfl⟩ := List.mem_map.mp hz
    exact hfr a ha
  · cases h

theorem push_data_inv (hfr : AllFramed ms.areas)
    (h : ms.push L p area (some data) = some (ms', p')) :
    ∃ pt p₁, area.map (ms.pageTable, p) = some (pt, p₁) ∧ area.copyData L pt p₁ data = some p' ∧
      ms' = ⟨pt, ms.areas ++ [area]⟩ ∧ AllFramed ms'.areas := by
  simp only [push, Option.bind_eq_bind, Option.bind_eq_some_iff, Option.some.injEq, Prod.mk.injEq,
    Prod.exists] at h
  obtain ⟨pt, p₁, hmap, p₂, hcopy, rfl, rfl⟩ := h
  refine ⟨pt, p₁, hmap, hcopy, rfl, fun a ha => ?_⟩
  rw [MapArea.copyData] at hcopy
  split at hcopy
  · rename_i hty
    rcases List.mem_append.mp ha with ha | ha
    · exact hfr a ha
    · rw [List.mem_singleton.mp ha]
      exact hty
  · cases hcopy

theorem push_data_spec (hi : ms.Inv L p [])
    (hfr : AllFramed ms.areas) (h : ms.push L p area (some data) = some (ms', p')) :
    Work L p ms.pageTable.owned ms' p' [] ∧ AllFramed ms'.areas := by
  obtain ⟨pt, p₁, hmap, hcopy, rfl, hfr'⟩ := push_data_inv hfr h
  obtain ⟨hs, hf⟩ := hi.map hmap
  have hs' := hs.perm (zones_push ms pt area [])
  rw [zones, List.append_nil] at hs'
  obtain ⟨hs₂, hf₂, -⟩ := copyData_spec hs' hfr' hcopy
  refine ⟨⟨?_, hf.trans hf₂⟩, hfr'⟩
  rw [Inv, zones, List.append_nil]
  exact hs₂

theorem insertFramedArea_spec {startVa endVa : ℕ} {perm : MapPermission} (hi : ms.Inv L p forgotten)
    (h : ms.insertFramedArea L p startVa endVa perm = some (ms', p')) :
    Work L p ms.pageTable.owned ms' p' forgotten := by
  simp only [insertFramedArea, Option.bind_eq_bind, Option.bind_eq_some_iff] at h
  obtain ⟨area, -, hpush⟩ := h
  exact (push_spec hi hpush).1

/-- `remove_area_with_start_vpn` finds nothing, or unmaps the area that it takes off the list. -/
theorem removeAreaWithStartVpn_inv {startVpn : ℕ}
    (h : ms.removeAreaWithStartVpn p startVpn = some (ms', p')) :
    (ms' = ms ∧ p' = p ∧ ∀ a ∈ ms.areas, a.start ≠ startVpn) ∨ ∃ area, area.start = startVpn ∧
      area.unmap (ms.pageTable, p) = some (ms'.pageTable, p') ∧ ms.areas.Perm (area :: ms'.areas) := by
  rw [removeAreaWithStartVpn] at h
  split at h
  · rename_i area hfind
    simp only [Option.bind_eq_bind, Option.bind_eq_some_iff, Option.some.injEq, Prod.mk.injEq,
      Prod.exists] at h
    obtain ⟨pt, p₁, hun, rfl, rfl⟩ := h
    obtain ⟨harea, l, r, hsplit, hl⟩ := List.find?_eq_some_iff_append.mp hfind
    have hl' : ∀ a ∈ l, ¬ (decide (a.start = startVpn)) = true := fun a ha => by
      simpa using hl a ha
    have herase : ms.areas.eraseP (·.start = startVpn) = l ++ r := by
      rw [hsplit, List.eraseP_append_right _ hl']
      simp [harea]
    refine Or.inr ⟨area, of_decide_eq_true harea, hun, ?_⟩
    show ms.areas.Perm (area :: ms.areas.eraseP (·.start = startVpn))
    rw [herase, hsplit]
    exact List.perm_middle
  · rename_i hfind
    obtain ⟨rfl, rfl⟩ := Prod.mk.inj (Option.some.inj h)
    exact Or.inl ⟨rfl, rfl, fun a ha => by simpa using List.find?_eq_none.mp hfind a ha⟩

theorem zones_perm (h : ms.areas.Perm (area :: ms'.areas)) (forgotten : List MapArea) :
    (ms.zones forgotten).Perm (area.zone :: ms'.zones forgotten) := by
  rw [zones, zones, ← List.map_cons, ← List.cons_append]
  exact (h.append_right forgotten).map MapArea.zone

/-- **`remove_area_with_start_vpn`** unmaps the area it removes from the list. -/
theorem removeAreaWithStartVpn_spec {startVpn : ℕ} (hi : ms.Inv L p forgotten)
    (h : ms.removeAreaWithStartVpn p startVpn = some (ms', p')) :
    Work L p ms.pageTable.owned ms' p' forgotten := by
  rcases removeAreaWithStartVpn_inv h with ⟨rfl, rfl, -⟩ | ⟨area, -, hun, hperm⟩
  · exact Work.refl hi
  · obtain ⟨hs, hf⟩ := (hi.perm (zones_perm hperm forgotten)).unmap hun
    exact ⟨hs, hf⟩

theorem recycleDataPages_spec (hi : ms.Inv L p forgotten) :
    ms.recycleDataPages.Inv L p (ms.areas ++ forgotten) := hi

theorem newKernel_spec (h : newKernel L p = some (ms', p')) : Work L p ∅ ms' p' [] := by
  simp only [newKernel, Option.bind_eq_bind, Option.bind_eq_some_iff, Prod.exists] at h
  obtain ⟨ms₀, p₀, hbare, ms₁, p₁, htr, hfold⟩ := h
  obtain ⟨hw₀, ha₀⟩ := newBare_spec L hbare
  have hw₁ := hw₀.trans (mapTrampoline_spec hw₀.inv ha₀ htr).1
  refine foldlM_invariant (fun st : MemorySet × Phys => Work L p ∅ st.1 st.2 []) _ ?_ hw₁ hfold
  rintro ⟨ms₂, p₂⟩ ⟨start, stop, perm⟩ ⟨ms₃, p₃⟩ _ hw₂ hone
  simp only [Option.bind_eq_some_iff] at hone
  obtain ⟨area, -, hpush⟩ := hone
  exact hw₂.trans (push_spec hw₂.inv hpush).1

/-- **`from_elf`** builds an address space whose areas are all framed. -/
theorem fromElf_spec {base entry : ℕ}
    (h : fromElf L p elf = some (ms', p', base, entry)) : Work L p ∅ ms' p' [] := by
  simp only [fromElf, Option.bind_eq_bind, Option.bind_eq_some_iff, Option.some.injEq,
    Prod.mk.injEq, Prod.exists] at h
  obtain ⟨ms₀, p₀, hbare, ms₁, p₁, htr, ms₂, p₂, maxEnd, hfold, rfl, rfl, -⟩ := h
  obtain ⟨hw₀, ha₀⟩ := newBare_spec L hbare
  obtain ⟨hw₁, ha₁⟩ := mapTrampoline_spec hw₀.inv ha₀ htr
  have hstart : Work L p ∅ ms₁ p₁ [] ∧ AllFramed ms₁.areas :=
    ⟨hw₀.trans hw₁, by rw [ha₁]; exact fun a ha => absurd ha List.not_mem_nil⟩
  refine (foldlM_invariant (fun st : MemorySet × Phys × ℕ =>
    Work L p ∅ st.1 st.2.1 [] ∧ AllFramed st.1.areas) _ ?_ hstart hfold).1
  rintro ⟨ms₃, p₃, n₃⟩ ph ⟨ms₄, p₄, n₄⟩ _ ⟨hw₃, hfr₃⟩ hone
  rw [loadSegment] at hone
  split at hone
  · simp only [Option.bind_eq_bind, Option.bind_eq_some_iff] at hone
    obtain ⟨area, -, hone⟩ := hone
    split at hone
    · simp only [Option.bind_eq_some_iff, Option.some.injEq, Prod.mk.injEq, Prod.exists] at hone
      obtain ⟨ms₅, p₅, hpush, rfl, rfl, -⟩ := hone
      obtain ⟨hw₅, hfr₅⟩ := push_data_spec hw₃.inv hfr₃ hpush
      exact ⟨hw₃.trans hw₅, hfr₅⟩
    · cases hone
  · obtain ⟨rfl, rfl, -⟩ : ms₃ = ms₄ ∧ p₃ = p₄ ∧ n₃ = n₄ := by simpa using hone
    exact ⟨hw₃, hfr₃⟩

/-! ### Cloning -/

theorem clonePage_eq {src dst : PageTable} {vpn g f : ℕ} (hg : src.leaf p vpn = some g)
    (hf : dst.leaf p vpn = some f) : clonePage L src dst p vpn = p.store L f (p.memory g) := by
  obtain ⟨e, he, -, rfl⟩ := PageTable.translate_of_leaf hg
  obtain ⟨d, hd, -, rfl⟩ := PageTable.translate_of_leaf hf
  rw [clonePage, he, hd]
  rfl

/-- A page of a framed area is copied into the frame recorded for it; the pages of the other areas have
the same frame in both spaces, so that nothing changes. -/
theorem clonePage_spec {src dst : PageTable} {zsrc zdst : List Zone} {z : Zone} {vpn : ℕ}
    (hsrc : Space L src p zsrc) (hdst : Space L dst p zdst) (hzs : z ∈ zsrc) (hzd : z ∈ zdst)
    (hv : z.Contains vpn) (h : clonePage L src dst p vpn = some p') :
    Space L dst p' zdst ∧ Footprint p.heap dst.owned p'.heap dst.owned := by
  have hbs := hsrc.backed z hzs vpn hv
  have hbd := hdst.backed z hzd vpn hv
  have hstored : ∀ {g f : ℕ}, src.leaf p vpn = some g → dst.leaf p vpn = some f →
      p' = p.setFrame f (p.memory g) := by
    intro g f hg hf
    rw [clonePage_eq hg hf, Phys.store] at h
    split at h
    · exact (Option.some.inj h).symm
    · cases h
  have hsame : ∀ {g : ℕ}, src.leaf p vpn = some g → dst.leaf p vpn = some g → p' = p := by
    intro g hsg hdg
    rw [hstored hsg hdg, Phys.setFrame, Function.update_eq_self]
  cases hty : z.mapType with
  | framed =>
    rw [hty] at hbd
    obtain ⟨f, hf⟩ := hbd
    obtain ⟨g, hg⟩ := Option.ne_none_iff_exists'.mp (hbs.leaf_ne_none hsrc.sound)
    rw [hstored hg (hdst.sound.recorded _ hf).2]
    exact hdst.setFrame hf _
  | identical =>
    rw [hty] at hbs hbd
    rw [hsame hbs.1 hbd.1]
    exact ⟨hdst, Footprint.refl _ _⟩
  | linear off =>
    rw [hty] at hbs hbd
    rw [hsame hbs.1 hbd.1]
    exact ⟨hdst, Footprint.refl _ _⟩

theorem mem_vpns {v : ℕ} (h : v ∈ area.vpns) : area.zone.Contains v := by
  rw [MapArea.vpns, List.mem_range'_1] at h
  have := area.start_le
  exact ⟨h.1, by show v < area.stop; omega⟩

/-- A set whose frames are in use is not touched by the building of a new one. -/
theorem Work.other (hw : Work L p ∅ ms' p' []) (hi : src.Inv L p forgotten) :
    src.Inv L p' forgotten := hi.kept hw.footprint fun _ _ => Set.notMem_empty _

/-- One turn of the loop of `clone`: the area is mapped, then its pages are copied. -/
theorem cloneArea_spec {ms₁ : MemorySet} {p₁ : Phys} (hsrc : src.Inv L p forgotten)
    (ha : area ∈ src.areas) (hw : Work L p ∅ ms₁ p₁ [])
    (h : cloneArea L src (ms₁, p₁) area = some (ms', p')) : Work L p ∅ ms' p' [] := by
  simp only [cloneArea, Option.bind_eq_bind, Option.bind_eq_some_iff, Option.some.injEq,
    Prod.mk.injEq, Prod.exists] at h
  obtain ⟨ms₂, p₂, hpush, p₃, hcopy, rfl, rfl⟩ := h
  obtain ⟨hw₂, hareas⟩ := push_spec hw.inv hpush
  have hstart := hw.trans hw₂
  have hzs : area.zone ∈ src.zones forgotten :=
    List.mem_map_of_mem (List.mem_append_left _ ha)
  have hzd : area.zone ∈ ms₂.zones [] := by
    rw [zones, hareas]
    exact List.mem_map_of_mem (by simp)
  refine foldlM_invariant (fun q : Phys => Work L p ∅ ms₂ q []) _ ?_ hstart hcopy
  intro q v q' hv hwq hone
  obtain ⟨hs, hf⟩ := clonePage_spec (hwq.other hsrc) hwq.inv hzs hzd (mem_vpns hv) hone
  exact hwq.trans ⟨hs, hf⟩

/-- **`clone`** builds an address space of its own frames. -/
theorem clone_spec (hsrc : src.Inv L p forgotten)
    (h : src.clone L p = some (ms', p')) : Work L p ∅ ms' p' [] := by
  simp only [clone, Option.bind_eq_bind, Option.bind_eq_some_iff, Prod.exists] at h
  obtain ⟨ms₀, p₀, hbare, ms₁, p₁, htr, hfold⟩ := h
  obtain ⟨hw₀, ha₀⟩ := newBare_spec L hbare
  have hw₁ := hw₀.trans (mapTrampoline_spec hw₀.inv ha₀ htr).1
  refine foldlM_invariant (fun st : MemorySet × Phys => Work L p ∅ st.1 st.2 []) _ ?_ hw₁ hfold
  rintro ⟨ms₂, p₂⟩ area ⟨ms₃, p₃⟩ ha hw₂ hone
  exact cloneArea_spec hsrc ha hw₂ hone

/-! ### Threads, `exec` and drop -/

theorem allocUserRes_spec {ustackBase : ℕ} (hi : ms.Inv L p forgotten)
    (h : ms.allocUserRes L p ustackBase tid = some (ms', p')) :
    Work L p ms.pageTable.owned ms' p' forgotten := by
  simp only [allocUserRes, Option.bind_eq_bind, Option.bind_eq_some_iff, Prod.exists] at h
  obtain ⟨ms₁, p₁, hstack, htrap⟩ := h
  have hw₁ := insertFramedArea_spec hi hstack
  exact hw₁.trans (insertFramedArea_spec hw₁.inv htrap)

theorem removeAreaAt_spec {va : ℕ} (hi : ms.Inv L p forgotten)
    (h : ms.removeAreaAt p va = some (ms', p')) : Work L p ms.pageTable.owned ms' p' forgotten := by
  rw [removeAreaAt] at h
  split at h
  · exact removeAreaWithStartVpn_spec hi h
  · cases h

theorem deallocUserRes_spec {ustackBase : ℕ} (hi : ms.Inv L p forgotten)
    (h : ms.deallocUserRes p ustackBase tid = some (ms', p')) :
    Work L p ms.pageTable.owned ms' p' forgotten := by
  simp only [deallocUserRes, Option.bind_eq_bind, Option.bind_eq_some_iff, Prod.exists] at h
  obtain ⟨ms₁, p₁, hstack, htrap⟩ := h
  have hw₁ := removeAreaAt_spec hi hstack
  exact hw₁.trans (removeAreaAt_spec hw₁.inv htrap)

/-- **Dropping** a memory set does not fail, and gives back exactly its frames. -/
theorem drop_spec (hi : ms.Inv L p forgotten) :
    ∃ p', ms.drop p = some p' ∧ Footprint p.heap ms.pageTable.owned p'.heap ∅ := by
  obtain ⟨p', hd, hal, hmem⟩ := Phys.deallocAll_spec _ hi.sound.nodup hi.sound.allocated
  refine ⟨p', hd, fun f hf hn => ⟨(hal f).mpr ⟨hf, hn⟩, congrFun hmem f⟩, fun f hf => ?_⟩
  exact absurd hf (Set.notMem_empty f)

/-- In `exec` the old address space is dropped when the new one has been built; no frame is in both. -/
theorem exec_dropped {old : MemorySet} {base entry : ℕ} {p₁ p₂ : Phys}
    (hi : old.Inv L p forgotten) (helf : fromElf L p elf = some (ms, p₁, base, entry))
    (hdrop : old.drop p₁ = some p₂) : Work L p old.pageTable.owned ms p₂ [] := by
  have hw₁ := fromElf_spec helf
  obtain ⟨p₂', hdrop', hfoot⟩ := drop_spec (hw₁.other hi)
  obtain rfl : p₂' = p₂ := by rw [hdrop, Option.some.injEq] at hdrop'; exact hdrop'.symm
  have hapart : ∀ f ∈ ms.pageTable.frames, f ∉ old.pageTable.owned := by
    intro f hf hold
    exact (hw₁.footprint.fresh f hf).resolve_left (Set.notMem_empty f) (hi.sound.allocated f hold)
  exact ⟨hw₁.inv.kept hfoot hapart, hw₁.footprint.replace hfoot⟩

/-- **`exec`** builds the new address space before it drops the old one. -/
theorem exec_spec {old : MemorySet} (hi : old.Inv L p forgotten)
    (h : exec L old p elf tid = some (ms', p')) : Work L p old.pageTable.owned ms' p' [] := by
  simp only [exec, Option.bind_eq_bind, Option.bind_eq_some_iff, Prod.exists] at h
  obtain ⟨ms₁, p₁, base, entry, helf, p₂, hdrop, hres⟩ := h
  have hw := exec_dropped hi helf hdrop
  exact hw.trans (allocUserRes_spec hw.inv hres)

end MemorySet

end LemonCore.Kernel.Mm
