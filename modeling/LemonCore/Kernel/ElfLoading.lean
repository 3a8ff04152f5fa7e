import LemonCore.Kernel.AreaLifetimes
import LemonCore.Kernel.UserPointers

/-!
# The segments of a program (`MemorySet::from_elf`)

`from_elf` maps an area for each loadable program header, in the order of the headers, and returns the address
above which the stacks of the threads are placed.  The variable `max_end_vpn` is set by every header: it ends
up with the end of the last segment, whether this is the highest one or not.

* `AreaOf`: the area that a header asks for;
* `Loading`: what the loop keeps.  The areas are those of the headers seen, and the trampoline stays;
* `StackApart`: the stack of a thread can be mapped as far as the segments are concerned;
* `user_stacks_above_iff`: this holds exactly if no segment ends above the last one.
-/

namespace LemonCore.Kernel.Mm

namespace ProgramHeader

/-- The first page of the segment. -/
def startVpn (ph : ProgramHeader) : ℕ := pageFloor (ph.virtualAddr % 2 ^ 39)

/-- The page behind the segment. -/
def endVpn (ph : ProgramHeader) : ℕ := pageCeil ((ph.virtualAddr + ph.memSize) % 2 ^ 39)

/-- `U` and the flags of the header. -/
def mapPerm (ph : ProgramHeader) : MapPermission := ⟨ph.read, ph.write, ph.execute, true⟩

end ProgramHeader

namespace ElfFile

/-- The headers that are loaded. -/
def loads (elf : ElfFile) : List ProgramHeader := elf.programHeaders.filter (·.load)

/-- The bytes of the file that a segment is filled with. -/
def slice (elf : ElfFile) (ph : ProgramHeader) : List ℕ :=
  (elf.input.take ((ph.offset + ph.fileSize) % 2 ^ 64)).drop ph.offset

/-- What a segment has to hold: the bytes of the file, and zeros behind them. -/
def image (elf : ElfFile) (ph : ProgramHeader) (i : ℕ) : ℕ :=
  if i < ph.fileSize then elf.input.getD (ph.offset + i) 0 else 0

/-- The fields of the headers are words of 64 bits, and the input consists of bytes. -/
structure Parsed (elf : ElfFile) : Prop where
  word : ∀ ph ∈ elf.programHeaders, ph.virtualAddr < 2 ^ 64 ∧ ph.memSize < 2 ^ 64 ∧ ph.offset < 2 ^ 64 ∧
    ph.fileSize < 2 ^ 64
  byte : ∀ b ∈ elf.input, b < 256

end ElfFile

/-- The end of the last segment, and zero if there is none. -/
def lastEndVpn (loads : List ProgramHeader) : ℕ := (loads.getLast?.map ProgramHeader.endVpn).getD 0

theorem lastEndVpn_append (loads : List ProgramHeader) (ph : ProgramHeader) :
    lastEndVpn (loads ++ [ph]) = ph.endVpn := by
  rw [lastEndVpn, List.getLast?_concat]
  rfl

theorem exists_lastEndVpn {loads : List ProgramHeader} (h : loads ≠ []) :
    ∃ ph ∈ loads, ph.endVpn = lastEndVpn loads := by
  refine ⟨loads.getLast h, List.getLast_mem h, ?_⟩
  rw [lastEndVpn, List.getLast?_eq_some_getLast h]
  rfl

theorem exists_of_forall₂ {α β : Type} {r : α → β → Prop} {l : List α} {l' : List β}
    (h : List.Forall₂ r l l') {a : α} (ha : a ∈ l) : ∃ b ∈ l', r a b := by
  induction h with
  | nil => exact absurd ha List.not_mem_nil
  | @cons x y xs ys hxy _ ih =>
    rcases List.mem_cons.mp ha with rfl | ha
    · exact ⟨y, List.mem_cons_self, hxy⟩
    · obtain ⟨b, hb, hr⟩ := ih ha
      exact ⟨b, List.mem_cons_of_mem y hb, hr⟩

/-- The area of a segment. -/
structure AreaOf (ph : ProgramHeader) (area : MapArea) : Prop where
  start : area.start = ph.startVpn
  stop : area.stop = ph.endVpn
  framed : area.mapType = .framed
  perm : area.mapPerm = ph.mapPerm

theorem AreaOf.contains {ph : ProgramHeader} {area : MapArea} (h : AreaOf ph area) {v : ℕ} :
    area.zone.Contains v ↔ ph.startVpn ≤ v ∧ v < ph.endVpn := by
  rw [← h.start, ← h.stop]
  rfl

namespace MemorySet

variable {L : Layout} {ms ms' : MemorySet} {p p' : Phys} {elf : ElfFile} {ph : ProgramHeader}
  {base entry n tid : ℕ} {done : List ProgramHeader} {st st' : MemorySet × Phys × ℕ}

/-! ### The loop over the headers -/

theorem areaOf_new {area : MapArea} (h : MapArea.new ph.virtualAddr (ph.virtualAddr + ph.memSize) .framed
    ⟨ph.read, ph.write, ph.execute, true⟩ = some area) : AreaOf ph area := by
  rw [MapArea.new] at h
  split at h
  · obtain rfl := Option.some.inj h
    exact ⟨rfl, rfl, rfl, rfl⟩
  · cases h

/-- **One turn of the loop**: a header that is not loaded is skipped, and for the others an area is pushed. -/
theorem loadSegment_cases (h : loadSegment L elf (ms, p, n) ph = some st') :
    (ph.load = false ∧ st' = (ms, p, n)) ∨
      (ph.load = true ∧ ∃ area ms' p', AreaOf ph area ∧ ph.offset ≤ (ph.offset + ph.fileSize) % 2 ^ 64 ∧
        (ph.offset + ph.fileSize) % 2 ^ 64 ≤ elf.input.length ∧
        ms.push L p area (some (elf.slice ph)) = some (ms', p') ∧ st' = (ms', p', ph.endVpn)) := by
  rw [loadSegment] at h
  split at h
  · rename_i hload
    simp only [Option.bind_eq_bind, Option.bind_eq_some_iff] at h
    obtain ⟨area, hnew, h⟩ := h
    split at h
    · rename_i hbounds
      simp only [Option.bind_eq_some_iff, Option.some.injEq, Prod.exists] at h
      obtain ⟨ms', p', hpush, rfl⟩ := h
      have harea := areaOf_new hnew
      exact Or.inr ⟨hload, area, ms', p', harea, hbounds.1, hbounds.2, hpush, by rw [harea.stop]⟩
    · cases h
  · rename_i hload
    exact Or.inl ⟨Bool.eq_false_iff.mpr hload, (Option.some.inj h).symm⟩

/-- The trampoline has the flags `V`, `R` and `X`, and not `U`. -/
def trampolineFlags : ℕ := 11

/-- **What the loop keeps**, when it has seen the headers `done`. -/
structure Loading (L : Layout) (done : List ProgramHeader) (st : MemorySet × Phys × ℕ) : Prop where
  built : Built L st.1 [] st.2.1
  framed : AllFramed st.1.areas
  areas : List.Forall₂ AreaOf (done.filter (·.load)) st.1.areas
  last : st.2.2 = lastEndVpn (done.filter (·.load))
  trampoline : st.1.flags st.2.1 trampolineVpn = some trampolineFlags

theorem Loading.area_of (h : Loading L done st) (hph : ph ∈ done.filter (·.load)) :
    ∃ area ∈ st.1.areas, AreaOf ph area := exists_of_forall₂ h.areas hph

theorem Loading.header_of (h : Loading L done st) {area : MapArea} (harea : area ∈ st.1.areas) :
    ∃ ph ∈ done.filter (·.load), AreaOf ph area := exists_of_forall₂ h.areas.flip harea

theorem flags_push {area : MapArea} {data : List ℕ} {v : ℕ} (hi : ms.Inv L p [])
    (hfr : AllFramed ms.areas) (h : ms.push L p area (some data) = some (ms', p')) (hv : v < vpnEnd)
    (hout : ¬ area.zone.Contains v) : ms'.flags p' v = ms.flags p v := by
  obtain ⟨pt, p₁, hmap, hcopy, rfl, hfr'⟩ := push_data_inv hfr h
  have hs : Space L pt p₁ ((ms.areas ++ [area]).map MapArea.zone) := by
    have hs := (hi.map hmap).1.perm (zones_push ms pt area [])
    rwa [zones, List.append_nil] at hs
  rw [flags, flags, PageTable.entry_congr hs.sound.toTables (copyData_spec hs hfr' hcopy).2.2 v,
    (MapArea.map_mapped hi.sound hmap).other v hv hout]

theorem Loading.step (h : Loading L done st) (hone : loadSegment L elf st ph = some st') :
    Loading L (done ++ [ph]) st' := by
  obtain ⟨ms, p, n⟩ := st
  rcases loadSegment_cases hone with ⟨hload, rfl⟩ | ⟨hload, area, ms', p', harea, -, -, hpush, rfl⟩
  · have hfilter : (done ++ [ph]).filter (·.load) = done.filter (·.load) := by
      rw [List.filter_append, List.filter_cons_of_neg (by rw [hload]; decide), List.filter_nil,
        List.append_nil]
    exact ⟨h.built, h.framed, hfilter ▸ h.areas, hfilter ▸ h.last, h.trampoline⟩
  · have hfilter : (done ++ [ph]).filter (·.load) = done.filter (·.load) ++ [ph] := by
      rw [List.filter_append, List.filter_cons_of_pos hload, List.filter_nil]
    obtain ⟨pt, p₁, hmap, -, heq, hfr'⟩ := push_data_inv h.framed hpush
    have hi := h.built.formed.1
    -- the area is mapped, so the trampoline is not in it
    have hout : ¬ area.zone.Contains trampolineVpn := by
      intro hin
      have hflags := h.trampoline
      have hnone := MapArea.leaf_of_map hi.sound hmap hin
      rw [PageTable.leaf_eq_entry, Option.map_eq_none_iff] at hnone
      rw [flags, hnone] at hflags
      cases hflags
    refine ⟨.pushData h.built h.framed hpush, hfr', ?_, ?_, ?_⟩
    · rw [hfilter, heq]
      exact List.rel_append h.areas (.cons harea .nil)
    · rw [hfilter, lastEndVpn_append]
    · rw [flags_push hi h.framed hpush (by decide) hout]
      exact h.trampoline

/-- `from_elf` until the loop begins. -/
theorem Loading.start {ms₀ : MemorySet} {p₀ : Phys} (hbare : newBare p = some (ms₀, p₀))
    (htr : ms₀.mapTrampoline L p₀ = some (ms, p')) : Loading L [] (ms, p', 0) := by
  obtain ⟨hw₀, ha₀⟩ := newBare_spec L hbare
  have hbuilt : Built L ms [] p' := .mapTrampoline (.newBare hbare) ha₀ htr
  have hareas := (mapTrampoline_spec hw₀.inv ha₀ htr).2
  refine ⟨hbuilt, ?_, ?_, rfl, ?_⟩
  · rw [hareas]
    exact fun a ha => absurd ha List.not_mem_nil
  · rw [hareas]
    exact .nil
  · simp only [mapTrampoline, Option.bind_eq_bind, Option.bind_eq_some_iff, Option.some.injEq,
      Prod.mk.injEq, Prod.exists] at htr
    obtain ⟨pt, p₁, hmap, rfl, rfl⟩ := htr
    show (pt.entry p₁ trampolineVpn).map pteFlags = some trampolineFlags
    rw [PageTable.map_entry hw₀.inv.sound.toTables hmap, if_pos ⟨rfl, rfl⟩, Option.map_some,
      pteFlags_pteNew (by decide)]
    rfl

/-- `from_elf` is the loop, and the base is computed from the end of the last segment. -/
theorem fromElf_loop (h : fromElf L p elf = some (ms, p', base, entry)) :
    ∃ ms₁ p₁ last, Loading L [] (ms₁, p₁, 0) ∧
      elf.programHeaders.foldlM (loadSegment L elf) (ms₁, p₁, 0) = some (ms, p', last) ∧
      base = (usizeOfVa (last * pageSize) + pageSize) % 2 ^ 64 := by
  simp only [fromElf, Option.bind_eq_bind, Option.bind_eq_some_iff, Option.some.injEq,
    Prod.mk.injEq, Prod.exists] at h
  obtain ⟨ms₀, p₀, hbare, ms₁, p₁, htr, ms₂, p₂, last, hfold, rfl, rfl, hbase, -⟩ := h
  exact ⟨ms₁, p₁, last, Loading.start hbare htr, hfold, hbase.symm⟩

/-- **What `from_elf` returns.** -/
theorem fromElf_loading (h : fromElf L p elf = some (ms, p', base, entry)) :
    Loading L elf.programHeaders (ms, p', lastEndVpn elf.loads) ∧
      base = (usizeOfVa (lastEndVpn elf.loads * pageSize) + pageSize) % 2 ^ 64 := by
  obtain ⟨ms₁, p₁, last, hstart, hfold, hbase⟩ := fromElf_loop h
  have hloop := foldlM_history (fun done st => Loading L done st) elf.programHeaders
    (fun done st ph st' _ hst hone => hst.step hone) hstart hfold
  rw [List.nil_append] at hloop
  obtain rfl : last = lastEndVpn elf.loads := hloop.last
  exact ⟨hloop, hbase⟩

/-! ### The stacks of the threads -/

/-- The pages of a segment have the flag `U`, so the trampoline is above all of them. -/
theorem Loading.endVpn_le (h : Loading L elf.programHeaders st) (hph : ph ∈ elf.loads) :
    ph.endVpn ≤ trampolineVpn := by
  obtain ⟨area, hmem, harea⟩ := h.area_of hph
  by_contra hlt
  have hin : area.zone.Contains trampolineVpn := by
    refine harea.contains.mpr ⟨?_, Nat.not_le.mp hlt⟩
    rw [ProgramHeader.startVpn, pageFloor, pageSize, trampolineVpn, vpnEnd]
    omega
  have hflags := h.built.formed.2.flags_eq hmem hin
  rw [h.trampoline, harea.perm, Option.some.injEq] at hflags
  have hbits : 16 ≤ ph.mapPerm.bits := Nat.le_add_left _ _
  have hor : ph.mapPerm.bits ≤ ph.mapPerm.bits ||| pteV := Nat.left_le_or
  rw [← hflags, trampolineFlags] at hor
  omega

theorem lastEndVpn_le (h : Loading L elf.programHeaders st) : lastEndVpn elf.loads ≤ trampolineVpn := by
  by_cases hnil : elf.loads = []
  · rw [hnil]
    exact Nat.zero_le _
  · obtain ⟨ph, hph, heq⟩ := exists_lastEndVpn hnil
    rw [← heq]
    exact h.endVpn_le hph

/-- **The stack of a thread keeps away from the segments**: none of its pages is a page of a segment, and
mapping it does not find a page that is mapped already, unless it gets to the trampoline. -/
def StackApart (ms : MemorySet) (p : Phys) (base tid : ℕ) : Prop :=
  ∀ stack, MapArea.new (ustackBottom base tid) (ustackBottom base tid + userStackSize) .framed
      ⟨true, true, false, true⟩ = some stack → ∀ v, stack.zone.Contains v →
    (∀ area ∈ ms.areas, ¬ area.zone.Contains v) ∧ (v ≠ trampolineVpn → ms.pageTable.leaf p v = none)

/-- The stack ends in the 39 bits of an address that count. -/
def InSpace (base tid : ℕ) : Prop := base % 2 ^ 39 + tid * (pageSize + userStackSize) + userStackSize ≤ 2 ^ 39

theorem stackApart_iff (hb : Built L ms [] p) : ms.StackApart p base tid ↔
    ∀ stack, MapArea.new (ustackBottom base tid) (ustackBottom base tid + userStackSize) .framed
      ⟨true, true, false, true⟩ = some stack → ∀ v, stack.zone.Contains v →
    ∀ area ∈ ms.areas, ¬ area.zone.Contains v := by
  constructor
  · intro h stack hnew v hv
    exact (h stack hnew v hv).1
  · intro h stack hnew v hv
    refine ⟨h stack hnew v hv, fun htr => hb.leaf_eq_none (MapArea.vpn_lt hv) htr ?_⟩
    rw [List.append_nil]
    exact h stack hnew v hv

theorem usizeOfVa_le_iff {a b : ℕ} (ha : a < 2 ^ 39) (hb : b < 2 ^ 39) :
    usizeOfVa a ≤ usizeOfVa b ↔ a ≤ b := by
  rcases Nat.lt_or_ge a (2 ^ 38) with hla | hla <;> rcases Nat.lt_or_ge b (2 ^ 38) with hlb | hlb
  · rw [usizeOfVa_low hla, usizeOfVa_low hlb]
  · rw [usizeOfVa_low hla, usizeOfVa_high hlb hb]
    omega
  · rw [usizeOfVa_high hla ha, usizeOfVa_low hlb]
    omega
  · rw [usizeOfVa_high hla ha, usizeOfVa_high hlb hb]
    omega

/-- The base is a page above the end that it was computed from, unless that is the last page but one. -/
theorem base_of_last {last : ℕ} (hlast : last ≤ trampolineVpn) :
    (last + 1 < vpnEnd ∧ (usizeOfVa (last * pageSize) + pageSize) % 2 ^ 64 =
        usizeOfVa (last * pageSize) + pageSize ∧
      (usizeOfVa (last * pageSize) + pageSize) % 2 ^ 39 = (last + 1) * pageSize) ∨
    (last + 1 = vpnEnd ∧ (usizeOfVa (last * pageSize) + pageSize) % 2 ^ 64 = 0) := by
  rw [trampolineVpn, vpnEnd] at hlast
  rw [vpnEnd, pageSize]
  rcases Nat.lt_or_ge (last * 4096) (2 ^ 38) with hlow | hhigh
  · rw [usizeOfVa_low hlow]
    omega
  · rw [usizeOfVa_high hhigh (by omega)]
    omega

theorem stack_pages {stack : MapArea} {page : ℕ} (hbase : base % 2 ^ 39 = page * pageSize)
    (hin : InSpace base tid) (hnew : MapArea.new (ustackBottom base tid)
      (ustackBottom base tid + userStackSize) .framed ⟨true, true, false, true⟩ = some stack) :
    stack.start = page + 3 * tid := by
  obtain ⟨hstart, -, -⟩ := MapArea.new_eq_some hnew
  rw [hstart, ustackBottom, pageFloor]
  rw [InSpace, hbase] at hin
  rw [pageSize, userStackSize] at *
  omega

/-- Every page but the trampoline is a page of the stack of some thread, since the addresses are masked. -/
theorem exists_stack {page v : ℕ} (hbase : base % 2 ^ 39 = page * pageSize) (hv : v < trampolineVpn) :
    ∃ tid stack, MapArea.new (ustackBottom base tid) (ustackBottom base tid + userStackSize) .framed
      ⟨true, true, false, true⟩ = some stack ∧ stack.zone.Contains v := by
  rw [trampolineVpn, vpnEnd] at hv
  rw [pageSize] at hbase
  -- three times this number is one more than a multiple of the number of pages
  let tid := ((min v (2 ^ 27 - 3) + 2 ^ 27 - page) * 178956971) % 2 ^ 27
  have htid : ustackBottom base tid % 2 ^ 39 = min v (2 ^ 27 - 3) * 4096 := by
    show (base + tid * (pageSize + userStackSize)) % 2 ^ 64 % 2 ^ 39 = _
    rw [pageSize, userStackSize]
    omega
  have hstart : pageFloor (ustackBottom base tid % 2 ^ 39) = min v (2 ^ 27 - 3) := by
    rw [htid, pageFloor, pageSize, Nat.mul_div_cancel _ (by decide)]
  have hstop : pageCeil ((ustackBottom base tid + userStackSize) % 2 ^ 39) = min v (2 ^ 27 - 3) + 2 := by
    rw [pageCeil, pageSize, userStackSize]
    split <;> omega
  have hle : pageFloor (ustackBottom base tid % 2 ^ 39) ≤
      pageCeil ((ustackBottom base tid + userStackSize) % 2 ^ 39) := by
    rw [hstart, hstop]
    exact Nat.le_add_right _ _
  have hsome : ∃ stack, MapArea.new (ustackBottom base tid) (ustackBottom base tid + userStackSize) .framed
      ⟨true, true, false, true⟩ = some stack := ⟨_, dif_pos hle⟩
  obtain ⟨stack, hnew⟩ := hsome
  obtain ⟨hfirst, hend, -⟩ := MapArea.new_eq_some hnew
  refine ⟨tid, stack, hnew, ?_, ?_⟩
  · show stack.start ≤ v
    rw [hfirst, hstart]
    exact Nat.min_le_left v _
  · show v < stack.stop
    rw [hend, hstop]
    omega

/-- **Where the stacks of the threads are placed.**  The base is a page above the end of every segment, and
the stacks keep away from the segments, exactly if no segment ends above the last one and there is a page left
above it.  This is about stacks that end in the address space.  The addresses of the others are masked, so
that the stack of some thread comes upon every segment that has a page. -/
theorem user_stacks_above_iff (h : fromElf L p elf = some (ms, p', base, entry)) :
    (((∀ ph ∈ elf.loads, usizeOfVa (ph.endVpn * pageSize) + pageSize ≤ base) ∧
        ∀ tid, InSpace base tid → ms.StackApart p' base tid) ↔
      ∀ ph ∈ elf.loads, ph.endVpn ≤ lastEndVpn elf.loads ∧ lastEndVpn elf.loads + 1 < vpnEnd) ∧
    ((∀ tid, ms.StackApart p' base tid) ↔ ∀ ph ∈ elf.loads, ph.endVpn ≤ ph.startVpn) := by
  obtain ⟨hloading, hbase⟩ := fromElf_loading h
  have hlast := lastEndVpn_le hloading
  have hva : ∀ {n : ℕ}, n ≤ trampolineVpn → n * pageSize < 2 ^ 39 := by
    intro n hn
    rw [trampolineVpn, vpnEnd] at hn
    rw [pageSize]
    omega
  have hle : ∀ ph ∈ elf.loads,
      (usizeOfVa (ph.endVpn * pageSize) ≤ usizeOfVa (lastEndVpn elf.loads * pageSize) ↔
      ph.endVpn ≤ lastEndVpn elf.loads) := by
    intro ph hph
    rw [usizeOfVa_le_iff (hva (hloading.endVpn_le hph)) (hva hlast)]
    exact Nat.mul_le_mul_right_iff (by decide)
  refine ⟨⟨?_, ?_⟩, ⟨?_, ?_⟩⟩
  · rintro ⟨habove, -⟩ ph hph
    obtain ⟨last, hmem, heq⟩ := exists_lastEndVpn (List.ne_nil_of_mem hph)
    rcases base_of_last hlast with ⟨hroom, hsum, -⟩ | ⟨-, hzero⟩
    · rw [hsum] at hbase
      rw [hbase] at habove
      exact ⟨(hle ph hph).mp (Nat.le_of_add_le_add_right (habove ph hph)), hroom⟩
    · -- the base is zero, which is not above anything
      have hno := habove last hmem
      rw [hbase, hzero, pageSize] at hno
      omega
  · intro hcond
    refine ⟨fun ph hph => ?_, fun tid hin => (stackApart_iff hloading.built).mpr ?_⟩
    · obtain ⟨hph', hroom⟩ := hcond ph hph
      rcases base_of_last hlast with ⟨-, hsum, -⟩ | ⟨hfull, -⟩
      · rw [hbase, hsum]
        exact Nat.add_le_add_right ((hle ph hph).mpr hph') _
      · omega
    · intro stack hnew v hv area harea hin'
      obtain ⟨ph, hph, hof⟩ := hloading.header_of harea
      obtain ⟨hph', hroom⟩ := hcond ph hph
      rcases base_of_last hlast with ⟨-, hsum, hpage⟩ | ⟨hfull, -⟩
      · rw [hsum] at hbase
        have hstart := stack_pages (hbase ▸ hpage) hin hnew
        have hbelow := (hof.contains.mp hin').2
        have habove : stack.start ≤ v := hv.1
        omega
      · omega
  · intro hall ph hph
    by_contra hpages
    obtain ⟨area, harea, hof⟩ := hloading.area_of hph
    have hin : area.zone.Contains ph.startVpn := hof.contains.mpr ⟨le_rfl, Nat.not_le.mp hpages⟩
    have htr : ph.startVpn < trampolineVpn := (Nat.not_le.mp hpages).trans_le (hloading.endVpn_le hph)
    have hpage : ∃ page, base % 2 ^ 39 = page * pageSize := by
      rcases base_of_last hlast with ⟨-, hsum, hpage⟩ | ⟨-, hzero⟩
      · exact ⟨_, by rw [hbase, hsum, hpage]⟩
      · exact ⟨0, by rw [hbase, hzero, Nat.zero_mod, Nat.zero_mul]⟩
    obtain ⟨page, hpage⟩ := hpage
    obtain ⟨tid, stack, hnew, hv⟩ := exists_stack hpage htr
    exact (hall tid stack hnew _ hv).1 area harea hin
  · intro hempty tid
    refine (stackApart_iff hloading.built).mpr ?_
    intro stack _ v _ area harea hin
    obtain ⟨ph, hph, hof⟩ := hloading.header_of harea
    have hpages := hof.contains.mp hin
    exact absurd (hpages.1.trans_lt hpages.2) (Nat.not_lt.mpr (hempty ph hph))

/-- An executable with two segments of one page. -/
def twoSegments (first second : ℕ) : ElfFile where
  input := []
  programHeaders := [⟨true, first, pageSize, 0, 0, true, false, true⟩,
    ⟨true, second, pageSize, 0, 0, true, false, true⟩]
  entryPoint := first

/-- The physical memory when the kernel has started. -/
def samplePhys : Phys := (State.start sampleLayout fun _ _ => 0).phys

/-- The higher segment comes first: the base is below its end, and the stack of the main thread cannot be
mapped. -/
theorem stack_on_first_segment : ∃ ms p entry,
    fromElf sampleLayout samplePhys (twoSegments 0x4000 0x1000) = some (ms, p, 0x3000, entry) ∧
      (∃ area ∈ ms.areas, area.start = 4 ∧ area.stop = 5) ∧
      ms.allocUserRes sampleLayout p 0x3000 0 = none := by
  have hsome : ∃ r ∈ fromElf sampleLayout samplePhys (twoSegments 0x4000 0x1000), r.2.2.1 = 0x3000 ∧
      (∃ area ∈ r.1.areas, area.start = 4 ∧ area.stop = 5) ∧
      (r.1.allocUserRes sampleLayout r.2.1 0x3000 0).isNone := by decide +kernel
  obtain ⟨⟨ms, p, base, entry⟩, hload, rfl, harea, hnone⟩ := hsome
  exact ⟨ms, p, entry, hload, harea, Option.isNone_iff_eq_none.mp hnone⟩

/-- In the other order there is no harm. -/
theorem stacks_above_second_segment : ∃ ms p base entry,
    fromElf sampleLayout samplePhys (twoSegments 0x1000 0x4000) = some (ms, p, base, entry) ∧
      ∀ tid, InSpace base tid → ms.StackApart p base tid := by
  have hsome : ∃ r, fromElf sampleLayout samplePhys (twoSegments 0x1000 0x4000) = some r := by
    apply Option.isSome_iff_exists.mp
    decide +kernel
  obtain ⟨⟨ms, p, base, entry⟩, hload⟩ := hsome
  exact ⟨ms, p, base, entry, hload, ((user_stacks_above_iff hload).1.mpr (by decide)).2⟩

end MemorySet

end LemonCore.Kernel.Mm
