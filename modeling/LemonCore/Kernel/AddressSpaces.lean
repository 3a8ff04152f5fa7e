import LemonCore.Kernel.MemorySets

/-!
# The address spaces of the machine

Any number of address spaces share the one frame allocator.  A step of the system is one of the
operations of the kernel on them, in any order; since the kernel is not preempted while it works on its
memory sets, a step is a whole operation.  Between the operations, programs and the kernel write to the
frames that back pages.

* `Op`, `step`, `Run`: the operations, what they do, and the states they lead to;
* `State.Inv`, `Run.inv`: the invariant of the whole machine, over every run;
* `frames_exclusive`: **isolation**.  Every frame that a page table holds is allocated and has one holder,
  and a framed page is mapped to the frame that its own table records for it;
* `address_space_isolated`: what is done to other address spaces changes no mapping and no byte of this one.
-/

namespace LemonCore.Kernel.Mm

open Foundation.SharedHeap

/-! ### The system -/

/-- An address space.  `forgotten` is not in the code: it keeps the areas that `recycle_data_pages` has taken
off the list, whose pages are still mapped. -/
structure AddressSpace where
  set : MemorySet
  forgotten : List MapArea

structure State where
  phys : Phys
  spaces : ℕ → Option AddressSpace

inductive Op where
  /-- The kernel's own space is built. -/
  | newKernel (id : ℕ)
  /-- A first process is created. -/
  | fromElf (id : ℕ) (elf : ElfFile)
  | fork (parent child : ℕ)
  | exec (id : ℕ) (elf : ElfFile) (tid : ℕ)
  /-- Also the kernel stacks of threads, in the kernel's space. -/
  | insertFramedArea (id startVa endVa : ℕ) (permission : MapPermission)
  | allocUserRes (id ustackBase tid : ℕ)
  | deallocUserRes (id ustackBase tid : ℕ)
  | removeAreaWithStartVpn (id startVpn : ℕ)
  | recycleDataPages (id : ℕ)
  | drop (id : ℕ)
  /-- A write to the frame recorded for a page. -/
  | store (id vpn : ℕ) (words : ℕ → ℕ)

/-- The address space that an operation works on.  A `fork` only reads that of the parent. -/
def Op.target : Op → ℕ
  | newKernel id | fromElf id _ | fork _ id | exec id _ _ | insertFramedArea id _ _ _ | allocUserRes id _ _
  | deallocUserRes id _ _ | removeAreaWithStartVpn id _ | recycleDataPages id | drop id | store id _ _ => id

namespace State

/-- A new address space under a free name. -/
def create (s : State) (id : ℕ) (build : Phys → Option (MemorySet × Phys)) : Option State := do
  if (s.spaces id).isNone then
    let (ms, p) ← build s.phys
    some ⟨p, Function.update s.spaces id (some ⟨ms, []⟩)⟩
  else none

/-- Work on the memory set of an address space. -/
def modify (s : State) (id : ℕ) (work : MemorySet → Phys → Option (MemorySet × Phys)) : Option State := do
  let space ← s.spaces id
  let (ms, p) ← work space.set s.phys
  some ⟨p, Function.update s.spaces id (some ⟨ms, space.forgotten⟩)⟩

def step (L : Layout) (s : State) : Op → Option State
  | .newKernel id => s.create id (MemorySet.newKernel L)
  | .fromElf id elf => s.create id fun p => do
    let (ms, p, _) ← MemorySet.fromElf L p elf
    some (ms, p)
  | .fork parent child => do
    let space ← s.spaces parent
    s.create child (space.set.clone L)
  | .exec id elf tid => do
    let space ← s.spaces id
    let (ms, p) ← MemorySet.exec L space.set s.phys elf tid
    some ⟨p, Function.update s.spaces id (some ⟨ms, []⟩)⟩
  | .insertFramedArea id startVa endVa permission =>
    s.modify id fun ms p => ms.insertFramedArea L p startVa endVa permission
  | .allocUserRes id ustackBase tid => s.modify id fun ms p => ms.allocUserRes L p ustackBase tid
  | .deallocUserRes id ustackBase tid => s.modify id fun ms p => ms.deallocUserRes p ustackBase tid
  | .removeAreaWithStartVpn id startVpn => s.modify id fun ms p => ms.removeAreaWithStartVpn p startVpn
  | .recycleDataPages id => do
    let space ← s.spaces id
    some ⟨s.phys, Function.update s.spaces id
      (some ⟨space.set.recycleDataPages, space.set.areas ++ space.forgotten⟩)⟩
  | .drop id => do
    let space ← s.spaces id
    let p ← space.set.drop s.phys
    some ⟨p, Function.update s.spaces id none⟩
  | .store id vpn words => do
    let space ← s.spaces id
    let e ← space.set.pageTable.dataFrames.find? (·.1 = vpn)
    some { s with phys := s.phys.setFrame e.2 words }

/-- After `frame_allocator::init`: the frames behind the image are free, whatever they hold. -/
def start (L : Layout) (memory : ℕ → ℕ → ℕ) : State where
  phys := ⟨.init (pageCeil L.ekernel) (pageFloor memoryEnd) (pageCeil_le L.ekernel_le) (by decide), memory⟩
  spaces := fun _ => none

end State

/-- The states that the operations lead to. -/
inductive Run (L : Layout) : State → Prop
  | start (memory : ℕ → ℕ → ℕ) : Run L (State.start L memory)
  | step {s s' : State} (op : Op) : Run L s → s.step L op = some s' → Run L s'

/-- Several operations in a row. -/
def State.play (L : Layout) : State → List Op → Option State
  | s, [] => some s
  | s, op :: ops => (s.step L op).bind fun s => s.play L ops

theorem Run.play {L : Layout} (ops : List Op) : ∀ {s s' : State}, Run L s → s.play L ops = some s' →
    Run L s' := by
  induction ops with
  | nil =>
    intro s s' hr h
    exact Option.some.inj h ▸ hr
  | cons op ops ih =>
    intro s s' hr h
    rw [State.play, Option.bind_eq_some_iff] at h
    obtain ⟨s₁, hone, hrest⟩ := h
    exact ih (hr.step op hone) hrest

/-! ### The invariant of the machine -/

/-- The frames of the address space under a name. -/
def State.owns (s : State) (id : ℕ) : Set ℕ :=
  {f | ∃ space, s.spaces id = some space ∧ f ∈ space.set.pageTable.frames}

/-- Every address space is in order, and no frame is in two of them. -/
structure State.Inv (L : Layout) (s : State) : Prop where
  exclusive : Exclusive s.phys.heap s.owns
  spaces : ∀ id space, s.spaces id = some space → space.set.Inv L s.phys space.forgotten

namespace State

variable {L : Layout} {s s' : State}

theorem owns_some {id : ℕ} {space : AddressSpace} (h : s.spaces id = some space) :
    s.owns id = space.set.pageTable.owned := by
  ext f
  simp [owns, h, PageTable.owned]

theorem owns_none {id : ℕ} (h : s.spaces id = none) : s.owns id = ∅ := by
  ext f
  simp [owns, h]

/-- The work of one operation: one address space is replaced by a new one, or taken away, and of the frames
that were in use only its own are touched. -/
structure Worked (L : Layout) (s s' : State) (id : ℕ) (new : Option AddressSpace) : Prop where
  spaces : s'.spaces = Function.update s.spaces id new
  footprint : Footprint s.phys.heap (s.owns id) s'.phys.heap (s'.owns id)
  inv : ∀ space, new = some space → space.set.Inv L s'.phys space.forgotten

theorem Worked.owns_of_ne {id j : ℕ} {new : Option AddressSpace} (h : Worked L s s' id new) (hj : j ≠ id) :
    s'.owns j = s.owns j := by
  ext f
  rw [owns, owns, h.spaces, Function.update_of_ne hj]

/-- The case of a memory set that replaces what was there. -/
theorem Worked.of_work {id : ℕ} {ms : MemorySet} {p' : Phys} {forgotten : List MapArea}
    (hw : MemorySet.Work L s.phys (s.owns id) ms p' forgotten) :
    Worked L s ⟨p', Function.update s.spaces id (some ⟨ms, forgotten⟩)⟩ id (some ⟨ms, forgotten⟩) := by
  have hget : (⟨p', Function.update s.spaces id (some ⟨ms, forgotten⟩)⟩ : State).spaces id =
      some ⟨ms, forgotten⟩ := Function.update_self ..
  refine ⟨rfl, ?_, fun space hsp => ?_⟩
  · rw [owns_some hget]
    exact hw.footprint
  · obtain rfl := Option.some.inj hsp
    exact hw.inv

theorem create_worked {id : ℕ} {build : Phys → Option (MemorySet × Phys)}
    (hb : ∀ ms p, build s.phys = some (ms, p) → MemorySet.Work L s.phys ∅ ms p [])
    (h : s.create id build = some s') : ∃ new, Worked L s s' id new := by
  rw [State.create] at h
  split at h
  · rename_i hnone
    simp only [Option.bind_eq_bind, Option.bind_eq_some_iff, Option.some.injEq, Prod.exists] at h
    obtain ⟨ms, p, hbuild, rfl⟩ := h
    have hw := hb ms p hbuild
    rw [← owns_none (Option.isNone_iff_eq_none.mp hnone)] at hw
    exact ⟨_, .of_work hw⟩
  · cases h

theorem Inv.modify_worked (hi : s.Inv L) {id : ℕ} {work : MemorySet → Phys → Option (MemorySet × Phys)}
    (hwork : ∀ {ms ms' p p' forgotten}, ms.Inv L p forgotten → work ms p = some (ms', p') →
      MemorySet.Work L p ms.pageTable.owned ms' p' forgotten)
    (h : s.modify id work = some s') : ∃ new, Worked L s s' id new := by
  simp only [State.modify, Option.bind_eq_bind, Option.bind_eq_some_iff, Option.some.injEq,
    Prod.exists] at h
  obtain ⟨space, hsp, ms, p, hw, rfl⟩ := h
  refine ⟨_, .of_work ?_⟩
  rw [owns_some hsp]
  exact hwork (hi.spaces id space hsp) hw

/-- **What one operation does.** -/
theorem Inv.worked (hi : s.Inv L) {op : Op} (h : s.step L op = some s') :
    ∃ new, Worked L s s' op.target new := by
  cases op with
  | newKernel id => exact create_worked (fun ms p hb => MemorySet.newKernel_spec hb) h
  | fromElf id elf =>
    simp only [State.step] at h
    refine create_worked (fun ms p hb => ?_) h
    simp only [Option.bind_eq_bind, Option.bind_eq_some_iff, Option.some.injEq, Prod.mk.injEq,
      Prod.exists] at hb
    obtain ⟨ms₁, p₁, base, entry, helf, rfl, rfl⟩ := hb
    exact MemorySet.fromElf_spec helf
  | fork parent child =>
    simp only [State.step, Option.bind_eq_bind, Option.bind_eq_some_iff] at h
    obtain ⟨space, hsp, hcreate⟩ := h
    exact create_worked (fun ms p hb => MemorySet.clone_spec (hi.spaces parent space hsp) hb) hcreate
  | exec id elf tid =>
    simp only [State.step, Option.bind_eq_bind, Option.bind_eq_some_iff, Option.some.injEq,
      Prod.exists] at h
    obtain ⟨space, hsp, ms, p, hexec, rfl⟩ := h
    refine ⟨_, .of_work ?_⟩
    rw [owns_some hsp]
    exact MemorySet.exec_spec (hi.spaces id space hsp) hexec
  | insertFramedArea id startVa endVa permission => exact hi.modify_worked MemorySet.insertFramedArea_spec h
  | allocUserRes id ustackBase tid => exact hi.modify_worked MemorySet.allocUserRes_spec h
  | deallocUserRes id ustackBase tid => exact hi.modify_worked MemorySet.deallocUserRes_spec h
  | removeAreaWithStartVpn id startVpn => exact hi.modify_worked MemorySet.removeAreaWithStartVpn_spec h
  | recycleDataPages id =>
    simp only [State.step, Option.bind_eq_bind, Option.bind_eq_some_iff, Option.some.injEq] at h
    obtain ⟨space, hsp, rfl⟩ := h
    refine ⟨_, .of_work ⟨MemorySet.recycleDataPages_spec (hi.spaces id space hsp), ?_⟩⟩
    rw [owns_some hsp]
    exact Footprint.refl _ _
  | drop id =>
    simp only [State.step, Option.bind_eq_bind, Option.bind_eq_some_iff, Option.some.injEq] at h
    obtain ⟨space, hsp, p, hdrop, rfl⟩ := h
    obtain ⟨p', hdrop', hfoot⟩ := MemorySet.drop_spec (hi.spaces id space hsp)
    obtain rfl : p' = p := by rw [hdrop, Option.some.injEq] at hdrop'; exact hdrop'.symm
    refine ⟨none, rfl, ?_, fun space' hsp' => by cases hsp'⟩
    rw [Op.target, owns_some hsp, owns_none (Function.update_self id _ s.spaces)]
    exact hfoot
  | store id vpn words =>
    simp only [State.step, Option.bind_eq_bind, Option.bind_eq_some_iff, Option.some.injEq] at h
    obtain ⟨space, hsp, e, he, rfl⟩ := h
    obtain ⟨hinv, hfoot⟩ :=
      (hi.spaces id space hsp).setFrame (List.mem_of_find?_eq_some he) words
    refine ⟨some space, (Function.update_eq_self_iff.mpr hsp.symm).symm, ?_, fun space' hsp' => ?_⟩
    · rw [Op.target, owns_some hsp, owns_some (s := { s with phys := s.phys.setFrame e.2 words }) hsp]
      exact hfoot
    · obtain rfl := Option.some.inj hsp'
      exact hinv

/-- The work keeps the invariant: the other address spaces do not share the frames that it touches. -/
theorem Worked.inv_all {id : ℕ} {new : Option AddressSpace} (hw : Worked L s s' id new) (hi : s.Inv L) :
    s'.Inv L := by
  have howns : s'.owns = Function.update s.owns id (s'.owns id) := by
    funext j
    by_cases hj : j = id
    · rw [hj, Function.update_self]
    · rw [Function.update_of_ne hj, hw.owns_of_ne hj]
  have hnew : ∀ space, s'.spaces id = some space → space.set.Inv L s'.phys space.forgotten := by
    intro space hsp
    rw [hw.spaces, Function.update_self] at hsp
    exact hw.inv space hsp
  constructor
  · rw [howns]
    refine hi.exclusive.update hw.footprint fun f hf => ?_
    obtain ⟨space, hsp, hf⟩ := hf
    exact (hnew space hsp).sound.allocated f hf
  · intro j space hj
    by_cases hji : j = id
    · subst hji
      exact hnew space hj
    · rw [hw.spaces, Function.update_of_ne hji] at hj
      refine (hi.spaces j space hj).kept hw.footprint fun f hf => ?_
      exact hi.exclusive.not_mem hji (owns_some hj ▸ hf)

/-- **One operation keeps the invariant.** -/
theorem Inv.step (hi : s.Inv L) {op : Op} (h : s.step L op = some s') : s'.Inv L := by
  obtain ⟨new, hw⟩ := hi.worked h
  exact hw.inv_all hi

/-- **One operation leaves the other address spaces alone.** -/
theorem Inv.untouched (hi : s.Inv L) {op : Op} (h : s.step L op = some s') {j : ℕ} {space : AddressSpace}
    (hj : op.target ≠ j) (hsp : s.spaces j = some space) : s'.spaces j = some space ∧
      ∀ f ∈ space.set.pageTable.frames, s'.phys.memory f = s.phys.memory f := by
  obtain ⟨new, hw⟩ := hi.worked h
  constructor
  · rw [hw.spaces, Function.update_of_ne hj.symm, hsp]
  · exact fun f hf => (hi.exclusive.content_eq hw.footprint hj.symm ⟨space, hsp, hf⟩).2

theorem Inv.untouched_play (hi : s.Inv L) {j : ℕ} {space : AddressSpace} {ops : List Op}
    (hsp : s.spaces j = some space) (hops : ∀ op ∈ ops, op.target ≠ j) (h : s.play L ops = some s') :
    s'.spaces j = some space ∧ ∀ f ∈ space.set.pageTable.frames, s'.phys.memory f = s.phys.memory f := by
  induction ops generalizing s with
  | nil =>
    obtain rfl := Option.some.inj h
    exact ⟨hsp, fun _ _ => rfl⟩
  | cons op ops ih =>
    rw [State.play, Option.bind_eq_some_iff] at h
    obtain ⟨s₁, hone, hrest⟩ := h
    obtain ⟨hsp₁, hmem₁⟩ := hi.untouched hone (hops op List.mem_cons_self) hsp
    obtain ⟨hsp', hmem⟩ := ih (hi.step hone) hsp₁ (fun o ho => hops o (List.mem_cons_of_mem op ho)) hrest
    exact ⟨hsp', fun f hf => (hmem f hf).trans (hmem₁ f hf)⟩

end State

/-- **The invariant holds in every run.** -/
theorem Run.inv {L : Layout} {s : State} (h : Run L s) : s.Inv L := by
  induction h with
  | start memory =>
    constructor
    · intro id f hf
      obtain ⟨space, hsp, -⟩ := hf
      cases hsp
    · intro id space hsp
      cases hsp
  | step op _ hstep ih => exact ih.step hstep

/-! ### Isolation -/

/-- Who may hold a frame: the record of a page, or an entry in the list of tables. -/
inductive Holder where
  | data (space vpn : ℕ)
  | metadata (space index : ℕ)

/-- The holder holds the frame. -/
def State.Holds (s : State) : Holder → ℕ → Prop
  | .data id vpn, f => ∃ space, s.spaces id = some space ∧ (vpn, f) ∈ space.set.pageTable.dataFrames
  | .metadata id k, f => ∃ space, s.spaces id = some space ∧
      space.set.pageTable.metadataFrames[k]? = some f

/-- The page was mapped as a framed page and not unmapped since. -/
def AddressSpace.FramedPage (space : AddressSpace) (vpn : ℕ) : Prop :=
  ∃ area ∈ space.set.areas ++ space.forgotten, area.mapType = .framed ∧ area.zone.Contains vpn

instance (space : AddressSpace) (vpn : ℕ) : Decidable (space.FramedPage vpn) :=
  inferInstanceAs (Decidable (∃ area ∈ _, _ ∧ _ ≤ _ ∧ _ < _))

namespace State.Inv

variable {L : Layout} {s : State}

theorem Holds.space {h : Holder} {f : ℕ} (hh : s.Holds h f) : ∃ id space,
    s.spaces id = some space ∧ f ∈ space.set.pageTable.frames ∧
      ((∃ vpn, h = .data id vpn ∧ (vpn, f) ∈ space.set.pageTable.dataFrames) ∨
        ∃ k, h = .metadata id k ∧ space.set.pageTable.metadataFrames[k]? = some f) := by
  cases h with
  | data id vpn =>
    obtain ⟨space, hsp, hf⟩ := hh
    exact ⟨id, space, hsp, PageTable.data_mem hf, Or.inl ⟨vpn, rfl, hf⟩⟩
  | metadata id k =>
    obtain ⟨space, hsp, hf⟩ := hh
    exact ⟨id, space, hsp, PageTable.metadata_mem (List.mem_of_getElem? hf), Or.inr ⟨k, rfl, hf⟩⟩

/-- A frame that is held is allocated and has one holder. -/
theorem holder_unique (hi : s.Inv L) {h : Holder} {f : ℕ} (hh : s.Holds h f) :
    s.phys.allocator.Allocated f ∧ ∀ other, s.Holds other f → other = h := by
  obtain ⟨id, space, hsp, hf, hwho⟩ := Holds.space hh
  have howns : f ∈ s.owns id := ⟨space, hsp, hf⟩
  obtain ⟨hlive, hone⟩ := hi.exclusive id f howns
  refine ⟨hlive, fun other ho => ?_⟩
  obtain ⟨id', space', hsp', hf', hwho'⟩ := Holds.space ho
  obtain rfl : id' = id := hone id' ⟨space', hsp', hf'⟩
  obtain rfl : space' = space := by
    rw [hsp, Option.some.injEq] at hsp'
    exact hsp'.symm
  have htab := (hi.spaces id' space' hsp).sound.toTables
  rcases hwho with ⟨v, rfl, hv⟩ | ⟨k, rfl, hk⟩
  · rcases hwho' with ⟨v', rfl, hv'⟩ | ⟨k', rfl, hk'⟩
    · have hinj := List.inj_on_of_nodup_map (List.nodup_append.mp htab.nodup).1
      have hvv : v' = v := congrArg Prod.fst (hinj hv' hv rfl)
      rw [hvv]
    · exact absurd (List.mem_of_getElem? hk') (htab.data_not_metadata hv)
  · rcases hwho' with ⟨v', rfl, hv'⟩ | ⟨k', rfl, hk'⟩
    · exact absurd (List.mem_of_getElem? hk) (htab.data_not_metadata hv')
    · obtain ⟨hlt, hk₁⟩ := List.getElem?_eq_some_iff.mp hk
      have hnd := (List.nodup_append.mp htab.nodup).2.1
      rw [(List.getElem?_inj hlt hnd).mp (hk.trans hk'.symm)]

/-- A framed page has a recorded frame and is mapped to it. -/
theorem framed_leaf (hi : s.Inv L) {id vpn : ℕ} {space : AddressSpace} (hsp : s.spaces id = some space)
    (hpage : space.FramedPage vpn) :
    ∃ f, s.Holds (.data id vpn) f ∧ space.set.pageTable.leaf s.phys vpn = some f := by
  have hspace := hi.spaces id space hsp
  obtain ⟨area, harea, hty, hin⟩ := hpage
  have hb := hspace.backed area.zone (List.mem_map_of_mem harea) vpn hin
  rw [MapArea.zone, hty] at hb
  obtain ⟨f, hf⟩ := hb
  exact ⟨f, ⟨space, hsp, hf⟩, (hspace.sound.recorded _ hf).2⟩

end State.Inv

/-- **Isolation.**  In every run of the operations on any number of address spaces: a frame that a page
table holds is allocated and has exactly one holder; a valid leaf of a framed page leads to the frame
recorded for that page in the same table; hence this frame is recorded in no other address space and is
no frame of a page table. -/
theorem frames_exclusive {L : Layout} {s : State} (hrun : Run L s) :
    (∀ holder f, s.Holds holder f →
      s.phys.allocator.Allocated f ∧ ∀ other, s.Holds other f → other = holder) ∧
    ∀ id space vpn pte, s.spaces id = some space → space.FramedPage vpn →
      space.set.pageTable.translate s.phys vpn = some pte → isValid pte = true →
        s.Holds (.data id vpn) (ptePpn pte) ∧
        (∀ id' vpn', id' ≠ id → ¬ s.Holds (.data id' vpn') (ptePpn pte)) ∧
        ∀ id' k, ¬ s.Holds (.metadata id' k) (ptePpn pte) := by
  have hi := hrun.inv
  refine ⟨fun holder f hh => hi.holder_unique hh, ?_⟩
  intro id space vpn pte hsp hpage ht hv
  obtain ⟨f, hheld, hleaf⟩ := hi.framed_leaf hsp hpage
  rw [PageTable.leaf_eq_translate, ht, Option.bind_some, if_pos hv, Option.some.injEq] at hleaf
  subst hleaf
  have hone := (hi.holder_unique hheld).2
  refine ⟨hheld, fun id' vpn' hne hh => ?_, fun id' k hh => ?_⟩
  · have := hone _ hh
    rw [Holder.data.injEq] at this
    exact hne this.1
  · have := hone _ hh
    cases this

/-- A kernel image of 16 pages. -/
def sampleLayout : Layout where
  stext := 0x80200000
  etext := 0x80204000
  srodata := 0x80204000
  erodata := 0x80206000
  sdata := 0x80206000
  edata := 0x80208000
  sbssWithStack := 0x80208000
  ebss := 0x80210000
  ekernel := 0x80210000
  strampoline := 0x80201000
  strampoline_lt := by decide
  ekernel_le := by decide

/-- An executable of one page. -/
def sampleElf : ElfFile where
  input := [1, 2, 3, 4]
  programHeaders := [⟨true, 0x10000, 0x1000, 0, 4, true, false, true⟩]
  entryPoint := 0x10000

/-- A process is created and forks, then it forgets its areas. -/
def sampleRun : Option State :=
  (State.start sampleLayout fun _ _ => 0).play sampleLayout
    [.fromElf 0 sampleElf, .fork 0 1, .recycleDataPages 0]

/-- After the fork the page of the parent is still its own. -/
theorem frames_exclusive_fork : ∃ s space pte, Run sampleLayout s ∧ s.spaces 0 = some space ∧
    space.FramedPage 16 ∧ space.set.pageTable.translate s.phys 16 = some pte ∧ isValid pte = true ∧
    (s.spaces 1).isSome = true ∧ s.Holds (.data 0 16) (ptePpn pte) ∧
    ∀ vpn, ¬ s.Holds (.data 1 vpn) (ptePpn pte) := by
  have hplay : ∃ s ∈ sampleRun, ∃ space ∈ s.spaces 0, space.FramedPage 16 ∧
      (s.spaces 1).isSome = true := by
    decide +kernel
  obtain ⟨s, hs, space, hsp, hpage, hchild⟩ := hplay
  have hrun : Run sampleLayout s := (Run.start _).play _ hs
  obtain ⟨f, -, hleaf⟩ := hrun.inv.framed_leaf hsp hpage
  obtain ⟨pte, ht, hv, -⟩ := PageTable.translate_of_leaf hleaf
  obtain ⟨hheld, hother, -⟩ := (frames_exclusive hrun).2 0 space 16 pte hsp hpage ht hv
  exact ⟨s, space, pte, hrun, hsp, hpage, ht, hv, hchild, hheld,
    fun vpn => hother 1 vpn (by decide)⟩

/-- **No operation reaches into another address space.**  Whatever is done, in any number of operations, to
other address spaces of a run, be it the copies that `fork` has made of this one: its areas, the frame of
each of its pages, and all that its frames hold, the page tables included, stay as they are. -/
theorem address_space_isolated {L : Layout} {s s' : State} {j : ℕ} {space : AddressSpace} {ops : List Op}
    (hrun : Run L s) (hsp : s.spaces j = some space) (hops : ∀ op ∈ ops, op.target ≠ j)
    (hplay : s.play L ops = some s') : s'.spaces j = some space ∧
      (∀ vpn, space.set.pageTable.leaf s'.phys vpn = space.set.pageTable.leaf s.phys vpn) ∧
      ∀ f ∈ space.set.pageTable.frames, s'.phys.memory f = s.phys.memory f := by
  obtain ⟨hsp', hmem⟩ := hrun.inv.untouched_play hsp hops hplay
  have htables := (hrun.inv.spaces j space hsp).sound.toTables
  exact ⟨hsp', PageTable.leaf_congr htables fun f hf => hmem f (PageTable.metadata_mem hf), hmem⟩

/-- The child writes to its copy of the page, and is dropped. -/
theorem address_space_isolated_fork : ∃ s s' space, Run sampleLayout s ∧ s.spaces 0 = some space ∧
    s.play sampleLayout [.store 1 16 (fun _ => 7), .drop 1] = some s' ∧ s'.spaces 0 = some space ∧
    ∀ f ∈ space.set.pageTable.frames, s'.phys.memory f = s.phys.memory f := by
  have hplay :
      ∃ s ∈ (State.start sampleLayout fun _ _ => 0).play sampleLayout [.fromElf 0 sampleElf, .fork 0 1],
      (s.spaces 0).isSome ∧ (s.play sampleLayout [.store 1 16 (fun _ => 7), .drop 1]).isSome := by
    decide +kernel
  simp only [Option.isSome_iff_exists] at hplay
  obtain ⟨s, hs, ⟨space, hsp⟩, s', hs'⟩ := hplay
  have hrun : Run sampleLayout s := (Run.start _).play _ hs
  obtain ⟨hsame, -, hmem⟩ := address_space_isolated hrun hsp (by simp [Op.target]) hs'
  exact ⟨s, s', space, hrun, hsp, hs', hsame, hmem⟩

end LemonCore.Kernel.Mm
