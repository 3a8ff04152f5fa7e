import Mathlib
import LemonCore.Kernel.PageTables

/-!
# Map areas

A `MapArea` (`mm/memory_set.rs`) is a range of pages that are mapped in the same way: to the frame of
the same number, to frames of the area's own, or at a fixed distance.

* `MapArea.mapOne`, `unmapOne`, `map`, `unmap`, `copyData`: as the source has them;
* `Zone`, `Space`: the invariant of an address space.  The zones of a space are the page ranges that
  were mapped and not unmapped; they do not overlap, their pages are backed as their map type says, and a
  valid leaf belongs to a recorded frame, to the trampoline or to a zone that is not framed;
* `map_space`, `unmap_space`: mapping an area adds its zone, unmapping takes it away.  Both loops are
  followed page by page: the zone grows at its end, or shrinks at its start.
-/

namespace LemonCore.Kernel.Mm

open Foundation.SharedHeap

/-! ### The model -/

inductive MapType where
  | identical
  | framed
  /-- The offset of the page number. -/
  | linear (pnOffset : ℤ)
  deriving DecidableEq

structure MapPermission where
  r : Bool
  w : Bool
  x : Bool
  u : Bool

def MapPermission.bits (perm : MapPermission) : ℕ :=
  perm.r.toNat * 2 + perm.w.toNat * 4 + perm.x.toNat * 8 + perm.u.toNat * 16

structure MapArea where
  /-- `vpn_range.start()`. -/
  start : ℕ
  /-- `vpn_range.end()`. -/
  stop : ℕ
  mapType : MapType
  mapPerm : MapPermission
  start_le : start ≤ stop
  stop_le : stop ≤ vpnEnd

/-- `(vpn as isize + pn_offset) as usize`. -/
def linearPpn (pnOffset : ℤ) (vpn : ℕ) : ℕ := ((vpn + pnOffset) % 2 ^ 64).toNat

/-- The addresses of the kernel image that the linker script fixes. -/
structure Layout where
  stext : ℕ
  etext : ℕ
  srodata : ℕ
  erodata : ℕ
  sdata : ℕ
  edata : ℕ
  sbssWithStack : ℕ
  ebss : ℕ
  ekernel : ℕ
  strampoline : ℕ
  /-- The trampoline is in the image. -/
  strampoline_lt : pageFloor strampoline < pageCeil ekernel
  ekernel_le : ekernel ≤ memoryEnd

/-- Frames that the kernel maps for writing as physical memory.  The frames of the image below are code,
constants and variables of the kernel: no entry of an address space leads there for a write. -/
def Layout.Writable (L : Layout) (ppn : ℕ) : Prop := pageCeil L.ekernel ≤ ppn ∧ ppn < pageFloor memoryEnd

instance (L : Layout) (ppn : ℕ) : Decidable (L.Writable ppn) := inferInstanceAs (Decidable (_ ∧ _))

/-- A write through the kernel's own mapping; elsewhere it faults. -/
def Phys.store (p : Phys) (L : Layout) (ppn : ℕ) (words : ℕ → ℕ) : Option Phys :=
  if L.Writable ppn then some (p.setFrame ppn words) else none

/-- The drop of an `Option<FrameTracker>`. -/
def Phys.dropFrame (p : Phys) : Option ℕ → Option Phys
  | none => some p
  | some ppn => p.dealloc ppn

/-- The words of a frame after its first bytes were overwritten with `bytes`. -/
def overlay (words : ℕ → ℕ) (bytes : List ℕ) (i : ℕ) : ℕ :=
  ((List.range 8).map fun j =>
    (bytes.getD (8 * i + j) (words i / 256 ^ j % 256)) * 256 ^ j).sum

/-- `data.chunks(PAGE_SIZE)`. -/
def chunks (data : List ℕ) : List (List ℕ) :=
  (List.range ((data.length + (pageSize - 1)) / pageSize)).map fun i =>
    (data.drop (pageSize * i)).take pageSize

namespace MapArea

theorem pageCeil_mod_le (va : ℕ) : pageCeil (va % 2 ^ 39) ≤ vpnEnd := by
  apply pageCeil_le
  have : va % 2 ^ 39 < 2 ^ 39 := Nat.mod_lt _ (by decide)
  rw [vpnEnd, pageSize]
  omega

/-- `MapArea::new`; the assertion is that of `VPNRange::new`. -/
def new (startVa endVa : ℕ) (mapType : MapType) (mapPerm : MapPermission) : Option MapArea :=
  if h : pageFloor (startVa % 2 ^ 39) ≤ pageCeil (endVa % 2 ^ 39) then
    some ⟨_, _, mapType, mapPerm, h, pageCeil_mod_le endVa⟩
  else none

/-- The pages of the area. -/
def vpns (area : MapArea) : List ℕ := List.range' area.start (area.stop - area.start)

/-- `map_one`. -/
def mapOne (area : MapArea) (st : PageTable × Phys) (vpn : ℕ) : Option (PageTable × Phys) := do
  let (pt, p) := st
  let (ppn, pt, p) ← match area.mapType with
    | .identical => some (vpn, pt, p)
    | .framed => do
      let (frame, p) ← p.alloc
      let (old, pt) := pt.insert vpn frame
      let p ← p.dropFrame old
      some (frame, pt, p)
    | .linear pnOffset => if vpn < 2 ^ 27 then some (linearPpn pnOffset vpn, pt, p) else none
  pt.map p vpn ppn area.mapPerm.bits

/-- `unmap_one`. -/
def unmapOne (area : MapArea) (st : PageTable × Phys) (vpn : ℕ) : Option (PageTable × Phys) := do
  let (pt, p) := st
  let (pt, p) ←
    if area.mapType = .framed then
      let (old, pt) := pt.remove vpn
      (p.dropFrame old).map fun p => (pt, p)
    else some (pt, p)
  let p ← pt.unmap p vpn
  some (pt, p)

/-- `map`. -/
def map (area : MapArea) (st : PageTable × Phys) : Option (PageTable × Phys) :=
  area.vpns.foldlM area.mapOne st

/-- `unmap`. -/
def unmap (area : MapArea) (st : PageTable × Phys) : Option (PageTable × Phys) :=
  area.vpns.foldlM area.unmapOne st

/-- One turn of the loop of `copy_data`. -/
def copyChunk (L : Layout) (pt : PageTable) (st : ℕ × Phys) (chunk : List ℕ) : Option (ℕ × Phys) := do
  let (currentVpn, p) := st
  let ppn := ptePpn (← pt.translate p currentVpn)
  let p ← p.store L ppn (overlay (p.memory ppn) chunk)
  some (currentVpn + 1, p)

/-- `copy_data`. -/
def copyData (area : MapArea) (L : Layout) (pt : PageTable) (p : Phys) (data : List ℕ) : Option Phys :=
  if area.mapType = .framed then
    ((chunks data).foldlM (copyChunk L pt) (area.start, p)).map Prod.snd
  else none

end MapArea

/-! ### Recorded frames -/

namespace PageTable

variable {pt pt' : PageTable} {p p' : Phys}

/-- The tables are in order, and a recorded frame is the one its page is mapped to. -/
structure Sound (pt : PageTable) (p : Phys) : Prop extends Tables pt p where
  recorded : ∀ e ∈ pt.dataFrames, e.1 < vpnEnd ∧ pt.leaf p e.1 = some e.2

theorem Sound.congr (hs : pt.Sound p) (hal : ∀ f ∈ pt.frames, p'.allocator.Allocated f)
    (h : ∀ f ∈ pt.metadataFrames, p'.memory f = p.memory f) : pt.Sound p' where
  toTables := hs.toTables.congr hal h
  recorded := by
    intro e he
    rw [leaf_congr hs.toTables h]
    exact hs.recorded e he

theorem mem_insert {vpn f : ℕ} {e : ℕ × ℕ} :
    e ∈ (pt.insert vpn f).2.dataFrames ↔ e = (vpn, f) ∨ e ∈ pt.dataFrames ∧ e.1 ≠ vpn := by
  simp only [insert, List.mem_append, List.mem_cons, List.mem_filter, decide_eq_true_eq]
  constructor
  · rintro (⟨hm, hlt⟩ | rfl | ⟨hm, hlt⟩)
    · exact Or.inr ⟨hm, hlt.ne⟩
    · exact Or.inl rfl
    · exact Or.inr ⟨hm, hlt.ne'⟩
  · rintro (rfl | ⟨hm, hne⟩)
    · exact Or.inr (Or.inl rfl)
    · rcases Nat.lt_or_gt_of_ne hne with hlt | hgt
      · exact Or.inl ⟨hm, hlt⟩
      · exact Or.inr (Or.inr ⟨hm, hgt⟩)

theorem mem_remove {vpn : ℕ} {e : ℕ × ℕ} :
    e ∈ (pt.remove vpn).2.dataFrames ↔ e ∈ pt.dataFrames ∧ e.1 ≠ vpn := by
  simp [remove, List.mem_filter]

theorem frames_insert {vpn f : ℕ} (h : ∀ e ∈ pt.dataFrames, e.1 ≠ vpn) :
    (pt.insert vpn f).2.frames.Perm (f :: pt.frames) := by
  have hsplit : (pt.dataFrames.filter (·.1 < vpn) ++ pt.dataFrames.filter (vpn < ·.1)).Perm
      pt.dataFrames := by
    have heq : pt.dataFrames.filter (fun e => vpn < e.1) =
        pt.dataFrames.filter (fun e => !decide (e.1 < vpn)) := by
      refine List.filter_congr fun e he => ?_
      have := h e he
      simp only [← decide_not, decide_eq_decide]
      omega
    rw [heq]
    exact List.filter_append_perm _ _
  have hdata : (pt.insert vpn f).2.dataFrames.Perm ((vpn, f) :: pt.dataFrames) :=
    List.perm_middle.trans (hsplit.cons _)
  exact (hdata.map Prod.snd).append_right pt.metadataFrames

theorem find_eq_none {vpn : ℕ} (h : ∀ e ∈ pt.dataFrames, e.1 ≠ vpn) :
    pt.dataFrames.find? (·.1 = vpn) = none :=
  List.find?_eq_none.mpr fun e he => by simpa using h e he

theorem Sound.find_eq (hs : pt.Sound p) {vpn f : ℕ} (h : (vpn, f) ∈ pt.dataFrames) :
    (pt.dataFrames.find? (·.1 = vpn)).map Prod.snd = some f := by
  cases hf : pt.dataFrames.find? (·.1 = vpn) with
  | none => simpa using List.find?_eq_none.mp hf (vpn, f) h
  | some e =>
    have hkey : e.1 = vpn := by simpa using List.find?_some hf
    have hleaf := (hs.recorded e (List.mem_of_find?_eq_some hf)).2
    rw [hkey, (hs.recorded _ h).2] at hleaf
    simpa using hleaf.symm

/-! ### Work on one page -/

/-- Work on the page `vpn` that leaves the other pages alone. -/
structure PageStep (pt : PageTable) (p : Phys) (vpn : ℕ) (pt' : PageTable) (p' : Phys) : Prop where
  sound : pt'.Sound p'
  footprint : Footprint p.heap pt.owned p'.heap pt'.owned
  leaf : ∀ v, v < vpnEnd → v ≠ vpn → pt'.leaf p' v = pt.leaf p v
  data : ∀ e, e.1 ≠ vpn → (e ∈ pt'.dataFrames ↔ e ∈ pt.dataFrames)

/-- A page of the given map type is mapped as the type says. -/
def Backed (pt : PageTable) (p : Phys) (t : MapType) (v : ℕ) : Prop :=
  match t with
  | .framed => ∃ f, (v, f) ∈ pt.dataFrames
  | .identical => pt.leaf p v = some (v % 2 ^ 44) ∧ ∀ f, (v, f) ∉ pt.dataFrames
  | .linear off => pt.leaf p v = some (linearPpn off v % 2 ^ 44) ∧ ∀ f, (v, f) ∉ pt.dataFrames

theorem Backed.leaf_ne_none {t : MapType} {v : ℕ} (hs : pt.Sound p) (h : pt.Backed p t v) :
    pt.leaf p v ≠ none := by
  cases t with
  | framed =>
    obtain ⟨f, hf⟩ := h
    simp [(hs.recorded _ hf).2]
  | identical => simp [h.1]
  | linear off => simp [h.1]

theorem Backed.congr {t : MapType} {v : ℕ} (h : pt.Backed p t v) (hleaf : pt'.leaf p' v = pt.leaf p v)
    (hdata : ∀ f, (v, f) ∈ pt'.dataFrames ↔ (v, f) ∈ pt.dataFrames) : pt'.Backed p' t v := by
  cases t with
  | framed =>
    obtain ⟨f, hf⟩ := h
    exact ⟨f, (hdata f).mpr hf⟩
  | identical => exact ⟨hleaf.trans h.1, fun f hf => h.2 f ((hdata f).mp hf)⟩
  | linear off => exact ⟨hleaf.trans h.1, fun f hf => h.2 f ((hdata f).mp hf)⟩

/-- A frame recorded in advance for an unmapped page: the state between the two halves of `map_one`. -/
theorem recorded_ahead (hs : pt.Sound p) {vpn f : ℕ} {p₁ : Phys} (ha : p.alloc = some (f, p₁))
    (hkey : ∀ e ∈ pt.dataFrames, e.1 ≠ vpn) :
    (pt.insert vpn f).2.Tables p₁ ∧ (∀ v, (pt.insert vpn f).2.leaf p₁ v = pt.leaf p v) ∧
      Footprint p.heap pt.owned p₁.heap (pt.insert vpn f).2.owned := by
  obtain ⟨hnew, -, hal, hmem⟩ := Phys.alloc_spec ha
  have hf : f ∉ pt.frames := hs.fresh hnew
  have hperm := frames_insert (f := f) hkey
  have hsame : ∀ g, g ≠ f → p₁.memory g = p.memory g := by
    intro g hg
    rw [hmem, Function.update_of_ne hg]
  have hmeta : ∀ g ∈ pt.metadataFrames, p₁.memory g = p.memory g :=
    fun g hg => hsame g fun h => hf (h ▸ metadata_mem hg)
  have hold : pt.Tables p₁ :=
    hs.toTables.congr (fun g hg => (hal g).mpr (Or.inl (hs.allocated g hg))) hmeta
  refine ⟨⟨?_, ?_, hold.labelled, hold.blank⟩, fun v => leaf_congr hs.toTables hmeta v, ⟨?_, ?_⟩⟩
  · exact hperm.nodup_iff.mpr (List.nodup_cons.mpr ⟨hf, hs.nodup⟩)
  · intro g hg
    rcases List.mem_cons.mp (hperm.mem_iff.mp hg) with rfl | hg
    · exact (hal _).mpr (Or.inr rfl)
    · exact hold.allocated g hg
  · intro g hg _
    exact ⟨(hal g).mpr (Or.inl hg), hsame g fun h => hnew (h ▸ hg)⟩
  · intro g hg
    rcases List.mem_cons.mp (hperm.mem_iff.mp hg) with rfl | hg
    · exact Or.inr hnew
    · exact Or.inl hg

theorem Written.pageStep {vpn : ℕ} {x : Option ℕ} (hw : pt.Written p vpn x pt' p')
    (hvpn : vpn < vpnEnd)
    (hrec : ∀ e ∈ pt.dataFrames, e.1 < vpnEnd ∧ (e.1 ≠ vpn → pt.leaf p e.1 = some e.2) ∧
      (e.1 = vpn → x = some e.2)) : pt.PageStep p vpn pt' p' where
  sound :=
    { toTables := hw.tables
      recorded := by
        intro e he
        rw [hw.dataFrames] at he
        obtain ⟨hlt, hother, hself⟩ := hrec e he
        refine ⟨hlt, ?_⟩
        by_cases hev : e.1 = vpn
        · rw [hev, hw.leaf_self]
          exact hself hev
        · rw [hw.leaf_of_ne hvpn hlt hev]
          exact hother hev }
  footprint := hw.footprint
  leaf := fun _ hv hne => hw.leaf_of_ne hvpn hv hne
  data := fun e _ => by rw [hw.dataFrames]

end PageTable

namespace MapArea

variable {area : MapArea} {pt pt' : PageTable} {p p' : Phys} {vpn : ℕ}

theorem bits_lt (perm : MapPermission) : perm.bits < 2 ^ 10 := by
  rw [MapPermission.bits]
  have h : ∀ b : Bool, b.toNat ≤ 1 := Bool.toNat_le
  have := h perm.r
  have := h perm.w
  have := h perm.x
  have := h perm.u
  omega

theorem map_pageStep (hs : pt.Sound p) (hvpn : vpn < vpnEnd) {ppn : ℕ}
    (h : pt.map p vpn ppn area.mapPerm.bits = some (pt', p')) :
    pt.leaf p vpn = none ∧ pt.PageStep p vpn pt' p' ∧ pt'.leaf p' vpn = some (ppn % 2 ^ 44) ∧
      ∀ f, (vpn, f) ∉ pt'.dataFrames := by
  obtain ⟨hnone, hw⟩ := PageTable.map_spec hs.toTables (bits_lt _) h
  have hkey : ∀ e ∈ pt.dataFrames, e.1 ≠ vpn := by
    intro e he hev
    rw [← hev, (hs.recorded e he).2] at hnone
    cases hnone
  refine ⟨hnone, hw.pageStep hvpn fun e he => ?_, hw.leaf_self, fun f hf => ?_⟩
  · exact ⟨(hs.recorded e he).1, fun _ => (hs.recorded e he).2, fun hev => absurd hev (hkey e he)⟩
  · rw [hw.dataFrames] at hf
    exact hkey _ hf rfl

/-- The framed case of `map_one`.  If a frame was recorded for the page, the page was mapped, and the
assertion of `map` fails; so no frame is replaced, and a new frame is recorded and mapped. -/
theorem mapOne_framed_inv (hs : pt.Sound p) (ht : area.mapType = .framed)
    (h : area.mapOne (pt, p) vpn = some (pt', p')) :
    pt.leaf p vpn = none ∧ (∀ e ∈ pt.dataFrames, e.1 ≠ vpn) ∧ ∃ f p₁, p.alloc = some (f, p₁) ∧
      (pt.insert vpn f).2.map p₁ vpn f area.mapPerm.bits = some (pt', p') := by
  simp only [mapOne, ht, Option.bind_eq_bind, Option.bind_eq_some_iff, Option.some.injEq,
    Prod.exists] at h
  obtain ⟨f, p₁, ha, p₂, hdrop, _, _, _, heq, hmap⟩ := h
  cases heq
  obtain ⟨hnew, -, hal, hmem⟩ := Phys.alloc_spec ha
  have hmem₂ : p₂.memory = p₁.memory := by
    cases hold : (pt.insert vpn f).1 with
    | none =>
      rw [hold] at hdrop
      rw [← Option.some.inj hdrop]
    | some g =>
      rw [hold] at hdrop
      exact (Phys.dealloc_spec hdrop).2.2
  have hmeta : ∀ g ∈ pt.metadataFrames, p₂.memory g = p.memory g := by
    intro g hg
    have hgf : g ≠ f := fun h => hs.fresh hnew (h ▸ PageTable.metadata_mem hg)
    rw [hmem₂, hmem, Function.update_of_ne hgf]
  have hnone : pt.leaf p vpn = none := by
    cases hleaf : pt.leaf p vpn with
    | none => rfl
    | some g =>
      have : (pt.insert vpn f).2.leaf p₂ vpn = some g :=
        (PageTable.leaf_congr hs.toTables hmeta vpn).trans hleaf
      rw [PageTable.map_of_leaf this] at hmap
      cases hmap
  have hkey : ∀ e ∈ pt.dataFrames, e.1 ≠ vpn := by
    intro e he hev
    rw [← hev, (hs.recorded e he).2] at hnone
    cases hnone
  have hold : (pt.insert vpn f).1 = none := by simp [PageTable.insert, PageTable.find_eq_none hkey]
  rw [hold] at hdrop
  obtain rfl : p₁ = p₂ := Option.some.inj hdrop
  exact ⟨hnone, hkey, f, p₁, ha, hmap⟩

theorem mapOne_framed (hs : pt.Sound p) (hvpn : vpn < vpnEnd) (ht : area.mapType = .framed)
    (h : area.mapOne (pt, p) vpn = some (pt', p')) :
    pt.leaf p vpn = none ∧ pt.PageStep p vpn pt' p' ∧ ∃ f, (vpn, f) ∈ pt'.dataFrames := by
  obtain ⟨hnone, hkey, f, p₁, ha, hmap⟩ := mapOne_framed_inv hs ht h
  obtain ⟨htab, hleaf₁, hfoot⟩ := PageTable.recorded_ahead hs ha hkey
  obtain ⟨-, hw⟩ := PageTable.map_spec htab (bits_lt _) hmap
  rw [Nat.mod_eq_of_lt (Phys.alloc_spec ha).2.1] at hw
  have hstep : (pt.insert vpn f).2.PageStep p₁ vpn pt' p' := by
    refine hw.pageStep hvpn fun e he => ?_
    rcases PageTable.mem_insert.mp he with rfl | ⟨he, hne⟩
    · exact ⟨hvpn, fun hne => absurd rfl hne, fun _ => rfl⟩
    · rw [hleaf₁]
      exact ⟨(hs.recorded e he).1, fun _ => (hs.recorded e he).2, fun hev => absurd hev hne⟩
  refine ⟨hnone, ⟨hstep.sound, hfoot.trans hstep.footprint, fun v hv hne => ?_, fun e hne => ?_⟩, f, ?_⟩
  · rw [hstep.leaf v hv hne, hleaf₁]
  · rw [hstep.data e hne, PageTable.mem_insert]
    constructor
    · rintro (rfl | ⟨he, -⟩)
      · exact absurd rfl hne
      · exact he
    · exact fun he => Or.inr ⟨he, hne⟩
  · rw [hw.dataFrames]
    exact PageTable.mem_insert.mpr (Or.inl rfl)

/-- The other cases of `map_one`: the page is mapped to a frame that its number gives. -/
theorem mapOne_other_inv (ht : area.mapType ≠ .framed) (h : area.mapOne (pt, p) vpn = some (pt', p')) :
    ∃ ppn, pt.map p vpn ppn area.mapPerm.bits = some (pt', p') := by
  rw [mapOne] at h
  cases hty : area.mapType with
  | framed => exact absurd hty ht
  | identical =>
    simp only [hty, Option.bind_eq_bind, Option.bind_some] at h
    exact ⟨vpn, h⟩
  | linear off =>
    simp only [hty, Option.bind_eq_bind] at h
    split at h
    · exact ⟨linearPpn off vpn, h⟩
    · cases h

/-- **`map_one`** fails on a mapped page; otherwise the page is then backed as the map type says. -/
theorem mapOne_spec (hs : pt.Sound p) (hvpn : vpn < vpnEnd)
    (h : area.mapOne (pt, p) vpn = some (pt', p')) :
    pt.leaf p vpn = none ∧ pt.PageStep p vpn pt' p' ∧ pt'.Backed p' area.mapType vpn := by
  cases ht : area.mapType with
  | framed => exact mapOne_framed hs hvpn ht h
  | identical =>
    simp only [mapOne, ht, Option.bind_eq_bind, Option.bind_some] at h
    exact map_pageStep hs hvpn h
  | linear off =>
    simp only [mapOne, ht, Option.bind_eq_bind] at h
    rw [if_pos (by simpa [vpnEnd] using hvpn)] at h
    exact map_pageStep hs hvpn h

/-- The state after the first half of `unmap_one` on a framed page: the frame is given back, and the page
still mapped to it. -/
theorem removed_ahead (hs : pt.Sound p) {f : ℕ} {p₁ : Phys} (hf : (vpn, f) ∈ pt.dataFrames)
    (hd : p.dealloc f = some p₁) :
    (pt.remove vpn).2.Tables p₁ ∧ (∀ v, (pt.remove vpn).2.leaf p₁ v = pt.leaf p v) ∧
      Footprint p.heap pt.owned p₁.heap (pt.remove vpn).2.owned := by
  obtain ⟨-, hal, hmem⟩ := Phys.dealloc_spec hd
  have hsub : (pt.remove vpn).2.frames.Sublist pt.frames :=
    (List.filter_sublist.map Prod.snd).append_right _
  -- The frame given back backs no other page and is no table.
  have hgone : f ∉ (pt.remove vpn).2.frames := by
    intro hm
    rcases List.mem_append.mp hm with hm | hm
    · obtain ⟨e, he, hef⟩ := List.mem_map.mp hm
      obtain ⟨he, hne⟩ := PageTable.mem_remove.mp he
      have hinj := List.inj_on_of_nodup_map (List.nodup_append.mp hs.nodup).1
      exact hne (congrArg Prod.fst (hinj he hf hef))
    · exact hs.data_not_metadata hf hm
  have hmeta : ∀ g ∈ pt.metadataFrames, p₁.memory g = p.memory g := fun g _ => by rw [hmem]
  have hkept : ∀ g ∈ (pt.remove vpn).2.frames, p₁.allocator.Allocated g := by
    intro g hg
    exact (hal g).mpr ⟨hs.allocated g (hsub.subset hg), fun h => hgone (h ▸ hg)⟩
  refine ⟨⟨hs.nodup.sublist hsub, hkept, ?_, ?_⟩, fun v => PageTable.leaf_congr hs.toTables hmeta v,
    ⟨fun g hg hn => ?_, fun g hg => Or.inl (hsub.subset hg)⟩⟩
  · obtain ⟨label, hl, hin⟩ := hs.labelled
    exact ⟨label, by rw [hmem]; exact hl, hin⟩
  · intro g hg i
    rw [hmem]
    exact hs.blank g hg i
  · refine ⟨(hal g).mpr ⟨hg, fun h => hn ?_⟩, congrFun hmem g⟩
    rw [h]
    exact PageTable.data_mem hf

/-- The framed case of `unmap_one`: the record is taken out and the frame given back, then the page is
unmapped. -/
theorem unmapOne_framed_inv (hs : pt.Sound p) (ht : area.mapType = .framed) {f : ℕ}
    (hf : (vpn, f) ∈ pt.dataFrames) (h : area.unmapOne (pt, p) vpn = some (pt', p')) :
    pt' = (pt.remove vpn).2 ∧ ∃ p₁, p.dealloc f = some p₁ ∧ pt'.unmap p₁ vpn = some p' := by
  have hold : (pt.remove vpn).1 = some f := hs.find_eq hf
  simp only [unmapOne, ht, if_true, hold, Phys.dropFrame, Option.bind_eq_bind,
    Option.bind_eq_some_iff, Option.map_eq_some_iff, Option.some.injEq, Prod.mk.injEq,
    Prod.exists] at h
  obtain ⟨pt₁, p₁, ⟨p₁', hd, rfl, rfl⟩, p₂, hun, rfl, rfl⟩ := h
  exact ⟨rfl, p₁', hd, hun⟩

theorem unmapOne_other_inv (ht : area.mapType ≠ .framed)
    (h : area.unmapOne (pt, p) vpn = some (pt', p')) : pt' = pt ∧ pt.unmap p vpn = some p' := by
  simp only [unmapOne, ht, if_false, Option.bind_eq_bind, Option.bind_some,
    Option.bind_eq_some_iff, Option.some.injEq, Prod.mk.injEq] at h
  obtain ⟨p₁, hun, rfl, rfl⟩ := h
  exact ⟨rfl, hun⟩

/-- **`unmap_one`** on a page that is backed as the map type says. -/
theorem unmapOne_spec (hs : pt.Sound p) (hvpn : vpn < vpnEnd) (hb : pt.Backed p area.mapType vpn)
    (h : area.unmapOne (pt, p) vpn = some (pt', p')) :
    pt.PageStep p vpn pt' p' ∧ pt'.leaf p' vpn = none := by
  by_cases ht : area.mapType = .framed
  · rw [ht] at hb
    obtain ⟨f, hf⟩ := hb
    obtain ⟨rfl, p₁, hd, hun⟩ := unmapOne_framed_inv hs ht hf h
    obtain ⟨htab, hleaf₁, hfoot⟩ := removed_ahead hs hf hd
    have hw := PageTable.unmap_spec htab hun
    have hstep := hw.pageStep hvpn fun e he => by
      obtain ⟨he, hne⟩ := PageTable.mem_remove.mp he
      rw [hleaf₁]
      exact ⟨(hs.recorded e he).1, fun _ => (hs.recorded e he).2, fun hev => absurd hev hne⟩
    refine ⟨⟨hstep.sound, hfoot.trans hstep.footprint, fun v hv hne => ?_, fun e hne => ?_⟩,
      hw.leaf_self⟩
    · rw [hstep.leaf v hv hne, hleaf₁]
    · rw [PageTable.mem_remove]
      exact ⟨fun he => he.1, fun he => ⟨he, hne⟩⟩
  · have hkey : ∀ e ∈ pt.dataFrames, e.1 ≠ vpn := by
      intro e he hev
      have hbare : ∀ f, (vpn, f) ∉ pt.dataFrames := by
        cases hty : area.mapType with
        | framed => exact absurd hty ht
        | identical => rw [hty] at hb; exact hb.2
        | linear off => rw [hty] at hb; exact hb.2
      exact hbare e.2 (hev ▸ he)
    obtain ⟨rfl, hun⟩ := unmapOne_other_inv ht h
    have hw := PageTable.unmap_spec hs.toTables hun
    refine ⟨hw.pageStep hvpn fun e he => ?_, hw.leaf_self⟩
    exact ⟨(hs.recorded e he).1, fun _ => (hs.recorded e he).2, fun hev => absurd hev (hkey e he)⟩

end MapArea

/-! ### The invariant of an address space -/

/-- A range of pages that is mapped in one way. -/
structure Zone where
  start : ℕ
  stop : ℕ
  mapType : MapType

def Zone.Contains (z : Zone) (v : ℕ) : Prop := z.start ≤ v ∧ v < z.stop

def MapArea.zone (area : MapArea) : Zone := ⟨area.start, area.stop, area.mapType⟩

/-- The page of the trampoline. -/
def trampolineVpn : ℕ := vpnEnd - 1

/-- **The invariant of an address space** whose mapped page ranges are `zones`. -/
structure Space (L : Layout) (pt : PageTable) (p : Phys) (zones : List Zone) : Prop where
  sound : pt.Sound p
  bounded : ∀ z ∈ zones, z.stop ≤ vpnEnd
  disjoint : zones.Pairwise fun a b => ∀ v, a.Contains v → ¬ b.Contains v
  backed : ∀ z ∈ zones, ∀ v, z.Contains v → pt.Backed p z.mapType v
  accounted : ∀ v g, v < vpnEnd → pt.leaf p v = some g → (v, g) ∈ pt.dataFrames ∨
    (v = trampolineVpn ∧ g = pageFloor L.strampoline % 2 ^ 44) ∨
    ∃ z ∈ zones, z.mapType ≠ .framed ∧ z.Contains v

namespace Space

variable {L : Layout} {pt pt' : PageTable} {p p' : Phys} {zones zones' : List Zone}
variable {area : MapArea}

theorem perm (hs : Space L pt p zones) (h : zones.Perm zones') : Space L pt p zones' where
  sound := hs.sound
  bounded := fun z hz => hs.bounded z (h.mem_iff.mpr hz)
  disjoint := (h.pairwise_iff fun hab v hb ha => hab v ha hb).mp hs.disjoint
  backed := fun z hz => hs.backed z (h.mem_iff.mpr hz)
  accounted := by
    intro v g hv hg
    rcases hs.accounted v g hv hg with hd | ht | ⟨z, hz, hty, hin⟩
    · exact Or.inl hd
    · exact Or.inr (Or.inl ht)
    · exact Or.inr (Or.inr ⟨z, h.mem_iff.mp hz, hty, hin⟩)

theorem congr (hs : Space L pt p zones) (hal : ∀ f ∈ pt.frames, p'.allocator.Allocated f)
    (h : ∀ f ∈ pt.metadataFrames, p'.memory f = p.memory f) : Space L pt p' zones := by
  have hleaf := PageTable.leaf_congr hs.sound.toTables h
  refine ⟨hs.sound.congr hal h, hs.bounded, hs.disjoint, fun z hz v hv => ?_, fun v g hv hg => ?_⟩
  · exact (hs.backed z hz v hv).congr (hleaf v) fun f => Iff.rfl
  · rw [hleaf v] at hg
    exact hs.accounted v g hv hg

theorem cons_empty_iff {z : Zone} (hz : ∀ v, ¬ z.Contains v) (hb : z.stop ≤ vpnEnd) :
    Space L pt p (z :: zones) ↔ Space L pt p zones := by
  constructor
  · intro hs
    refine ⟨hs.sound, fun y hy => hs.bounded y (List.mem_cons_of_mem z hy),
      (List.pairwise_cons.mp hs.disjoint).2, fun y hy => hs.backed y (List.mem_cons_of_mem z hy), ?_⟩
    intro v g hv hg
    rcases hs.accounted v g hv hg with hd | ht | ⟨y, hy, hty, hin⟩
    · exact Or.inl hd
    · exact Or.inr (Or.inl ht)
    · rcases List.mem_cons.mp hy with rfl | hy
      · exact absurd hin (hz v)
      · exact Or.inr (Or.inr ⟨y, hy, hty, hin⟩)
  · intro hs
    refine ⟨hs.sound, List.forall_mem_cons.mpr ⟨hb, hs.bounded⟩,
      List.pairwise_cons.mpr ⟨fun y _ v hv => absurd hv (hz v), hs.disjoint⟩,
      List.forall_mem_cons.mpr ⟨fun v hv => absurd hv (hz v), hs.backed⟩, ?_⟩
    intro v g hv hg
    rcases hs.accounted v g hv hg with hd | ht | ⟨y, hy, hty, hin⟩
    · exact Or.inl hd
    · exact Or.inr (Or.inl ht)
    · exact Or.inr (Or.inr ⟨y, List.mem_cons_of_mem z hy, hty, hin⟩)

theorem not_contains (hs : Space L pt p zones) {v : ℕ} (hnone : pt.leaf p v = none) {z : Zone}
    (hz : z ∈ zones) : ¬ z.Contains v := fun hv =>
  (hs.backed z hz v hv).leaf_ne_none hs.sound hnone

theorem backed_step (hs : Space L pt p zones) {vpn : ℕ} (hstep : pt.PageStep p vpn pt' p') {z : Zone}
    (hz : z ∈ zones) {v : ℕ} (hv : z.Contains v) (hne : v ≠ vpn) : pt'.Backed p' z.mapType v :=
  (hs.backed z hz v hv).congr (hstep.leaf v (hv.2.trans_le (hs.bounded z hz)) hne)
    fun f => hstep.data (v, f) hne

theorem mapOne {start vpn : ℕ} (hstart : start ≤ vpn) (hvpn : vpn < vpnEnd)
    (hs : Space L pt p (⟨start, vpn, area.mapType⟩ :: zones))
    (h : area.mapOne (pt, p) vpn = some (pt', p')) :
    Space L pt' p' (⟨start, vpn + 1, area.mapType⟩ :: zones) ∧
      Footprint p.heap pt.owned p'.heap pt'.owned := by
  obtain ⟨hnone, hstep, hb⟩ := MapArea.mapOne_spec hs.sound hvpn h
  have hout : ∀ z ∈ zones, ¬ z.Contains vpn := fun z hz =>
    hs.not_contains hnone (List.mem_cons_of_mem _ hz)
  obtain ⟨hhead, htail⟩ := List.pairwise_cons.mp hs.disjoint
  refine ⟨⟨hstep.sound, ?_, ?_, ?_, ?_⟩, hstep.footprint⟩
  · exact List.forall_mem_cons.mpr ⟨hvpn, fun z hz => hs.bounded z (List.mem_cons_of_mem _ hz)⟩
  · refine List.pairwise_cons.mpr ⟨fun z hz v hv hzv => ?_, htail⟩
    by_cases hev : v = vpn
    · exact hout z hz (hev ▸ hzv)
    · exact hhead z hz v ⟨hv.1, Nat.lt_of_le_of_ne (Nat.le_of_lt_succ hv.2) hev⟩ hzv
  · refine List.forall_mem_cons.mpr ⟨fun v hv => ?_, fun z hz v hv => ?_⟩
    · by_cases hev : v = vpn
      · exact hev ▸ hb
      · exact hs.backed_step hstep List.mem_cons_self
          ⟨hv.1, Nat.lt_of_le_of_ne (Nat.le_of_lt_succ hv.2) hev⟩ hev
    · exact hs.backed_step hstep (List.mem_cons_of_mem _ hz) hv fun hev => hout z hz (hev ▸ hv)
  · intro v g hv hg
    by_cases hev : v = vpn
    · subst hev
      by_cases hty : area.mapType = .framed
      · rw [hty] at hb
        obtain ⟨f, hf⟩ := hb
        rw [(hstep.sound.recorded _ hf).2, Option.some.injEq] at hg
        exact Or.inl (hg ▸ hf)
      · exact Or.inr (Or.inr ⟨_, List.mem_cons_self, hty, hstart, Nat.lt_succ_self v⟩)
    · rw [hstep.leaf v hv hev] at hg
      rcases hs.accounted v g hv hg with hd | ht | ⟨z, hz, hty, hin⟩
      · exact Or.inl ((hstep.data (v, g) hev).mpr hd)
      · exact Or.inr (Or.inl ht)
      · rcases List.mem_cons.mp hz with rfl | hz
        · exact Or.inr (Or.inr ⟨_, List.mem_cons_self, hty, hin.1, Nat.lt_succ_of_lt hin.2⟩)
        · exact Or.inr (Or.inr ⟨z, List.mem_cons_of_mem _ hz, hty, hin⟩)

theorem unmapOne {vpn stop : ℕ} (hlt : vpn < stop)
    (hs : Space L pt p (⟨vpn, stop, area.mapType⟩ :: zones))
    (h : area.unmapOne (pt, p) vpn = some (pt', p')) :
    Space L pt' p' (⟨vpn + 1, stop, area.mapType⟩ :: zones) ∧
      Footprint p.heap pt.owned p'.heap pt'.owned := by
  have hstop : stop ≤ vpnEnd := hs.bounded _ List.mem_cons_self
  have hvpn : vpn < vpnEnd := hlt.trans_le hstop
  have hb := hs.backed _ List.mem_cons_self vpn ⟨le_rfl, hlt⟩
  obtain ⟨hstep, hnone⟩ := MapArea.unmapOne_spec hs.sound hvpn hb h
  obtain ⟨hhead, htail⟩ := List.pairwise_cons.mp hs.disjoint
  have hout : ∀ z ∈ zones, ¬ z.Contains vpn := fun z hz => hhead z hz vpn ⟨le_rfl, hlt⟩
  refine ⟨⟨hstep.sound, ?_, ?_, ?_, ?_⟩, hstep.footprint⟩
  · exact List.forall_mem_cons.mpr ⟨hstop, fun z hz => hs.bounded z (List.mem_cons_of_mem _ hz)⟩
  · refine List.pairwise_cons.mpr ⟨fun z hz v hv => ?_, htail⟩
    exact hhead z hz v ⟨(Nat.le_succ vpn).trans hv.1, hv.2⟩
  · refine List.forall_mem_cons.mpr ⟨fun v hv => ?_, fun z hz v hv => ?_⟩
    · exact hs.backed_step hstep List.mem_cons_self ⟨(Nat.le_succ vpn).trans hv.1, hv.2⟩
        (Nat.ne_of_gt hv.1)
    · exact hs.backed_step hstep (List.mem_cons_of_mem _ hz) hv fun hev => hout z hz (hev ▸ hv)
  · intro v g hv hg
    have hev : v ≠ vpn := by
      rintro rfl
      rw [hnone] at hg
      cases hg
    rw [hstep.leaf v hv hev] at hg
    rcases hs.accounted v g hv hg with hd | ht | ⟨z, hz, hty, hin⟩
    · exact Or.inl ((hstep.data (v, g) hev).mpr hd)
    · exact Or.inr (Or.inl ht)
    · rcases List.mem_cons.mp hz with rfl | hz
      · exact Or.inr (Or.inr ⟨_, List.mem_cons_self, hty,
          Nat.lt_of_le_of_ne hin.1 (Ne.symm hev), hin.2⟩)
      · exact Or.inr (Or.inr ⟨z, List.mem_cons_of_mem _ hz, hty, hin⟩)

/-- The loop of `map`, by induction on the pages still to come. -/
theorem mapOne_loop {start : ℕ} (n : ℕ) : ∀ {vpn : ℕ} {pt : PageTable} {p : Phys},
    start ≤ vpn → vpn + n ≤ vpnEnd → Space L pt p (⟨start, vpn, area.mapType⟩ :: zones) →
    (List.range' vpn n).foldlM area.mapOne (pt, p) = some (pt', p') →
    Space L pt' p' (⟨start, vpn + n, area.mapType⟩ :: zones) ∧
      Footprint p.heap pt.owned p'.heap pt'.owned := by
  induction n with
  | zero =>
    intro vpn pt p _ _ hs h
    obtain ⟨rfl, rfl⟩ : pt = pt' ∧ p = p' := by simpa using h
    exact ⟨hs, Footprint.refl _ _⟩
  | succ n ih =>
    intro vpn pt p hle hend hs h
    rw [List.range'_succ, List.foldlM_cons, Option.bind_eq_bind, Option.bind_eq_some_iff] at h
    obtain ⟨⟨pt₁, p₁⟩, hone, hrest⟩ := h
    obtain ⟨hs₁, hf₁⟩ := hs.mapOne hle (by omega) hone
    obtain ⟨hs₂, hf₂⟩ := ih (Nat.le_succ_of_le hle) (by omega) hs₁ hrest
    refine ⟨?_, hf₁.trans hf₂⟩
    rw [Nat.succ_add_eq_add_succ] at hs₂
    exact hs₂

theorem unmapOne_loop {stop : ℕ} (n : ℕ) : ∀ {vpn : ℕ} {pt : PageTable} {p : Phys},
    vpn + n = stop → Space L pt p (⟨vpn, stop, area.mapType⟩ :: zones) →
    (List.range' vpn n).foldlM area.unmapOne (pt, p) = some (pt', p') →
    Space L pt' p' (⟨stop, stop, area.mapType⟩ :: zones) ∧
      Footprint p.heap pt.owned p'.heap pt'.owned := by
  induction n with
  | zero =>
    intro vpn pt p hend hs h
    obtain ⟨rfl, rfl⟩ : pt = pt' ∧ p = p' := by simpa using h
    rw [Nat.add_zero] at hend
    rw [hend] at hs
    exact ⟨hs, Footprint.refl _ _⟩
  | succ n ih =>
    intro vpn pt p hend hs h
    rw [List.range'_succ, List.foldlM_cons, Option.bind_eq_bind, Option.bind_eq_some_iff] at h
    obtain ⟨⟨pt₁, p₁⟩, hone, hrest⟩ := h
    obtain ⟨hs₁, hf₁⟩ := hs.unmapOne (by omega) hone
    obtain ⟨hs₂, hf₂⟩ := ih (by omega) hs₁ hrest
    exact ⟨hs₂, hf₁.trans hf₂⟩

/-- **`map`** adds the zone of the area. -/
theorem map (hs : Space L pt p zones) (h : area.map (pt, p) = some (pt', p')) :
    Space L pt' p' (area.zone :: zones) ∧ Footprint p.heap pt.owned p'.heap pt'.owned := by
  have hempty : Space L pt p (⟨area.start, area.start, area.mapType⟩ :: zones) := by
    refine (cons_empty_iff (fun v hv => ?_) (area.start_le.trans area.stop_le)).mpr hs
    exact absurd hv.2 (Nat.not_lt.mpr hv.1)
  have hend : area.start + (area.stop - area.start) = area.stop := Nat.add_sub_cancel' area.start_le
  have hloop := mapOne_loop _ le_rfl (hend.le.trans area.stop_le) hempty h
  rw [hend] at hloop
  exact hloop

/-- **`unmap`** takes the zone of the area away. -/
theorem unmap (hs : Space L pt p (area.zone :: zones))
    (h : area.unmap (pt, p) = some (pt', p')) :
    Space L pt' p' zones ∧ Footprint p.heap pt.owned p'.heap pt'.owned := by
  have hend : area.start + (area.stop - area.start) = area.stop := Nat.add_sub_cancel' area.start_le
  obtain ⟨hs', hf⟩ := unmapOne_loop _ hend hs h
  refine ⟨(cons_empty_iff (fun v hv => ?_) area.stop_le).mp hs', hf⟩
  exact absurd hv.2 (Nat.not_lt.mpr hv.1)

theorem setFrame (hs : Space L pt p zones) {e : ℕ × ℕ} (he : e ∈ pt.dataFrames) (words : ℕ → ℕ) :
    Space L pt (p.setFrame e.2 words) zones ∧
      Footprint p.heap pt.owned (p.setFrame e.2 words).heap pt.owned := by
  have hsame : ∀ g, g ≠ e.2 → (p.setFrame e.2 words).memory g = p.memory g := fun g hg =>
    Phys.setFrame_memory_of_ne hg words
  refine ⟨hs.congr hs.sound.allocated fun g hg => hsame g fun h => ?_, ⟨fun g hg hn => ?_, ?_⟩⟩
  · exact hs.sound.data_not_metadata he (h ▸ hg)
  · refine ⟨hg, hsame g fun h => hn ?_⟩
    rw [h]
    exact PageTable.data_mem he
  · exact fun g hg => Or.inl hg

end Space

end LemonCore.Kernel.Mm
