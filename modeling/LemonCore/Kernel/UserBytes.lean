import LemonCore.Foundation.LittleEndian
import LemonCore.Kernel.UserBuffers

/-!
# Memory byte by byte

* `byteOf`: single bytes of the words that make up a frame;
* `PageTable.byteAt`: the byte that the page table gives for an address, and `MemorySet.userByte`: what a
  program finds there.
-/

namespace LemonCore.Kernel.Mm

open Foundation.SharedHeap Foundation.LittleEndian

/-! ### Bytes of a frame -/

/-- A byte of a frame. -/
def byteOf (words : ℕ → ℕ) (off : ℕ) : ℕ := words (off / 8) / 256 ^ (off % 8) % 256

theorem Phys.byte_frame (p : Phys) (f : ℕ) {off : ℕ} (hoff : off < pageSize) :
    p.byte (f * pageSize + off) = byteOf (p.memory f) off := by
  rw [pageSize] at hoff
  have hframe : (f * pageSize + off) / pageSize = f := by
    rw [pageSize]
    omega
  have hinside : (f * pageSize + off) % pageSize = off := by
    rw [pageSize]
    omega
  have hbyte : (f * pageSize + off) % 8 = off % 8 := by
    rw [pageSize]
    omega
  rw [Phys.byte, byteOf, hframe, hinside, hbyte]

theorem byteOf_overlay {bytes : List ℕ} (hbytes : ∀ b ∈ bytes, b < 256) (words : ℕ → ℕ) (off : ℕ) :
    byteOf (overlay words bytes) off = bytes.getD off (byteOf words off) := by
  have hdigit : ∀ j, bytes.getD (8 * (off / 8) + j) (words (off / 8) / 256 ^ j % 256) < 256 := by
    intro j
    rw [List.getD_eq_getElem?_getD]
    cases hget : bytes[8 * (off / 8) + j]? with
    | none => exact Nat.mod_lt _ (by decide)
    | some b => exact hbytes b (List.mem_of_getElem? hget)
  rw [byteOf, overlay, digit_of_sum hdigit (Nat.mod_lt _ (by decide)), Nat.div_add_mod, byteOf]

/-! ### Frames behind pages -/

namespace PageTable

variable {pt pt' : PageTable} {p p' : Phys} {v w f g : ℕ}

theorem Sound.frame_unique (hs : pt.Sound p) (hf : (v, f) ∈ pt.dataFrames) (hg : (v, g) ∈ pt.dataFrames) :
    f = g := by
  have heq := (hs.recorded _ hf).2.symm.trans (hs.recorded _ hg).2
  exact Option.some.inj heq

theorem Sound.page_unique (hs : pt.Sound p) (hv : (v, f) ∈ pt.dataFrames) (hw : (w, f) ∈ pt.dataFrames) :
    v = w :=
  congrArg Prod.fst (List.inj_on_of_nodup_map (List.nodup_append.mp hs.nodup).1 hv hw rfl)

theorem Sound.memory_kept (hs : pt.Sound p) (hw : Footprint p.heap pt.tables p'.heap pt'.tables)
    (hf : (v, f) ∈ pt.dataFrames) : p'.memory f = p.memory f :=
  (hw.kept f (hs.allocated f (data_mem hf)) (hs.data_not_metadata hf)).2

end PageTable

/-! ### Bytes behind addresses -/

variable {pt : PageTable} {p : Phys} {a f : ℕ}

/-- The byte that the page table gives for an address.  As in the code, only the lower 39 bits count. -/
def PageTable.byteAt (pt : PageTable) (p : Phys) (addr : ℕ) : Option ℕ :=
  (pt.leaf p (vpnOf addr)).map fun f => p.byte (f * pageSize + offsetOf addr)

theorem PageTable.byteAt_of_leaf (h : pt.leaf p (vpnOf a) = some f) :
    pt.byteAt p a = some (p.byte (f * pageSize + offsetOf a)) := by
  rw [byteAt, h, Option.map_some]

/-- What a program finds at an address.  An address that is not canonical is a page fault. -/
def MemorySet.userByte (ms : MemorySet) (p : Phys) (addr : ℕ) : Option ℕ :=
  if Canonical addr then ms.pageTable.byteAt p addr else none

end LemonCore.Kernel.Mm
