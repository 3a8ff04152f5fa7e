import Mathlib
import LemonCore.Foundation.LittleEndian
import LemonCore.Foundation.BorrowProgram

/-!
# Blocks and their views (`easy-fs/src/config.rs`, `block_dev.rs`)

A block is `BLOCK_SIZE` bytes.  The source casts the same bytes to a data block (`[u8; 512]`), an
index block (`[u32; 128]`), a bitmap block (`[u64; 64]`) and to records at an offset; here each cast
is a reading of the bytes: `byte`, `u32`, `u64`.

A disk is one block for each block number, and a file system operation is a `DiskProg`: it gets
blocks from the block cache, locks them, reads or modifies them, and panics with a `Panic`.
-/

namespace LemonCore.EasyFs

open Foundation.LittleEndian Foundation.BorrowProgram

/-! ### Constants -/

/-- Bytes in a block. -/
def blockSize : ℕ := 512
/-- Bits in a block. -/
def blockBits : ℕ := 4096
/-- Entries of the block cache. -/
def blockCacheSize : ℕ := 16
/-- The magic number of a super block. -/
def efsMagic : ℕ := 0x3b800001
/-- Direct block numbers of a disk inode. -/
def directCount : ℕ := 27
/-- Block numbers in an index block. -/
def indirectCount : ℕ := 128
def indirect1Count : ℕ := 128
@[irreducible] def indirect2Count : ℕ := 16384
@[irreducible] def indirect3Count : ℕ := 2097152
/-- First leaf behind `indirect1`. -/
def directBound : ℕ := 27
/-- First leaf behind `indirect2`. -/
def indirect1Bound : ℕ := 155
/-- First leaf behind `indirect3`.  The large constants are irreducible: comparing with them must not
count down from them. -/
@[irreducible] def indirect2Bound : ℕ := 16539
/-- The largest number of leaves of an inode. -/
@[irreducible] def indirect3Bound : ℕ := 2113691
/-- Longest name that leaves room for a terminating zero. -/
def nameLengthLimit : ℕ := 27

/-- The constants are computed from one another in the source. -/
theorem bounds_eq :
    blockBits = blockSize * 8 ∧ indirectCount = blockSize / 4 ∧
    indirect1Count = indirectCount ∧ indirect2Count = indirectCount ^ 2 ∧
    indirect3Count = indirectCount ^ 3 ∧ directBound = directCount ∧
    indirect1Bound = directBound + indirect1Count ∧
    indirect2Bound = indirect1Bound + indirect2Count ∧
    indirect3Bound = indirect2Bound + indirect3Count := by decide +kernel

/-! ### Blocks -/

/-- The bytes of a block. -/
def Block : Type := Fin 512 → UInt8

/-- The byte at position `i`. -/
def Block.byte (x : Block) (i : ℕ) : UInt8 := if h : i < 512 then x ⟨i, h⟩ else 0

/-- The block with the given bytes. -/
def Block.build (f : ℕ → UInt8) : Block := fun i => f i.val

/-- The block of zero bytes (`data_block.fill(0)`). -/
def Block.zero : Block := fun _ => 0

@[simp] theorem Block.byte_build (f : ℕ → UInt8) {i : ℕ} (h : i < 512) :
    (Block.build f).byte i = f i := by
  rw [Block.byte, dif_pos h]
  rfl

@[simp] theorem Block.byte_zero (i : ℕ) : Block.zero.byte i = 0 := by
  unfold Block.byte Block.zero
  split <;> rfl

theorem Block.ext_byte {x y : Block} (h : ∀ i, i < 512 → x.byte i = y.byte i) : x = y := by
  funext i
  have := h i.val i.isLt
  simpa only [Block.byte, dif_pos i.isLt] using this

/-- The 32-bit word at byte offset `off`. -/
def Block.u32 (x : Block) (off : ℕ) : ℕ := leNat x.byte 4 off

/-- The 64-bit word at byte offset `off`. -/
def Block.u64 (x : Block) (off : ℕ) : ℕ := leNat x.byte 8 off

def Block.setU32 (x : Block) (off v : ℕ) : Block := .build (lePut x.byte 4 off v)

def Block.setU64 (x : Block) (off v : ℕ) : Block := .build (lePut x.byte 8 off v)

/-- Copy a slice into the block (`dst.copy_from_slice(src)`). -/
def Block.setBytes (x : Block) (off : ℕ) (l : List UInt8) : Block :=
  .build fun p => if off ≤ p ∧ p < off + l.length then l.getD (p - off) 0 else x.byte p

/-- The same block, read from one number. -/
def Block.recode (x : Block) : Block := .build (leByte (leNat x.byte 512 0))

theorem Block.recode_eq (x : Block) : x.recode = x := by
  apply Block.ext_byte
  intro i hi
  rw [recode, Block.byte_build _ hi, leByte_leNat _ _ _ _ hi, Nat.zero_add]

/-- A slice of the block. -/
def Block.slice (x : Block) (off len : ℕ) : List UInt8 := (List.range len).map fun i => x.byte (off + i)

theorem Block.u32_lt (x : Block) (off : ℕ) : x.u32 off < 2 ^ 32 := leNat_lt x.byte 4 off

theorem Block.u64_lt (x : Block) (off : ℕ) : x.u64 off < 2 ^ 64 := leNat_lt x.byte 8 off

theorem leNat_build (f : ℕ → UInt8) {w off : ℕ} (h : off + w ≤ 512) :
    leNat (Block.build f).byte w off = leNat f w off :=
  leNat_congr fun i hi => Block.byte_build f (by omega)

theorem Block.u32_setU32_same (x : Block) {off v : ℕ} (h : off + 4 ≤ 512) (hv : v < 2 ^ 32) :
    (x.setU32 off v).u32 off = v := by
  rw [Block.u32, Block.setU32, leNat_build _ h, leNat_lePut_same]
  exact Nat.mod_eq_of_lt hv

theorem Block.u32_setU32_other (x : Block) {off off' v : ℕ} (h' : off' + 4 ≤ 512)
    (hd : off + 4 ≤ off' ∨ off' + 4 ≤ off) : (x.setU32 off v).u32 off' = x.u32 off' := by
  rw [Block.u32, Block.setU32, leNat_build _ h', leNat_lePut_disjoint _ _ _ _ _ _ hd]
  rfl

theorem Block.u64_setU64_same (x : Block) {off v : ℕ} (h : off + 8 ≤ 512) (hv : v < 2 ^ 64) :
    (x.setU64 off v).u64 off = v := by
  rw [Block.u64, Block.setU64, leNat_build _ h, leNat_lePut_same]
  exact Nat.mod_eq_of_lt hv

theorem Block.u64_setU64_other (x : Block) {off off' v : ℕ} (h' : off' + 8 ≤ 512)
    (hd : off + 8 ≤ off' ∨ off' + 8 ≤ off) : (x.setU64 off v).u64 off' = x.u64 off' := by
  rw [Block.u64, Block.setU64, leNat_build _ h', leNat_lePut_disjoint _ _ _ _ _ _ hd]
  rfl

@[simp] theorem Block.u32_zero (off : ℕ) : Block.zero.u32 off = 0 := by
  rw [Block.u32, show Block.zero.byte = fun _ => 0 from funext Block.byte_zero, leNat_zero]

@[simp] theorem Block.u64_zero (off : ℕ) : Block.zero.u64 off = 0 := by
  rw [Block.u64, show Block.zero.byte = fun _ => 0 from funext Block.byte_zero, leNat_zero]

theorem Block.byte_setBytes (x : Block) (off : ℕ) (l : List UInt8) {p : ℕ} (hp : p < 512) :
    (x.setBytes off l).byte p =
      if off ≤ p ∧ p < off + l.length then l.getD (p - off) 0 else x.byte p := by
  rw [Block.setBytes, Block.byte_build _ hp]

/-! ### Disks and programs -/

/-- The panics of the file system code. -/
inductive Panic where
  /-- A failed `assert!` or `assert_eq!`. -/
  | assertion
  /-- `unwrap` of a `None`. -/
  | unwrap
  /-- A slice or array index out of range. -/
  | index
  deriving DecidableEq, Repr

/-- One block for each block number. -/
abbrev Disk : Type := ℕ → Block

/-- File system code: programs over the blocks of one device. -/
abbrev DiskProg : Type → Type 1 := Prog Block Panic

/-- `wp` for file system code: the cache has room for `blockCacheSize` held blocks. -/
abbrev dwp {α : Type} (p : DiskProg α) (held : List ℕ) (d : Disk)
    (Q : α → Disk → Prop) (E : Fault Panic → Prop) : Prop := wp blockCacheSize p held d Q E

/-- The effect of file system code on the logical content of the disk. -/
abbrev drun {α : Type} (p : DiskProg α) (held : List ℕ) (d : Disk) :
    Except (Fault Panic) (α × Disk) := run blockCacheSize p held d

end LemonCore.EasyFs
