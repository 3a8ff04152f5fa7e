import LemonCore.EasyFs.Bitmap
import LemonCore.EasyFs.Records

/-!
# The file system (`easy-fs/src/efs.rs`)

The blocks of the device are, in this order: the super block, the inode bitmap, the inode area with
four disk inodes a block, the data bitmap and the data area.

* `EasyFileSystem.create` and `EasyFileSystem.open`; block numbers are `u32`, and their sums wrap;
* `allocInode`, `deallocInode`, `allocData`, `deallocData`.
-/

namespace LemonCore.EasyFs

open Foundation.BorrowProgram

/-- `EasyFileSystem`, without the device. -/
structure EasyFileSystem where
  inodeBitmap : Bitmap
  dataBitmap : Bitmap
  inodeAreaStartBlock : ℕ
  dataAreaStartBlock : ℕ
  deriving DecidableEq, Repr

/-- Work on the disk inode at byte `off` of block `b` (`read` and `modify` of a block cache entry). -/
def readInode {γ : Type} (b off : ℕ) (f : DiskInode → DiskProg γ) : DiskProg γ :=
  Prog.borrow b fun x => f (DiskInode.ofBlock x off)

def modifyInode {γ : Type} (b off : ℕ) (f : DiskInode → DiskProg (DiskInode × γ)) : DiskProg γ :=
  Prog.update b fun x => do
    let (ino, r) ← f (DiskInode.ofBlock x off)
    pure (DiskInode.store x off ino, r)

namespace EasyFileSystem

/-- `EasyFileSystem::disk_inode_position`. -/
def diskInodePosition (fs : EasyFileSystem) (inodeId : ℕ) : ℕ × ℕ :=
  (fs.inodeAreaStartBlock + inodeId / (blockSize / inodeSize),
    inodeId % (blockSize / inodeSize) * inodeSize)

/-- `EasyFileSystem::disk_inode_id`. -/
def diskInodeId (fs : EasyFileSystem) (blockId blockOffset : ℕ) : ℕ :=
  (blockId - fs.inodeAreaStartBlock) * (blockSize / inodeSize) + blockOffset / inodeSize

/-- `EasyFileSystem::alloc_inode`. -/
def allocInode (fs : EasyFileSystem) : DiskProg ℕ := do
  match ← fs.inodeBitmap.alloc with
  | none => .panic .unwrap
  | some i => pure (i % 2 ^ 32)

/-- `EasyFileSystem::dealloc_inode`. -/
def deallocInode (fs : EasyFileSystem) (inodeId : ℕ) : DiskProg Unit := fs.inodeBitmap.dealloc inodeId

/-- `EasyFileSystem::alloc_data`. -/
def allocData (fs : EasyFileSystem) : DiskProg ℕ := do
  match ← fs.dataBitmap.alloc with
  | none => .panic .unwrap
  | some i => pure ((i % 2 ^ 32 + fs.dataAreaStartBlock) % 2 ^ 32)

/-- `EasyFileSystem::dealloc_data`. -/
def deallocData (fs : EasyFileSystem) (blockId : ℕ) : DiskProg Unit := do
  Prog.update blockId fun _ => pure (Block.zero, ())
  fs.dataBitmap.dealloc ((blockId + 2 ^ 32 - fs.dataAreaStartBlock) % 2 ^ 32)

/-- The numbers `create` computes from its arguments, before it touches the device. -/
def inodeAreaBlocks (inodeBitmapBlocks : ℕ) : ℕ :=
  ((⟨1, inodeBitmapBlocks⟩ : Bitmap).maximum * inodeSize + (blockSize - 1)) / blockSize % 2 ^ 32

def inodeTotalBlocks (inodeBitmapBlocks : ℕ) : ℕ :=
  (inodeBitmapBlocks + inodeAreaBlocks inodeBitmapBlocks) % 2 ^ 32

def dataTotalBlocks (totalBlocks inodeBitmapBlocks : ℕ) : ℕ :=
  (totalBlocks + 2 ^ 33 - 1 - inodeTotalBlocks inodeBitmapBlocks) % 2 ^ 32

def dataBitmapBlocks (totalBlocks inodeBitmapBlocks : ℕ) : ℕ :=
  (dataTotalBlocks totalBlocks inodeBitmapBlocks + 4096) % 2 ^ 32 / 4097

def dataAreaBlocks (totalBlocks inodeBitmapBlocks : ℕ) : ℕ :=
  dataTotalBlocks totalBlocks inodeBitmapBlocks - dataBitmapBlocks totalBlocks inodeBitmapBlocks

/-- The `efs` that `create` builds. -/
def layout (totalBlocks inodeBitmapBlocks : ℕ) : EasyFileSystem where
  inodeBitmap := ⟨1, inodeBitmapBlocks⟩
  dataBitmap := ⟨(1 + inodeBitmapBlocks + inodeAreaBlocks inodeBitmapBlocks) % 2 ^ 32,
    dataBitmapBlocks totalBlocks inodeBitmapBlocks⟩
  inodeAreaStartBlock := (1 + inodeBitmapBlocks) % 2 ^ 32
  dataAreaStartBlock :=
    (1 + inodeTotalBlocks inodeBitmapBlocks + dataBitmapBlocks totalBlocks inodeBitmapBlocks) % 2 ^ 32

/-- The loop of `create` that clears all blocks. -/
def clearBlocks (blocks : List ℕ) : DiskProg Unit :=
  Prog.forList (fun b _ => Prog.update b fun _ => pure (Block.zero, ())) blocks ()

/-- `EasyFileSystem::create`. -/
def create (totalBlocks inodeBitmapBlocks : ℕ) : DiskProg EasyFileSystem := do
  let efs := layout totalBlocks inodeBitmapBlocks
  clearBlocks (List.range totalBlocks)
  Prog.update 0 fun superBlock =>
    pure (SuperBlock.init superBlock totalBlocks inodeBitmapBlocks
      (inodeAreaBlocks inodeBitmapBlocks) (dataBitmapBlocks totalBlocks inodeBitmapBlocks)
      (dataAreaBlocks totalBlocks inodeBitmapBlocks), ())
  let rootId ← efs.allocInode
  Prog.assert (rootId = 0) .assertion
  let (rootBlock, rootOffset) := efs.diskInodePosition 0
  modifyInode rootBlock rootOffset fun ino => pure (ino.init .directory, ())
  Prog.syncAll
  pure efs

/-- `EasyFileSystem::open`. -/
def «open» : DiskProg EasyFileSystem :=
  Prog.borrow 0 fun x => do
    let superBlock := SuperBlock.ofBlock x
    Prog.assert superBlock.isValid .assertion
    let inodeTotalBlocks := (superBlock.inodeBitmapBlocks + superBlock.inodeAreaBlocks) % 2 ^ 32
    pure {
      inodeBitmap := ⟨1, superBlock.inodeBitmapBlocks⟩
      dataBitmap := ⟨(1 + inodeTotalBlocks) % 2 ^ 32, superBlock.dataBitmapBlocks⟩
      inodeAreaStartBlock := (1 + superBlock.inodeBitmapBlocks) % 2 ^ 32
      dataAreaStartBlock := (1 + inodeTotalBlocks + superBlock.dataBitmapBlocks) % 2 ^ 32 }

end EasyFileSystem

end LemonCore.EasyFs
