import LemonCore.EasyFs.Efs

/-!
# Inodes (`easy-fs/src/vfs.rs`)

A handle `Inode` is the position of a disk inode: a block and an offset in it.  Every operation locks
the file system for its whole length, so an operation is one `DiskProg`; the position is all it knows
about the file it works on.

`delete` and `find_inode_id` are translated with the entry buffer they really have: an entry past the
end of the directory is read as the bytes the buffer had before.
-/

namespace LemonCore.EasyFs

open Foundation.BorrowProgram

/-- `Inode`, without the file system and the device it belongs to. -/
structure Inode where
  blockId : ℕ
  blockOffset : ℕ
  deriving DecidableEq, Repr

/-- `Inode::new` at a position. -/
def Inode.ofPosition (p : ℕ × ℕ) : Inode := ⟨p.1, p.2⟩

/-- `EasyFileSystem::root_inode`. -/
def EasyFileSystem.rootInode (fs : EasyFileSystem) : Inode := .ofPosition (fs.diskInodePosition 0)

namespace EasyFileSystem

/-- The loop `for _ in 0..blocks_needed { v.push(fs.alloc_data()); }`. -/
def allocBlocks (fs : EasyFileSystem) (blocksNeeded : ℕ) : DiskProg (List ℕ) :=
  Prog.forList (fun _ v => do
    let b ← fs.allocData
    pure (v ++ [b])) (List.range blocksNeeded) []

/-- `fs.dealloc_data` for each block of a list. -/
def deallocBlocks (fs : EasyFileSystem) (blocks : List ℕ) : DiskProg Unit :=
  Prog.forList (fun b _ => fs.deallocData b) blocks ()

/-- `Inode::increase_size`. -/
def increaseSize (fs : EasyFileSystem) (newSize : ℕ) (ino : DiskInode) : DiskProg DiskInode :=
  if newSize < ino.size then pure ino
  else do
    let blocksNeeded ← ino.blocksNumNeeded newSize
    let v ← fs.allocBlocks blocksNeeded
    ino.increaseSize newSize v

/-- `Inode::decrease_size`. -/
def decreaseSize (fs : EasyFileSystem) (newSize : ℕ) (ino : DiskInode) : DiskProg DiskInode :=
  if ino.size ≤ newSize then pure ino
  else do
    let (ino, dropped) ← ino.decreaseSize newSize
    fs.deallocBlocks dropped
    pure ino

end EasyFileSystem

/-- `dirent.name()` of the entry in a buffer. -/
def direntName (buf : List UInt8) : DiskProg String :=
  match (DirEntry.ofBytes buf).name? with
  | none => .panic .unwrap
  | some s => pure s

/-- The loop of `find_inode_id` over the entry numbers that are left; `buf` is the entry buffer. -/
def findFrom (name : String) (ino : DiskInode) (buf : List UInt8) :
    List ℕ → DiskProg (Option ℕ)
  | [] => pure none
  | i :: is => do
    let (n, buf) ← ino.readAt (direntSize * i) buf
    Prog.assert (n = direntSize) .assertion
    let s ← direntName buf
    if s = name then pure (some (DirEntry.ofBytes buf).inodeNumber) else findFrom name ino buf is

/-- `Inode::find_inode_id`. -/
def findInodeId (name : String) (ino : DiskInode) : DiskProg (Option ℕ) := do
  Prog.assert ino.isDir .assertion
  findFrom name ino DirEntry.empty.asBytes (List.range (ino.size / direntSize))

namespace Inode

variable (fs : EasyFileSystem) (self : Inode)

/-- `Inode::read_disk_inode`. -/
def readDiskInode {γ : Type} (f : DiskInode → DiskProg γ) : DiskProg γ :=
  readInode self.blockId self.blockOffset f

/-- `Inode::modify_disk_inode`. -/
def modifyDiskInode {γ : Type} (f : DiskInode → DiskProg (DiskInode × γ)) : DiskProg γ :=
  modifyInode self.blockId self.blockOffset f

/-- `Inode::find`. -/
def find (name : String) : DiskProg (Option Inode) :=
  self.readDiskInode fun ino => do
    let r ← findInodeId name ino
    pure (r.map fun inodeId => .ofPosition (fs.diskInodePosition inodeId))

/-- Append the entry `name` for inode `newInodeId` to the directory (in `create_inode`). -/
def appendDirent (name : String) (newInodeId : ℕ) (dir : DiskInode) : DiskProg (DiskInode × Unit) := do
  let fileCount := dir.size / direntSize
  let newSize := (fileCount + 1) * direntSize
  let dir ← fs.increaseSize (newSize % 2 ^ 32) dir
  let dirent ← DirEntry.new name newInodeId
  let _ ← dir.writeAt (fileCount * direntSize) dirent.asBytes
  pure (dir, ())

/-- `Inode::create_inode`. -/
def createInode (name : String) (kind : DiskInodeKind) : DiskProg (Option Inode) := do
  let found ← self.readDiskInode fun dir => do
    Prog.assert dir.isDir .assertion
    findInodeId name dir
  if found.isSome then pure none
  else do
    let newInodeId ← fs.allocInode
    let position := fs.diskInodePosition newInodeId
    modifyInode position.1 position.2 fun newInode => pure (newInode.init kind, ())
    self.modifyDiskInode (appendDirent fs name newInodeId)
    Prog.syncAll
    pure (some (.ofPosition position))

/-- `Inode::create`. -/
def create (name : String) : DiskProg (Option Inode) := self.createInode fs name .file

/-- `Inode::inode_id`. -/
def inodeId : ℕ := fs.diskInodeId self.blockId self.blockOffset

/-- `Inode::set_default_dirent`. -/
def setDefaultDirent (parentInodeId : ℕ) : DiskProg Unit :=
  self.modifyDiskInode fun dir => do
    let dir ← fs.increaseSize (2 * direntSize) dir
    let direntSelf ← DirEntry.new "." (self.inodeId fs)
    let _ ← dir.writeAt 0 direntSelf.asBytes
    let direntParent ← DirEntry.new ".." parentInodeId
    let _ ← dir.writeAt direntSize direntParent.asBytes
    pure (dir, ())

/-- `Inode::create_dir`. -/
def createDir (name : String) : DiskProg (Option Inode) := do
  match ← self.createInode fs name .directory with
  | none => pure none
  | some inode => do
    inode.setDefaultDirent fs (self.inodeId fs)
    pure (some inode)

/-- `Inode::clear`. -/
def clear : DiskProg Unit := do
  self.modifyDiskInode fun ino => do
    let size := ino.size
    let (ino, dropped) ← ino.clearSize
    Prog.assert (dropped.length = DiskInode.countTotalBlock size) .assertion
    fs.deallocBlocks dropped
    pure (ino, ())
  Prog.syncAll

/-- `Inode::read_at`: the number of bytes read, and the buffer after it. -/
def readAt (offset : ℕ) (buf : List UInt8) : DiskProg (ℕ × List UInt8) :=
  self.readDiskInode fun ino => ino.readAt offset buf

/-- `Inode::write_at`. -/
def writeAt (offset : ℕ) (buf : List UInt8) : DiskProg ℕ := do
  let size ← self.modifyDiskInode fun ino => do
    Prog.assert ino.isFile .assertion
    let ino ← fs.increaseSize ((offset + buf.length) % 2 ^ 32) ino
    let size ← ino.writeAt offset buf
    pure (ino, size)
  Prog.syncAll
  pure size

/-- One turn of the loop of `delete`, at entry `i` of the `fileCount` there were. -/
def deleteAt (name : String) (lastDirent : List UInt8) (fileCount i : ℕ) (dir : DiskInode) :
    DiskProg DiskInode := do
  let (_, dirent) ← dir.readAt (i * direntSize) DirEntry.empty.asBytes
  let s ← direntName dirent
  if s = name then do
    fs.deallocInode (DirEntry.ofBytes dirent).inodeNumber
    let _ ← dir.writeAt (i * direntSize) (DirEntry.ofBytes lastDirent).asBytes
    let newSize := (fileCount - 1) * direntSize
    fs.decreaseSize (newSize % 2 ^ 32) dir
  else pure dir

/-- `Inode::delete`. -/
def delete (name : String) : DiskProg Unit :=
  self.modifyDiskInode fun dir => do
    Prog.assert dir.isDir .assertion
    let _ ← findInodeId name dir
    -- on an empty directory the offset wraps, and nothing is read
    let (_, lastDirent) ← dir.readAt ((dir.size + 2 ^ 64 - direntSize) % 2 ^ 64) DirEntry.empty.asBytes
    let fileCount := dir.size / direntSize
    let dir ← Prog.forList (deleteAt fs name lastDirent fileCount) (List.range fileCount) dir
    pure (dir, ())

/-- `Inode::file_size`. -/
def fileSize : DiskProg ℕ := self.readDiskInode fun ino => pure ino.size

/-- `Inode::is_dir`. -/
def isDir : DiskProg Bool := self.readDiskInode fun ino => pure ino.isDir

/-- `Inode::is_file`. -/
def isFile : DiskProg Bool := self.readDiskInode fun ino => pure ino.isFile

end Inode

end LemonCore.EasyFs
