import Mathlib
import LemonCore.EasyFs.Block

/-!
# The on-disk structures (`easy-fs/src/layout.rs`)

* `SuperBlock`, `DiskInode` and `DirEntry`, with the bytes they are stored as;
* the index tree of a disk inode: `blockId` follows it, `buildTree` and `increaseSize` grow it,
  `collectTree`, `clearSize` and `decreaseSize` take it apart;
* `readAt` and `writeAt`, which copy bytes block by block.

A method with `&mut self` returns the new inode.  The depth arguments of the two tree functions only
occur as `dst_depth - cur_depth`, which is the structural argument `levels` here.
-/

namespace LemonCore.EasyFs

open Foundation.LittleEndian Foundation.BorrowProgram

/-! ### Super block -/

/-- `SuperBlock`. -/
structure SuperBlock where
  magic : ℕ
  totalBlocks : ℕ
  inodeBitmapBlocks : ℕ
  inodeAreaBlocks : ℕ
  dataBitmapBlocks : ℕ
  dataAreaBlocks : ℕ
  deriving DecidableEq, Repr

def SuperBlock.ofBlock (x : Block) : SuperBlock :=
  ⟨x.u32 0, x.u32 4, x.u32 8, x.u32 12, x.u32 16, x.u32 20⟩

/-- `SuperBlock::init`: the six words are overwritten, the magic number first. -/
def SuperBlock.init (x : Block) (total inodeBitmap inodeArea dataBitmap dataArea : ℕ) : Block :=
  (((((x.setU32 0 efsMagic).setU32 4 total).setU32 8 inodeBitmap).setU32 12 inodeArea).setU32 16
    dataBitmap).setU32 20 dataArea

/-- `SuperBlock::is_valid`. -/
def SuperBlock.isValid (s : SuperBlock) : Bool := s.magic == efsMagic

/-! ### Disk inodes -/

/-- `DiskInodeKind`. -/
inductive DiskInodeKind where
  | file
  | directory
  deriving DecidableEq, Repr

/-- The byte the compiler stores for a kind. -/
def DiskInodeKind.toByte : DiskInodeKind → UInt8
  | .file => 0
  | .directory => 1

def DiskInodeKind.ofByte (b : UInt8) : DiskInodeKind := if b = 0 then .file else .directory

/-- `DiskInode`; the words are `u32` on disk. -/
@[ext]
structure DiskInode where
  kind : DiskInodeKind
  size : ℕ
  direct : Fin directCount → ℕ
  indirect1 : ℕ
  indirect2 : ℕ
  indirect3 : ℕ

/-- `size_of::<DiskInode>()`. -/
def inodeSize : ℕ := 128

namespace DiskInode

/-- The 32-bit words of the record, by position; word 0 holds the kind and its padding. -/
def word (ino : DiskInode) (j : ℕ) : ℕ :=
  if h : 2 ≤ j ∧ j < 29 then ino.direct ⟨j - 2, by unfold directCount; omega⟩
  else if j = 1 then ino.size
  else if j = 29 then ino.indirect1
  else if j = 30 then ino.indirect2
  else ino.indirect3

/-- The record at byte `off` of a block. -/
def ofBlock (x : Block) (off : ℕ) : DiskInode where
  kind := .ofByte (x.byte off)
  size := x.u32 (off + 4)
  direct := fun i => x.u32 (off + (8 + 4 * i.val))
  indirect1 := x.u32 (off + 116)
  indirect2 := x.u32 (off + 120)
  indirect3 := x.u32 (off + 124)

/-- Store the record at byte `off`; the padding after the kind is left alone. -/
def store (x : Block) (off : ℕ) (ino : DiskInode) : Block :=
  .build fun p =>
    if p = off then ino.kind.toByte
    else if off + 4 ≤ p ∧ p < off + 128 then leByte (ino.word ((p - off) / 4)) ((p - off) % 4)
    else x.byte p

/-- `self.direct[i]`, for `i < DIRECT_COUNT`. -/
def directAt (ino : DiskInode) (i : ℕ) : ℕ := if h : i < directCount then ino.direct ⟨i, h⟩ else 0

/-- `self.direct[i] = v`. -/
def setDirect (ino : DiskInode) (i v : ℕ) : DiskInode :=
  { ino with direct := fun j => if j.val = i then v else ino.direct j }

/-- `DiskInode::init`; it leaves `indirect3` as it is. -/
def init (ino : DiskInode) (kind : DiskInodeKind) : DiskInode :=
  { ino with kind := kind, size := 0, direct := fun _ => 0, indirect1 := 0, indirect2 := 0 }

/-- `DiskInode::is_dir`. -/
def isDir (ino : DiskInode) : Bool := ino.kind == .directory

/-- `DiskInode::is_file`. -/
def isFile (ino : DiskInode) : Bool := ino.kind == .file

/-- `DiskInode::block_id`. -/
def blockId (ino : DiskInode) (blockIndex : ℕ) : DiskProg ℕ :=
  if blockIndex < directBound then
    pure (ino.directAt blockIndex)
  else if blockIndex < indirect1Bound then
    Prog.borrow ino.indirect1 fun indirectBlock =>
      pure (indirectBlock.u32 (4 * (blockIndex - directBound)))
  else if blockIndex < indirect2Bound then do
    let index := blockIndex - indirect1Bound
    let indirect1 ← Prog.borrow ino.indirect2 fun indirect2 =>
      pure (indirect2.u32 (4 * (index / indirect1Count)))
    Prog.borrow indirect1 fun indirect1 => pure (indirect1.u32 (4 * (index % indirect1Count)))
  else do
    let index := blockIndex - indirect2Bound
    let indirect2 ← Prog.borrow ino.indirect3 fun indirect3 =>
      if index / indirect2Count < indirectCount then
        pure (indirect3.u32 (4 * (index / indirect2Count)))
      else .panic .index
    let indirect1 ← Prog.borrow indirect2 fun indirect2 =>
      pure (indirect2.u32 (4 * (index % indirect2Count / indirect1Count)))
    Prog.borrow indirect1 fun indirect1 =>
      pure (indirect1.u32 (4 * (index % indirect2Count % indirect1Count)))

/-- `DiskInode::count_data_block`. -/
def countDataBlock (size : ℕ) : ℕ := (size + (blockSize - 1)) / blockSize

/-- `DiskInode::count_total_block`. -/
def countTotalBlock (size : ℕ) : ℕ :=
  let dataBlocks := countDataBlock size
  let total := dataBlocks
  let total := if directBound < dataBlocks then total + 1 else total
  let total :=
    if indirect1Bound < dataBlocks then
      let remaining := dataBlocks - indirect1Bound
      let indirect1Needed := (remaining + (indirect1Count - 1)) / indirect1Count
      total + 1 + min indirect1Needed indirect1Count
    else total
  if indirect2Bound < dataBlocks then
    let remaining := dataBlocks - indirect2Bound
    let indirect2Needed := (remaining + (indirect2Count - 1)) / indirect2Count
    let indirect3Needed := (remaining + (indirect1Count - 1)) / indirect1Count
    total + 1 + (indirect2Needed + indirect3Needed)
  else total

/-- `DiskInode::blocks_num_needed`. -/
def blocksNumNeeded (ino : DiskInode) (newSize : ℕ) : DiskProg ℕ := do
  Prog.assert (ino.size ≤ newSize) .assertion
  pure (countTotalBlock newSize - countTotalBlock ino.size)

end DiskInode

/-! ### Growing the index tree -/

/-- `blocks.next().unwrap()`. -/
def nextBlock : List ℕ → DiskProg (ℕ × List ℕ)
  | [] => .panic .unwrap
  | b :: blocks => pure (b, blocks)

/-- What the loop of `build_tree` carries: the index block under modification, the leaf counter and
the iterator. -/
structure Building where
  block : Block
  curLeaf : ℕ
  blocks : List ℕ

/-- One turn of that loop, at entry `j` of the index block; `build` is the recursive call. -/
def Building.step (build : List ℕ → ℕ → ℕ → DiskProg (ℕ × List ℕ)) (srcLeaf j : ℕ)
    (s : Building) : DiskProg Building := do
  let s ←
    if srcLeaf ≤ s.curLeaf then do
      let (b, blocks) ← nextBlock s.blocks
      pure { s with block := s.block.setU32 (4 * j) b, blocks := blocks }
    else pure s
  let (curLeaf, blocks) ← build s.blocks (s.block.u32 (4 * j)) s.curLeaf
  pure { s with curLeaf := curLeaf, blocks := blocks }

/-- `DiskInode::build_tree`. -/
def buildTree : (levels : ℕ) → (blocks : List ℕ) → (blockId curLeaf srcLeaf dstLeaf : ℕ) →
    DiskProg (ℕ × List ℕ)
  | 0, blocks, _, curLeaf, _, _ => pure (curLeaf + 1, blocks)
  | levels + 1, blocks, blockId, curLeaf, srcLeaf, dstLeaf =>
    Prog.update blockId fun indirectBlock => do
      let s ← Prog.forUntil (fun s : Building => dstLeaf ≤ s.curLeaf)
        (Building.step
          (fun blocks indirect curLeaf => buildTree levels blocks indirect curLeaf srcLeaf dstLeaf)
          srcLeaf)
        (List.range indirectCount) ⟨indirectBlock, curLeaf, blocks⟩
      pure (s.block, (s.curLeaf, s.blocks))

/-- What the three indirect stanzas of `increase_size` carry from one to the next. -/
structure Growing where
  root : ℕ
  blockIndex : ℕ
  newTotalBlocks : ℕ
  blocks : List ℕ

/-- One indirect stanza of `increase_size`: behind the `prevCount` leaves of the stanza before it,
with index trees of `depth` levels below `root`. -/
def growLevel (depth prevCount : ℕ) (s : Growing) : DiskProg Growing := do
  let (root, blocks) ←
    if s.blockIndex = prevCount then nextBlock s.blocks else pure (s.root, s.blocks)
  let blockIndex := s.blockIndex - prevCount
  let newTotalBlocks := s.newTotalBlocks - prevCount
  let (curLeaf, blocks) ← buildTree depth blocks root 0 blockIndex newTotalBlocks
  pure ⟨root, max blockIndex curLeaf, newTotalBlocks, blocks⟩

namespace DiskInode

/-- The direct stanza of `increase_size`. -/
def growDirect (ino : DiskInode) (blockIndex stop : ℕ) (newBlocks : List ℕ) :
    DiskProg (DiskInode × List ℕ) :=
  Prog.forList (fun i (s : DiskInode × List ℕ) => do
      let (b, blocks) ← nextBlock s.2
      pure (s.1.setDirect i b, blocks))
    (List.range' blockIndex (stop - blockIndex)) (ino, newBlocks)

/-- The last stanza of `increase_size`. -/
def growIndirect3 (ino : DiskInode) (s : Growing) : DiskProg DiskInode := do
  let s ← growLevel 3 indirect2Count { s with root := ino.indirect3 }
  pure { ino with indirect3 := s.root }

/-- `increase_size` from the second indirect stanza on. -/
def growIndirect2 (ino : DiskInode) (s : Growing) : DiskProg DiskInode := do
  let s ← growLevel 2 indirect1Count { s with root := ino.indirect2 }
  let ino := { ino with indirect2 := s.root }
  if s.newTotalBlocks ≤ indirect2Count then pure ino else ino.growIndirect3 s

/-- `increase_size` from the first indirect stanza on. -/
def growIndirect1 (ino : DiskInode) (s : Growing) : DiskProg DiskInode := do
  let s ← growLevel 1 directCount { s with root := ino.indirect1 }
  let ino := { ino with indirect1 := s.root }
  if s.newTotalBlocks ≤ indirect1Count then pure ino else ino.growIndirect2 s

/-- `DiskInode::increase_size`, with its four stanzas as above. -/
def increaseSize (ino : DiskInode) (newSize : ℕ) (newBlocks : List ℕ) : DiskProg DiskInode := do
  let blockIndex := countDataBlock ino.size
  let ino := { ino with size := newSize }
  let newTotalBlocks := countDataBlock newSize
  let stop := min newTotalBlocks directCount
  let (ino, newBlocks) ← ino.growDirect blockIndex stop newBlocks
  let blockIndex := max blockIndex stop
  if newTotalBlocks ≤ directCount then pure ino
  else ino.growIndirect1 ⟨ino.indirect1, blockIndex, newTotalBlocks, newBlocks⟩

end DiskInode

/-! ### Taking the index tree apart -/

/-- `DiskInode::collect_tree`. -/
def collectTree : (levels : ℕ) → (collected : List ℕ) → (blockId curLeaf maxLeaf : ℕ) →
    DiskProg (ℕ × List ℕ)
  | 0, collected, _, curLeaf, _ => pure (curLeaf + 1, collected)
  | levels + 1, collected, blockId, curLeaf, maxLeaf =>
    Prog.borrow blockId fun indirectBlock =>
      Prog.forUntil (fun s : ℕ × List ℕ => maxLeaf ≤ s.1)
        (fun j s => collectTree levels (s.2 ++ [indirectBlock.u32 (4 * j)])
          (indirectBlock.u32 (4 * j)) s.1 maxLeaf)
        (List.range indirectCount) (curLeaf, collected)

namespace DiskInode

/-- `DiskInode::clear_size`. -/
def clearSize (ino : DiskInode) : DiskProg (DiskInode × List ℕ) := do
  let dataBlocks := countDataBlock ino.size
  let dropped := (List.range (min dataBlocks directCount)).map ino.directAt
  let ino := { ino with size := 0, direct := fun _ => 0 }
  if dataBlocks ≤ directCount then return (ino, dropped)
  let dataBlocks := dataBlocks - directCount
  let (_, dropped) ← collectTree 1 (dropped ++ [ino.indirect1]) ino.indirect1 0 dataBlocks
  let ino := { ino with indirect1 := 0 }
  if dataBlocks ≤ indirect1Count then return (ino, dropped)
  let dataBlocks := dataBlocks - indirect1Count
  let (_, dropped) ← collectTree 2 (dropped ++ [ino.indirect2]) ino.indirect2 0 dataBlocks
  let ino := { ino with indirect2 := 0 }
  if dataBlocks ≤ indirect2Count then return (ino, dropped)
  let dataBlocks := dataBlocks - indirect2Count
  let (_, dropped) ← collectTree 3 (dropped ++ [ino.indirect3]) ino.indirect3 0 dataBlocks
  return ({ ino with indirect3 := 0 }, dropped)

/-- The direct stanza of `decrease_size`: the block numbers dropped, and the inode without them. -/
def dropDirect (ino : DiskInode) (recycled stop : ℕ) : DiskInode × List ℕ :=
  ({ ino with direct := fun j => if recycled ≤ j.val ∧ j.val < stop then 0 else ino.direct j },
    (List.range' recycled (stop - recycled)).map ino.directAt)

/-- `DiskInode::decrease_size`.  The indirect stanzas are translated as they stand: they walk the
leaves below `recycled_blocks`, the new count, and the third subtracts `INDIRECT1_COUNT`. -/
def decreaseSize (ino : DiskInode) (newSize : ℕ) : DiskProg (DiskInode × List ℕ) := do
  let blockIndex := countDataBlock ino.size
  let ino := { ino with size := newSize }
  let recycled := countDataBlock newSize
  let stop := min blockIndex directCount
  let (ino, dropped) := ino.dropDirect recycled stop
  let recycled := max recycled stop
  if recycled ≤ directCount then return (ino, dropped)
  let (ino, dropped) :=
    if blockIndex = directCount then ({ ino with indirect1 := 0 }, dropped ++ [ino.indirect1])
    else (ino, dropped)
  let blockIndex := blockIndex - directCount
  let recycled := recycled - directCount
  let (curLeaf, dropped) ← collectTree 1 dropped ino.indirect1 0 recycled
  let blockIndex := min blockIndex curLeaf
  if recycled ≤ indirect1Count then return (ino, dropped)
  let (ino, dropped) :=
    if blockIndex = indirect1Count then ({ ino with indirect2 := 0 }, dropped ++ [ino.indirect2])
    else (ino, dropped)
  let blockIndex := blockIndex - indirect1Count
  let recycled := recycled - indirect1Count
  let (curLeaf, dropped) ← collectTree 2 dropped ino.indirect2 0 recycled
  let blockIndex := min blockIndex curLeaf
  if recycled ≤ indirect2Count then return (ino, dropped)
  let (ino, dropped) :=
    if blockIndex = indirect2Count then ({ ino with indirect3 := 0 }, dropped ++ [ino.indirect3])
    else (ino, dropped)
  let recycled := recycled - indirect1Count
  let (_, dropped) ← collectTree 3 dropped ino.indirect3 0 recycled
  return (ino, dropped)

/-! ### Reading and writing bytes -/

/-- Where the copy from `start` on ends: with the block or with the whole copy. -/
def endCurrentBlock (start stop : ℕ) : ℕ := min ((start / blockSize + 1) * blockSize) stop

theorem sub_endCurrentBlock_lt {start stop : ℕ} (h : endCurrentBlock start stop ≠ stop) :
    stop - endCurrentBlock start stop < stop - start := by
  unfold endCurrentBlock blockSize at h ⊢
  omega

/-- `buf[pos..pos + src.len()].copy_from_slice(src)`. -/
def copyInto (buf : List UInt8) (pos : ℕ) (src : List UInt8) : List UInt8 :=
  buf.take pos ++ src ++ buf.drop (pos + src.length)

/-- The loop of `read_at`: the bytes read so far and the buffer they are in. -/
def readLoop (ino : DiskInode) (stop start startBlock readSize : ℕ) (buf : List UInt8) :
    DiskProg (ℕ × List UInt8) := do
  let blockReadSize := endCurrentBlock start stop - start
  let id ← ino.blockId startBlock
  let src ← Prog.borrow id fun dataBlock => pure (dataBlock.slice (start % blockSize) blockReadSize)
  if _h : endCurrentBlock start stop = stop then
    pure (readSize + blockReadSize, copyInto buf readSize src)
  else
    readLoop ino stop (endCurrentBlock start stop) (startBlock + 1) (readSize + blockReadSize)
      (copyInto buf readSize src)
termination_by stop - start
decreasing_by exact sub_endCurrentBlock_lt _h

/-- `DiskInode::read_at`: the number of bytes read, and the buffer after it. -/
def readAt (ino : DiskInode) (offset : ℕ) (buf : List UInt8) : DiskProg (ℕ × List UInt8) :=
  let stop := min (offset + buf.length) ino.size
  if stop ≤ offset then pure (0, buf)
  else ino.readLoop stop offset (offset / blockSize) 0 buf

/-- The loop of `write_at`. -/
def writeLoop (ino : DiskInode) (stop start startBlock writeSize : ℕ) (buf : List UInt8) :
    DiskProg ℕ := do
  let blockWriteSize := endCurrentBlock start stop - start
  let id ← ino.blockId startBlock
  Prog.update id fun dataBlock =>
    pure (dataBlock.setBytes (start % blockSize) ((buf.drop writeSize).take blockWriteSize), ())
  if _h : endCurrentBlock start stop = stop then pure (writeSize + blockWriteSize)
  else
    writeLoop ino stop (endCurrentBlock start stop) (startBlock + 1) (writeSize + blockWriteSize)
      buf
termination_by stop - start
decreasing_by exact sub_endCurrentBlock_lt _h

/-- `DiskInode::write_at`: the number of bytes written; the inode itself does not change. -/
def writeAt (ino : DiskInode) (offset : ℕ) (buf : List UInt8) : DiskProg ℕ := do
  let stop := min (offset + buf.length) ino.size
  Prog.assert (offset ≤ stop) .assertion
  ino.writeLoop stop offset (offset / blockSize) 0 buf

end DiskInode

/-! ### Directory entries -/

/-- `DirEntry`: the name padded with zero bytes, and an inode number. -/
@[ext]
structure DirEntry where
  name : List UInt8
  inodeNumber : ℕ
  name_length : name.length = nameLengthLimit + 1
  inodeNumber_lt : inodeNumber < 2 ^ 32
  deriving DecidableEq

/-- `str::as_bytes`. -/
def strBytes (s : String) : List UInt8 := s.toByteArray.data.toList

/-- `DIRENT_SIZE`. -/
def direntSize : ℕ := 32

namespace DirEntry

/-- `DirEntry::empty`. -/
def empty : DirEntry := ⟨List.replicate (nameLengthLimit + 1) 0, 0, by simp, by decide⟩

/-- `DirEntry::new`; a name that does not fit is a slice index out of range. -/
def new (name : String) (inodeNumber : ℕ) : DiskProg DirEntry :=
  if h : (strBytes name).length ≤ nameLengthLimit + 1 then
    pure ⟨strBytes name ++ List.replicate (nameLengthLimit + 1 - (strBytes name).length) 0,
      inodeNumber % 2 ^ 32, by rw [List.length_append, List.length_replicate]; omega,
      Nat.mod_lt _ (by decide)⟩
  else .panic .index

/-- `DirEntry::as_bytes`. -/
def asBytes (e : DirEntry) : List UInt8 := e.name ++ (List.range 4).map (leByte e.inodeNumber)

/-- The entry whose bytes are in a buffer of `DIRENT_SIZE` bytes (`as_mut_bytes`). -/
def ofBytes (l : List UInt8) : DirEntry where
  name := (List.range (nameLengthLimit + 1)).map fun i => l.getD i 0
  inodeNumber := leNat (fun i => l.getD i 0) 4 (nameLengthLimit + 1)
  name_length := by simp
  inodeNumber_lt := leNat_lt _ 4 _

/-- The bytes of the name, up to the first zero. -/
def nameBytes (e : DirEntry) : List UInt8 := e.name.takeWhile (· ≠ 0)

/-- `DirEntry::name`: `None` when the bytes are not UTF-8, where the source unwraps. -/
def name? (e : DirEntry) : Option String := String.fromUTF8? ⟨e.nameBytes.toArray⟩

end DirEntry

end LemonCore.EasyFs
