import LabKernel.Fs.Bitmap

/-! # Inode contents

The part of `kernel/fs/inode.c` that works on one inode: the index table, the record on disk and the
data. `ip->disk_info` is an `InodeDisk` passed in and returned, since these functions change the
cached record in place; the disk is threaded through in the same way. A failed allocation returns
`-1` after the blocks attached so far, as in the source.
-/

namespace LabKernel

/-- `buffer_get`, `memset` to zero, `buffer_write`, `buffer_put` -/
def zeroBlock (b : U32) (d : Disk) : Disk := d.write b.toNat fun _ => 0

/-- `table[j] = v` in a block read as a table, written back. -/
def Disk.setEntry (d : Disk) (b j : ℕ) (v : U32) : Disk := d.write b ((d b).setU32 (4 * j) v)

/-- The step `if (inode_index[k] == 0) { allocate; zero }` on the in-memory table: the entry, or
`none` where the source returns `-1` because no block is free. -/
def addIndexBlock (sb : SuperBlock) (index : Index) (k : ℕ) (d : Disk) :
    Option U32 × Index × Disk :=
  if index.get k = 0 then
    let r := bitmapAllocBlock sb d
    if r.1 = minusOne then (none, index, r.2)
    else (some ((index.set k r.1).get k), index.set k r.1, zeroBlock r.1 r.2)
  else (some (index.get k), index, d)

/-- The same step on entry `j` of an index block: the table is written back before the new block is
zeroed. -/
def addTableBlock (sb : SuperBlock) (table : U32) (j : ℕ) (d : Disk) : Option U32 × Disk :=
  if d.entry table.toNat j = 0 then
    let r := bitmapAllocBlock sb d
    if r.1 = minusOne then (none, r.2)
    else (some r.1, zeroBlock r.1 (r.2.setEntry table.toNat j r.1))
  else (some (d.entry table.toNat j), d)

/-- `locate_or_add_block`: the physical block of a logical one, the index table and the disk. -/
def locateOrAddBlock (sb : SuperBlock) (index : Index) (logicalBlockNum : ℕ) (d : Disk) :
    U32 × Index × Disk :=
  if logicalBlockNum < inodeIndex1 then
    -- case 1: direct
    match addIndexBlock sb index logicalBlockNum d with
    | (none, index, d) => (minusOne, index, d)
    | (some block, index, d) => (block, index, d)
  else
    let logicalBlockNum := logicalBlockNum - inodeIndex1
    if logicalBlockNum < 2 * 1024 then
      -- case 2: single indirect
      match addIndexBlock sb index (inodeIndex1 + logicalBlockNum / 1024) d with
      | (none, index, d) => (minusOne, index, d)
      | (some table, index, d) =>
        match addTableBlock sb table (logicalBlockNum % 1024) d with
        | (none, d) => (minusOne, index, d)
        | (some target, d) => (target, index, d)
    else
      let logicalBlockNum := logicalBlockNum - 2 * 1024
      if logicalBlockNum < 1024 * 1024 then
        -- case 3: double indirect
        match addIndexBlock sb index inodeIndex2 d with
        | (none, index, d) => (minusOne, index, d)
        | (some l2Table, index, d) =>
          match addTableBlock sb l2Table (logicalBlockNum / 1024) d with
          | (none, d) => (minusOne, index, d)
          | (some l1Block, d) =>
            match addTableBlock sb l1Block (logicalBlockNum % 1024) d with
            | (none, d) => (minusOne, index, d)
            | (some target, d) => (target, index, d)
      else (minusOne, index, d)

/-- Run `step 0`, …, `step (n - 1)` in order. -/
def forRange (step : ℕ → Disk → Disk) : (n i : ℕ) → Disk → Disk
  | 0, _, d => d
  | n + 1, i, d => forRange step n (i + 1) (step i d)

/-- `__free_data_blocks`: free a block and, above level 0, first the blocks its table lists. The
result tells whether the block number was empty. -/
def freeDataBlocksAt (sb : SuperBlock) : ℕ → U32 → Disk → Bool × Disk
  | 0, blockNum, d => if blockNum = 0 then (true, d) else (false, bitmapFreeBlock sb blockNum d)
  | level + 1, blockNum, d =>
    if blockNum = 0 then (true, d)
    else
      let step i (d : Disk) := (freeDataBlocksAt sb level (d.entry blockNum.toNat i) d).2
      (false, bitmapFreeBlock sb blockNum (forRange step 1024 0 d))

/-- The level at which `free_data_blocks` frees index entry `i`. -/
def indexLevel (i : ℕ) : ℕ := if i < inodeIndex1 then 0 else if i < inodeIndex2 then 1 else 2

/-- `free_data_blocks`: the three loops in one, from entry `i` on; it stops behind the first empty
entry. -/
def freeDataBlocksFrom (sb : SuperBlock) : (n i : ℕ) → Index → Disk → Index × Disk
  | 0, _, index, d => (index, d)
  | n + 1, i, index, d =>
    let r := freeDataBlocksAt sb (indexLevel i) (index.get i) d
    if r.1 then (index.set i 0, r.2)
    else freeDataBlocksFrom sb n (i + 1) (index.set i 0) r.2

def freeDataBlocks (sb : SuperBlock) (index : Index) (d : Disk) : Index × Disk :=
  freeDataBlocksFrom sb inodeIndex3 0 index d

/-! ## The record on disk -/

/-- The block that holds an inode's record. -/
def inodeBlock (sb : SuperBlock) (inodeNum : U32) : ℕ :=
  sb.inodeFirstblock + inodeNum.toNat / inodePerBlock

/-- The byte offset of an inode's record in its block. -/
def inodeOffset (inodeNum : U32) : ℕ := inodeNum.toNat % inodePerBlock * 64

/-- `inode_rw(ip, true)` -/
def inodeWrite (sb : SuperBlock) (inodeNum : U32) (info : InodeDisk) (d : Disk) : Disk :=
  d.write (inodeBlock sb inodeNum)
    ((d (inodeBlock sb inodeNum)).blit (inodeOffset inodeNum) info.encode 64)

/-- `inode_rw(ip, false)` -/
def inodeRead (sb : SuperBlock) (inodeNum : U32) (d : Disk) : InodeDisk :=
  InodeDisk.decode (d (inodeBlock sb inodeNum)) (inodeOffset inodeNum)

/-! ## Reading and writing data -/

/-- What a transfer leaves behind: the bytes moved, the cached record, the buffer and the disk. -/
structure Transfer where
  count : ℕ
  index : Index
  buffer : Bytes
  disk : Disk

/-- Bytes moved in one pass of either loop: to the end of the block or of the request. -/
def chunkLen (cur stop : ℕ) : ℕ := min (blockSize - cur % blockSize) (stop - cur)

/-- The loop of `inode_read_data`; every pass moves at least one byte, so `stop - cur` passes are
enough. -/
def readLoop (sb : SuperBlock) (stop : ℕ) : (fuel cur : ℕ) → Transfer → Transfer
  | 0, _, t => t
  | fuel + 1, cur, t =>
    if cur < stop then
      let n := chunkLen cur stop
      let (physBlk, index, d) := locateOrAddBlock sb t.index (cur / blockSize) t.disk
      if physBlk = minusOne then { t with index := index, disk := d }
      else
        readLoop sb stop fuel (cur + n)
          { count := t.count + n
            index := index
            buffer := t.buffer.blit t.count (fun i => d physBlk.toNat (cur % blockSize + i)) n
            disk := d }
    else t

/-- `inode_read_data` into a kernel buffer. -/
def inodeReadData (sb : SuperBlock) (info : InodeDisk) (offset len : U32) (dst : Bytes)
    (d : Disk) : U32 × InodeDisk × Bytes × Disk :=
  let stop := min (offset + len).toNat info.size.toNat
  if info.type ≠ inodeTypeData ∧ info.type ≠ inodeTypeDir then (0, info, dst, d)
  else
    let t := readLoop sb stop (stop - offset.toNat) offset.toNat ⟨0, info.index, dst, d⟩
    (BitVec.ofNat 32 t.count, { info with index := t.index }, t.buffer, t.disk)

/-- The loop of `inode_write_data`. -/
def writeLoop (sb : SuperBlock) (src : Bytes) (stop : ℕ) : (fuel cur : ℕ) → Transfer → Transfer
  | 0, _, t => t
  | fuel + 1, cur, t =>
    if cur < stop then
      let n := chunkLen cur stop
      let (physBlk, index, d) := locateOrAddBlock sb t.index (cur / blockSize) t.disk
      if physBlk = minusOne then { t with index := index, disk := d }
      else
        writeLoop sb src stop fuel (cur + n)
          { count := t.count + n
            index := index
            buffer := t.buffer
            disk := d.write physBlk.toNat
              ((d physBlk.toNat).blit (cur % blockSize) (fun i => src (t.count + i)) n) }
    else t

/-- `inode_write_data` from a kernel buffer; the record goes to disk only when the file grows. -/
def inodeWriteData (sb : SuperBlock) (inodeNum : U32) (info : InodeDisk) (offset len : U32)
    (src : Bytes) (d : Disk) : U32 × InodeDisk × Disk :=
  let stop := (offset + len).toNat
  let t := writeLoop sb src stop (stop - offset.toNat) offset.toNat ⟨0, info.index, src, d⟩
  let written : U32 := BitVec.ofNat 32 t.count
  let info := { info with index := t.index }
  if 0 < written ∧ info.size < offset + written then
    let info := { info with size := offset + written }
    (written, info, inodeWrite sb inodeNum info t.disk)
  else (written, info, t.disk)

/-- The fields that `inode_create` gives a new inode. -/
def newInode (type major minor : U16) : InodeDisk := ⟨type, major, minor, 1, 0, Index.empty⟩

def inodeDelete (sb : SuperBlock) (inodeNum : U32) (info : InodeDisk) (d : Disk) :
    InodeDisk × Disk :=
  let r := freeDataBlocks sb info.index d
  let info := { info with index := r.1, size := 0 }
  (info, bitmapFreeInode sb inodeNum (inodeWrite sb inodeNum info r.2))

end LabKernel
