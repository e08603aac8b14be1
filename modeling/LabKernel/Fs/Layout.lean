import LabKernel.Lib.Bytes

/-! # On-disk layout

The constants and records of `kernel/fs/type.h`: the super block, the 64-byte inode record with its
13 index entries and the 64-byte directory entry, with their encodings in a block. A disk maps block
numbers to block contents. `buffer_get`, `buffer_write` and `buffer_put` always come as a bracket
around an access to one block and every change is written through, so an access is modelled as a
read or a write of the disk itself.
-/

namespace LabKernel

def blockSize : ℕ := 4096

/-- The block at the sector that `virtio_disk_rw` computes; `block_num * (BLOCK_SIZE / 512)` is a 32-bit
product. -/
def diskBlock (blockNum : U32) : ℕ := (blockNum * 8).toNat / 8

/-- The block numbers that have a sector of their own. -/
def sectorBlocks : ℕ := 2 ^ 29

theorem diskBlock_eq {b : U32} (small : b.toNat < sectorBlocks) : diskBlock b = b.toNat := by
  rw [sectorBlocks] at small
  rw [diskBlock, BitVec.toNat_mul, show (8 : U32).toNat = 8 from rfl, Nat.mod_eq_of_lt (by omega)]
  omega

theorem diskBlock_lt (b : U32) : diskBlock b < sectorBlocks := by
  have small := (b * 8).isLt
  rw [diskBlock, sectorBlocks]
  omega

def bitPerBlock : ℕ := 32768

def inodePerBlock : ℕ := 64

def maxlenFilename : ℕ := 60

/-- Index entries that name a data block directly (`INODE_INDEX_1`). -/
def inodeIndex1 : ℕ := 10

/-- End of the single-indirect entries (`INODE_INDEX_2`). -/
def inodeIndex2 : ℕ := 12

/-- Number of index entries (`INODE_INDEX_3`). -/
def inodeIndex3 : ℕ := 13

/-- The `uint32` value that `-1` converts to; also `INVALID_INODE_NUM`. -/
def minusOne : U32 := 0xFFFFFFFF#32

def rootInode : U32 := 0

def inodeTypeData : U16 := 0
def inodeTypeDir : U16 := 1
def inodeTypeDevice : U16 := 2

structure SuperBlock where
  magicNum : ℕ
  blockSize : ℕ
  totalBlocks : ℕ
  totalInodes : ℕ
  inodeBitmapFirstblock : ℕ
  inodeBitmapBlocks : ℕ
  inodeFirstblock : ℕ
  inodeBlocks : ℕ
  dataBitmapFirstblock : ℕ
  dataBitmapBlocks : ℕ
  dataFirstblock : ℕ
  dataBlocks : ℕ
deriving DecidableEq, Repr

/-- The areas follow each other, each bitmap and the inode area cover what they describe, every inode number
is a `uint32` other than `-1`, and every block of the disk has a sector of its own. -/
structure SuperBlock.Sane (sb : SuperBlock) : Prop where
  inodeNums : sb.totalInodes < 2 ^ 32
  inodeBits : sb.totalInodes ≤ sb.inodeBitmapBlocks * bitPerBlock
  inodeBitmapEnd : sb.inodeBitmapFirstblock + sb.inodeBitmapBlocks ≤ sb.inodeFirstblock
  inodeRecords : sb.totalInodes ≤ sb.inodeBlocks * inodePerBlock
  inodeEnd : sb.inodeFirstblock + sb.inodeBlocks ≤ sb.dataBitmapFirstblock
  dataBits : sb.dataBlocks ≤ sb.dataBitmapBlocks * bitPerBlock
  dataBitmapEnd : sb.dataBitmapFirstblock + sb.dataBitmapBlocks ≤ sb.dataFirstblock
  sectors : sb.dataFirstblock + sb.dataBlocks ≤ sectorBlocks
  dataPositive : 0 < sb.dataFirstblock

theorem SuperBlock.Sane.dataEnd {sb : SuperBlock} (sane : sb.Sane) :
    sb.dataFirstblock + sb.dataBlocks < 2 ^ 32 := Nat.lt_of_le_of_lt sane.sectors (by decide)

/-- The super block that `mkfs` writes. -/
def mkfsSuperBlock : SuperBlock where
  magicNum := 0x12341234
  blockSize := 4096
  totalBlocks := 33796
  totalInodes := 65536
  inodeBitmapFirstblock := 1
  inodeBitmapBlocks := 2
  inodeFirstblock := 3
  inodeBlocks := 1024
  dataBitmapFirstblock := 1027
  dataBitmapBlocks := 1
  dataFirstblock := 1028
  dataBlocks := 32768

theorem mkfsSuperBlock_sane : mkfsSuperBlock.Sane := by
  constructor <;> decide

/-- The thirteen block numbers of an inode. -/
abbrev Index := Fin 13 → U32

namespace Index

/-- `inode_index[i]` -/
def get (index : Index) (i : ℕ) : U32 := if bound : i < 13 then index ⟨i, bound⟩ else 0

/-- `inode_index[i] = v` -/
def set (index : Index) (i : ℕ) (v : U32) : Index := fun j => if j.val = i then v else index j

def empty : Index := fun _ => 0

theorem get_set {i : ℕ} (bound : i < 13) (index : Index) (v : U32) (j : ℕ) :
    (index.set i v).get j = if j = i then v else index.get j := by
  by_cases inside : j < 13
  · simp only [get, set, inside, dite_true]
  · rw [if_neg (show j ≠ i by omega), get, get, dif_neg inside, dif_neg inside]

@[simp] theorem get_empty (i : ℕ) : empty.get i = 0 := by
  simp [get, empty]

theorem ext_get {a b : Index} (same : ∀ i < 13, a.get i = b.get i) : a = b := by
  funext i
  simpa only [get, i.isLt, dite_true] using same i.val i.isLt

end Index

@[ext] structure InodeDisk where
  type : U16
  major : U16
  minor : U16
  nlink : U16
  size : U32
  index : Index

namespace InodeDisk

/-- The 64 bytes of a record. -/
def encode (r : InodeDisk) : Bytes := fun i =>
  if i < 2 then Bytes.leBytes r.type.toNat i
  else if i < 4 then Bytes.leBytes r.major.toNat (i - 2)
  else if i < 6 then Bytes.leBytes r.minor.toNat (i - 4)
  else if i < 8 then Bytes.leBytes r.nlink.toNat (i - 6)
  else if i < 12 then Bytes.leBytes r.size.toNat (i - 8)
  else Bytes.leBytes (r.index.get ((i - 12) / 4)).toNat ((i - 12) % 4)

/-- The record at an offset of a block. -/
def decode (b : Bytes) (off : ℕ) : InodeDisk where
  type := b.u16 off
  major := b.u16 (off + 2)
  minor := b.u16 (off + 4)
  nlink := b.u16 (off + 6)
  size := b.u32 (off + 8)
  index := fun i => b.u32 (off + 12 + 4 * i.val)

theorem decode_congr {b c : Bytes} {p q : ℕ} (same : ∀ i < 64, b (p + i) = c (q + i)) :
    decode b p = decode c q := by
  have field16 (k : ℕ) (fits : k + 2 ≤ 64) : b.u16 (p + k) = c.u16 (q + k) :=
    Bytes.u16_congr fun i bound => by
      rw [Nat.add_assoc, Nat.add_assoc]; exact same _ (by omega)
  have field32 (k : ℕ) (fits : k + 4 ≤ 64) : b.u32 (p + k) = c.u32 (q + k) :=
    Bytes.u32_congr fun i bound => by
      rw [Nat.add_assoc, Nat.add_assoc]; exact same _ (by omega)
  have index : (fun i : Fin 13 => b.u32 (p + 12 + 4 * i.val)) =
      fun i : Fin 13 => c.u32 (q + 12 + 4 * i.val) := by
    funext i
    rw [Nat.add_assoc, Nat.add_assoc]
    exact field32 _ (by omega)
  rw [decode, decode, index, show b.u16 p = c.u16 q from field16 0 (by omega),
    field16 2 (by omega), field16 4 (by omega), field16 6 (by omega), field32 8 (by omega)]

/-- Encoding then decoding a record loses nothing. -/
@[simp] theorem decode_encode (r : InodeDisk) : decode r.encode 0 = r := by
  have field16 (k : ℕ) (v : U16) (at16 : ∀ i < 2, r.encode (k + i) = Bytes.leBytes v.toNat i) :
      r.encode.u16 k = v := by
    rw [Bytes.u16_congr (c := Bytes.leBytes v.toNat) (q := 0) (by simpa using at16),
      Bytes.u16_leBytes]
  have field32 (k : ℕ) (v : U32) (at32 : ∀ i < 4, r.encode (k + i) = Bytes.leBytes v.toNat i) :
      r.encode.u32 k = v := by
    rw [Bytes.u32_congr (c := Bytes.leBytes v.toNat) (q := 0) (by simpa using at32),
      Bytes.u32_leBytes]
  have type : r.encode.u16 0 = r.type := field16 0 _ fun i bound => by
    simp only [Nat.zero_add, encode, bound, ↓reduceIte]
  have major : r.encode.u16 2 = r.major := field16 2 _ fun i bound => by
    simp only [encode, show ¬2 + i < 2 by omega, show 2 + i < 4 by omega, ↓reduceIte,
      Nat.add_sub_cancel_left]
  have minor : r.encode.u16 4 = r.minor := field16 4 _ fun i bound => by
    simp only [encode, show ¬4 + i < 2 by omega, show ¬4 + i < 4 by omega, show 4 + i < 6 by omega,
      ↓reduceIte, Nat.add_sub_cancel_left]
  have nlink : r.encode.u16 6 = r.nlink := field16 6 _ fun i bound => by
    simp only [encode, show ¬6 + i < 2 by omega, show ¬6 + i < 4 by omega, show ¬6 + i < 6 by omega,
      show 6 + i < 8 by omega, ↓reduceIte, Nat.add_sub_cancel_left]
  have size : r.encode.u32 8 = r.size := field32 8 _ fun i bound => by
    simp only [encode, show ¬8 + i < 2 by omega, show ¬8 + i < 4 by omega, show ¬8 + i < 6 by omega,
      show ¬8 + i < 8 by omega, show 8 + i < 12 by omega, ↓reduceIte, Nat.add_sub_cancel_left]
  have index (k : Fin 13) : r.encode.u32 (12 + 4 * k.val) = r.index k := by
    apply field32
    intro i bound
    have entry : (12 + 4 * k.val + i - 12) / 4 = k.val := by omega
    have byte : (12 + 4 * k.val + i - 12) % 4 = i := by omega
    simp only [encode, show ¬12 + 4 * k.val + i < 2 by omega, show ¬12 + 4 * k.val + i < 4 by omega,
      show ¬12 + 4 * k.val + i < 6 by omega, show ¬12 + 4 * k.val + i < 8 by omega,
      show ¬12 + 4 * k.val + i < 12 by omega, ↓reduceIte, entry, byte, Index.get, k.isLt,
      dite_true]
  ext1
  · exact type
  · exact major
  · exact minor
  · exact nlink
  · exact size
  · funext k
    simpa only [decode, Nat.zero_add] using index k

end InodeDisk

/-- `dentry_t`: the name field is read up to `maxlenFilename` bytes. -/
structure Dentry where
  name : Bytes
  inodeNum : U32

namespace Dentry

/-- The 64 bytes of a directory entry. -/
def encode (de : Dentry) : Bytes := fun i =>
  if i < maxlenFilename then de.name i else Bytes.leBytes de.inodeNum.toNat (i - maxlenFilename)

/-- The directory entry at an offset of a buffer. -/
def decode (b : Bytes) (off : ℕ) : Dentry := ⟨fun i => b (off + i), b.u32 (off + maxlenFilename)⟩

end Dentry

/-- Contents of every block. -/
abbrev Disk := ℕ → Bytes

namespace Disk

/-- `buffer_write` of a whole block. -/
def write (d : Disk) (b : ℕ) (block : Bytes) : Disk := fun k => if k = b then block else d k

@[simp] theorem write_same (d : Disk) (b : ℕ) (block : Bytes) : d.write b block b = block :=
  if_pos rfl

theorem write_other {b k : ℕ} (different : k ≠ b) (d : Disk) (block : Bytes) :
    d.write b block k = d k := if_neg different

/-- Entry `j` of the block read as a table of `uint32`. -/
def entry (d : Disk) (b j : ℕ) : U32 := (d b).u32 (4 * j)

end Disk

end LabKernel
