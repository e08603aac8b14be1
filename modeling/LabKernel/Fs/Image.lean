import LabKernel.Fs.Syscall

/-! # The image of `mkfs`

The disk that `mkfs/mkfs.c` builds: seven inodes, with the devices under `/dev` and two text files
in the root directory. Bytes that `mkfs` leaves uninitialised, behind the end of a name, are 0 here.
-/

namespace LabKernel

namespace Mkfs

/-- The directory entries of the root, in order. -/
def rootEntries : List (List U8 × U32) :=
  [([0x2E], 0), ([0x2E, 0x2E], 0), ([0x64, 0x65, 0x76], 1),
    ([0x41, 0x42, 0x43, 0x44, 0x2E, 0x74, 0x78, 0x74], 5),
    ([0x61, 0x62, 0x63, 0x64, 0x2E, 0x74, 0x78, 0x74], 6)]

/-- The directory entries of `/dev`, in order. -/
def devEntries : List (List U8 × U32) :=
  [([0x2E], 1), ([0x2E, 0x2E], 0), ([0x73, 0x74, 0x64, 0x69, 0x6E], 2),
    ([0x73, 0x74, 0x64, 0x6F, 0x75, 0x74], 3), ([0x73, 0x74, 0x64, 0x65, 0x72, 0x72], 4)]

/-- An index table that starts with the given blocks. -/
def indexOf (blocks : List U32) : Index := fun i => blocks.getD i.val 0

def records : List InodeDisk :=
  [⟨inodeTypeDir, 1, 1, 1, 320, indexOf [1028]⟩,
    ⟨inodeTypeDir, 1, 1, 1, 320, indexOf [1029]⟩,
    ⟨inodeTypeDevice, majorStdin, 0, 1, 0, Index.empty⟩,
    ⟨inodeTypeDevice, majorStdout, 0, 1, 0, Index.empty⟩,
    ⟨inodeTypeDevice, majorStderr, 0, 1, 0, Index.empty⟩,
    ⟨inodeTypeData, 1, 1, 1, 5200, indexOf [1030, 1031]⟩,
    ⟨inodeTypeData, 1, 1, 1, 13000, indexOf [1032, 1033, 1034, 1035]⟩]

def dirBlock (entries : List (List U8 × U32)) : Bytes := fun i =>
  match entries[i / 64]? with
  | some (name, inodeNum) => Dentry.encode ⟨nameOf name, inodeNum⟩ (i % 64)
  | none => 0

def inodeTable : Bytes := fun i =>
  match records[i / 64]? with
  | some record => record.encode (i % 64)
  | none => 0

/-- Block `k` of a text of `size` bytes that repeats 26 letters. Behind the end of the text are bytes of
the block before, which `inode_append` still has in its buffer. -/
def textBlock (first : U8) (size k : ℕ) : Bytes := fun i =>
  let letter x := first + BitVec.ofNat 8 (x % 26)
  if k * blockSize + i < size then letter (k * blockSize + i)
  else if 0 < k then letter ((k - 1) * blockSize + i)
  else 0

def disk : Disk := fun b =>
  if b = 1 then fun i => if i = 0 then 0x7F else 0
  else if b = 3 then inodeTable
  else if b = 1027 then fun i => if i = 0 then 0xFF else 0
  else if b = 1028 then dirBlock rootEntries
  else if b = 1029 then dirBlock devEntries
  else if b = 1030 ∨ b = 1031 then textBlock 0x41 5200 (b - 1030)
  else if 1032 ≤ b ∧ b ≤ 1035 then textBlock 0x61 13000 (b - 1032)
  else fun _ => 0

end Mkfs

end LabKernel
