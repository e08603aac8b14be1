import LabKernel.Fs.Allocators
import LabKernel.Fs.Image

/-! # Freeing a number that a user names

`sys_free_block` and `sys_free_inode` (`kernel/syscall/sysfunc.c`) hand the argument of the user to
`bitmap_free_block` and `bitmap_free_inode`, which look at no range: the subtraction of the first
data block wraps, and a number past the end names a bit of a later area. The super blocks are those
`mkfs` lays out for any number of inodes and data blocks; its byte offsets are 32-bit values, so an
image has at most `2 ^ 20` blocks. A block past the end of the image is no part of the disk, and the
device refuses a request for it.
-/

namespace LabKernel

namespace Mkfs

def countBlocks (eleNum elePerBlock : ℕ) : ℕ := (eleNum + elePerBlock - 1) / elePerBlock

/-- The super block that `main` fills in for `N_INODE` and `N_DATA_BLOCK`. -/
def layout (nInode nDataBlock : ℕ) : SuperBlock where
  magicNum := 0x12341234
  blockSize := LabKernel.blockSize
  inodeBitmapFirstblock := 1
  inodeBitmapBlocks := countBlocks nInode bitPerBlock
  inodeFirstblock := 1 + countBlocks nInode bitPerBlock
  inodeBlocks := countBlocks nInode inodePerBlock
  dataBitmapFirstblock := 1 + countBlocks nInode bitPerBlock + countBlocks nInode inodePerBlock
  dataBitmapBlocks := countBlocks nDataBlock bitPerBlock
  dataFirstblock := 1 + countBlocks nInode bitPerBlock + countBlocks nInode inodePerBlock +
    countBlocks nDataBlock bitPerBlock
  dataBlocks := nDataBlock
  totalInodes := nInode
  totalBlocks := 1 + countBlocks nInode bitPerBlock + countBlocks nInode inodePerBlock +
    countBlocks nDataBlock bitPerBlock + nDataBlock

-- the numbers in `mkfs.h` give the super block of the image
example : layout (1 <<< 16) (32 * 1024) = mkfsSuperBlock := by decide

/-- Enough blocks of `elePerBlock` entries for all entries. -/
theorem le_countBlocks {eleNum elePerBlock : ℕ} (positive : 0 < elePerBlock) :
    eleNum ≤ countBlocks eleNum elePerBlock * elePerBlock := by
  have whole := Nat.div_add_mod (eleNum + elePerBlock - 1) elePerBlock
  have part := Nat.mod_lt (eleNum + elePerBlock - 1) positive
  rw [Nat.mul_comm] at whole
  rw [countBlocks]
  omega

/-- Every image that `mkfs` can write has its bitmaps apart and its numbers in range. -/
theorem layout_apart {nInode nDataBlock : ℕ} (fits : (layout nInode nDataBlock).totalBlocks ≤ 2 ^ 20) :
    (layout nInode nDataBlock).BitmapsApart := by
  have inodes := @le_countBlocks nInode inodePerBlock (by decide)
  simp only [layout] at fits
  refine ⟨Or.inl ?_, le_countBlocks (by decide), le_countBlocks (by decide), ?_, ?_, ?_, ?_⟩
  · simp only [layout]
    omega
  · simp only [layout, inodePerBlock] at *
    omega
  · simp only [layout]
    omega
  · simp only [layout, sectorBlocks]
    omega
  · simp only [layout, sectorBlocks]
    omega

end Mkfs

/-! ## The system calls -/

/-- `sys_free_block`, with the register of the argument. -/
def sysFreeBlock (sb : SuperBlock) (a0 : U64) (d : Disk) : U64 × Disk :=
  (0, bitmapFreeBlock sb (a0.setWidth 32) d)

def sysFreeInode (sb : SuperBlock) (a0 : U64) (d : Disk) : U64 × Disk :=
  (0, bitmapFreeInode sb (a0.setWidth 32) d)

namespace Area

/-- `sys_free_inode` or `sys_free_block` -/
def sysFree (sb : SuperBlock) : Area → U64 → Disk → U64 × Disk
  | inode => sysFreeInode sb
  | block => sysFreeBlock sb

/-- The allocator can return this number. -/
def Allocatable (sb : SuperBlock) (a : Area) (n : U32) : Prop :=
  a.base sb ≤ n.toNat ∧ n.toNat < a.base sb + a.count sb

/-- The bit that a free of number `n` clears. -/
def bitOf (sb : SuperBlock) (a : Area) (n : U32) : ℕ := (n - BitVec.ofNat 32 (a.base sb)).toNat

variable {sb : SuperBlock}

private theorem free_clears (sb : SuperBlock) (a : Area) (n : U32) (d : Disk) :
    a.free sb n d = d.clearBitAt (a.first sb) (a.bitOf sb n) := by
  cases a with
  | inode =>
    rw [bitOf, show BitVec.ofNat 32 (base sb inode) = 0#32 from rfl, BitVec.sub_zero]
    rfl
  | block => rfl

private theorem sysFree_clears (sb : SuperBlock) (a : Area) (a0 : U64) (d : Disk) :
    (a.sysFree sb a0 d).2 = d.clearBitAt (a.first sb) (a.bitOf sb (a0.setWidth 32)) := by
  rw [← free_clears]
  cases a <;> rfl

/-- A number in range names the bit that the allocator set for it. -/
theorem bitOf_allocatable (layout : sb.BitmapsApart) {a : Area} {n : U32}
    (allocatable : a.Allocatable sb n) : a.bitOf sb n = n.toNat - a.base sb := by
  have numbers := a.numbers layout
  obtain ⟨low, high⟩ := allocatable
  have base : (BitVec.ofNat 32 (a.base sb)).toNat = a.base sb := by
    rw [BitVec.toNat_ofNat, Nat.mod_eq_of_lt (by omega)]
  rw [bitOf, BitVec.toNat_sub_of_le (by rw [BitVec.le_def, base]; exact low), base]

end Area

/-! ## What a free changes -/

namespace Disk

/-- The bits of the disk that differ, each named by its block and its place there. -/
def changed (sb : SuperBlock) (d e : Disk) : Set (ℕ × ℕ) :=
  {p | p.1 < sb.totalBlocks ∧ p.2 < bitPerBlock ∧ (e p.1).bit p.2 ≠ (d p.1).bit p.2}

/-- Where bit `k` of a bitmap lies. -/
def place (first k : ℕ) : ℕ × ℕ := (first + k / bitPerBlock, k % bitPerBlock)

variable {sb : SuperBlock}

/-- Clearing a bit changes this bit and no other, and only where it was set and on the disk. -/
theorem changed_clearBitAt (sb : SuperBlock) (d : Disk) (first k : ℕ) (p : ℕ × ℕ) :
    p ∈ changed sb d (d.clearBitAt first k) ↔
      p = place first k ∧ first + k / bitPerBlock < sb.totalBlocks ∧ d.bitAt first k = true := by
  obtain ⟨b, i⟩ := p
  simp only [changed, place, Set.mem_ofPred_eq, Prod.mk.injEq]
  have small : k % bitPerBlock < bitPerBlock := Nat.mod_lt _ (by decide)
  by_cases block : b = first + k / bitPerBlock
  · rw [block, clearBitAt, bitmapClear, write_same, Bytes.bit_clearBit, bitAt]
    by_cases bit : i = k % bitPerBlock
    · simp only [bit, small, decide_true, Bool.not_true, Bool.and_false, ne_eq, true_and,
        Bool.false_eq, Bool.not_eq_false]
    · simp only [bit, decide_false, Bool.not_false, Bool.and_true, ne_eq, not_true_eq_false,
        and_false, false_and]
  · simp only [clearBitAt_other block, ne_eq, not_true_eq_false, and_false, block, false_and]

end Disk

/-- A free changes at most one bit of the disk, which lies in the blocks of its own bitmap below the
number of bits in use, and nothing at all for a number that no allocation returns. -/
structure Area.FreesOnly (sb : SuperBlock) (a : Area) (n : U32) (d e : Disk) : Prop where
  one : (Disk.changed sb d e).Subsingleton
  inside : ∀ p ∈ Disk.changed sb d e, ∃ k < a.count sb, p = Disk.place (a.first sb) k ∧
    p.1 < a.first sb + a.blocks sb
  outside : ¬a.Allocatable sb n → Disk.changed sb d e = ∅

/-- On every disk and for every argument, a free touches only its bitmap exactly if the number is one
that an allocation returns, or the bit it names is past the end of the disk or clear already. -/
theorem sysFree_frees_only {nInode nDataBlock : ℕ}
    (fits : (Mkfs.layout nInode nDataBlock).totalBlocks ≤ 2 ^ 20) (a : Area) (a0 : U64) (d : Disk) :
    let sb := Mkfs.layout nInode nDataBlock
    let k := a.bitOf sb (a0.setWidth 32)
    a.FreesOnly sb (a0.setWidth 32) d (a.sysFree sb a0 d).2 ↔
      a.Allocatable sb (a0.setWidth 32) ∨ sb.totalBlocks ≤ a.first sb + k / bitPerBlock ∨
        d.bitAt (a.first sb) k = false := by
  intro sb k
  have layout : sb.BitmapsApart := Mkfs.layout_apart fits
  have changes := Disk.changed_clearBitAt sb d (a.first sb) k
  rw [a.sysFree_clears]
  constructor
  · intro only
    by_contra! fails
    obtain ⟨unallocatable, present, taken⟩ := fails
    have change := (changes (Disk.place (a.first sb) k)).mpr ⟨rfl, present, by simpa using taken⟩
    rw [only.outside unallocatable] at change
    exact change
  · intro condition
    refine ⟨fun p left q right => ?_, fun p change => ?_, fun unallocatable => ?_⟩
    · rw [((changes p).mp left).1, ((changes q).mp right).1]
    · obtain ⟨rfl, present, taken⟩ := (changes p).mp change
      obtain allocatable | off | clear := condition
      · have bit : k < a.count sb := by
          have := allocatable.2
          rw [show k = _ from Area.bitOf_allocatable layout allocatable]
          have := allocatable.1
          omega
        have enough := a.enough layout
        refine ⟨k, bit, rfl, Nat.add_lt_add_left (Nat.div_lt_of_lt_mul ?_) _⟩
        rw [Nat.mul_comm]
        omega
      · omega
      · rw [clear] at taken
        cases taken
    · refine Set.eq_empty_of_forall_notMem fun p change => ?_
      obtain ⟨-, present, taken⟩ := (changes p).mp change
      obtain allocatable | off | clear := condition
      · exact unallocatable allocatable
      · omega
      · rw [clear] at taken
        cases taken

/-- A file's block is freed and given back as one bit of the data bitmap. -/
theorem sysFree_frees_only_text :
    Area.FreesOnly (Mkfs.layout (1 <<< 16) (32 * 1024)) .block 1030 Mkfs.disk
      (Area.block.sysFree (Mkfs.layout (1 <<< 16) (32 * 1024)) 1030 Mkfs.disk).2 :=
  (sysFree_frees_only (by decide) .block 1030 Mkfs.disk).mpr (Or.inl ⟨by decide, by decide⟩)

/-- `sys_free_block(33797)` on a fresh image: one past the last data block but one names the second
bit of the root directory, and its entry `.` turns into `,`. -/
theorem sysFree_leaves_bitmap :
    ¬Area.FreesOnly mkfsSuperBlock .block 33797 Mkfs.disk
      (Area.block.sysFree mkfsSuperBlock 33797 Mkfs.disk).2 := by
  intro only
  have change : Disk.place 1027 32769 ∈ Disk.changed mkfsSuperBlock Mkfs.disk
      (Area.block.sysFree mkfsSuperBlock 33797 Mkfs.disk).2 := by
    rw [Area.sysFree_clears]
    exact (Disk.changed_clearBitAt _ _ _ _ _).mpr ⟨rfl, by decide, by decide +kernel⟩
  rw [only.outside (by simp only [Area.Allocatable]; decide)] at change
  exact change

end LabKernel
