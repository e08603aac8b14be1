import LabKernel.Fs.FileData

/-! # Inode records and data requests

The records of different inodes do not overlap, and `inode_rw` reads back what it wrote. The two
requests `inodeReadData` and `inodeWriteData` are passes over the requested range, cut to the file
size when reading and followed by a record write when the file grows.
-/

namespace LabKernel

open BlockTrees

variable {sb : SuperBlock}

/-! ## Records -/

theorem inodeBlock_low (sane : sb.Sane) {inodeNum : U32} (inside : inodeNum.toNat < sb.totalInodes) :
    inodeBlock sb inodeNum < sb.dataBitmapFirstblock := by
  have block : inodeNum.toNat / inodePerBlock < sb.inodeBlocks :=
    Nat.div_lt_of_lt_mul (by rw [Nat.mul_comm]; exact Nat.lt_of_lt_of_le inside sane.inodeRecords)
  have := sane.inodeEnd
  rw [inodeBlock]
  omega

theorem inodeBlock_high (sb : SuperBlock) (inodeNum : U32) :
    sb.inodeFirstblock ≤ inodeBlock sb inodeNum := Nat.le_add_right ..

/-- `inode_rw` reads back the record it wrote. -/
@[simp] theorem inodeRead_inodeWrite (sb : SuperBlock) (inodeNum : U32) (info : InodeDisk)
    (d : Disk) : inodeRead sb inodeNum (inodeWrite sb inodeNum info d) = info := by
  rw [inodeRead, inodeWrite, Disk.write_same, ← InodeDisk.decode_encode info]
  refine InodeDisk.decode_congr fun i bound => ?_
  rw [InodeDisk.decode_encode, Bytes.blit_inside (by omega) (by omega), Nat.add_sub_cancel_left,
    Nat.zero_add]

/-- Writing one record leaves the others alone. -/
theorem inodeRead_inodeWrite_other (sb : SuperBlock) {inodeNum other : U32}
    (different : other ≠ inodeNum) (info : InodeDisk) (d : Disk) :
    inodeRead sb other (inodeWrite sb inodeNum info d) = inodeRead sb other d := by
  have apart : other.toNat ≠ inodeNum.toNat := fun same => different (BitVec.eq_of_toNat_eq same)
  rw [inodeRead, inodeRead]
  refine InodeDisk.decode_congr fun i bound => ?_
  rw [inodeWrite]
  by_cases block : inodeBlock sb other = inodeBlock sb inodeNum
  · rw [block, Disk.write_same, Bytes.blit_outside]
    simp only [inodeBlock, inodeOffset, inodePerBlock] at *
    omega
  · rw [Disk.write_other block]

/-- A record depends on its block only. -/
theorem inodeRead_congr {inodeNum : U32} {d e : Disk}
    (same : d (inodeBlock sb inodeNum) = e (inodeBlock sb inodeNum)) :
    inodeRead sb inodeNum d = inodeRead sb inodeNum e := by
  rw [inodeRead, inodeRead, same]

theorem inodeWrite_other {inodeNum : U32} {b : ℕ} (other : b ≠ inodeBlock sb inodeNum)
    (info : InodeDisk) (d : Disk) : inodeWrite sb inodeNum info d b = d b :=
  Disk.write_other other ..

/-! ## Requests -/

theorem BlockTrees.Passes.count_le {t : U32} {stop : ℕ}
    {handle : ℕ → BlockTrees → BlockTrees → Prop} {cur m : ℕ} {s s' : BlockTrees}
    (passes : Passes sb t stop handle cur s m s') : m ≤ stop - cur := by
  by_cases start : cur ≤ stop
  · have := passes.length start
    omega
  · cases passes with
    | done => exact Nat.zero_le _
    | full => exact Nat.zero_le _
    | block more => omega

/-- Where a read ends: at the end of the request or of the file, and at once for a device. -/
def readStop (info : InodeDisk) (offset len : U32) : ℕ :=
  if info.type ≠ inodeTypeData ∧ info.type ≠ inodeTypeDir then 0
  else min (offset + len).toNat info.size.toNat

theorem readStop_le (info : InodeDisk) (offset len : U32) : readStop info offset len ≤ 2 ^ 32 := by
  have := info.size.isLt
  unfold readStop
  split <;> omega

/-- A read is a reading pass that copies bytes of the file to the buffer. -/
theorem inodeReadData_spec (sane : sb.Sane) {s : BlockTrees} (owned : Owned sb s) {t : U32}
    {info : InodeDisk} (loaded : info.index = s.index t) (offset len : U32) (dst : Bytes) :
    let r := inodeReadData sb info offset len dst s.disk
    ∃ m, Passes sb t (readStop info offset len) reading offset.toNat s m
        (s.put t r.2.1.index r.2.2.2) ∧
      r.1.toNat = m ∧ r.2.1 = { info with index := r.2.1.index } ∧
      r.2.2.1 = dst.blit 0 (fun i => s.fileByte t (offset.toNat + i)) m := by
  unfold inodeReadData readStop
  by_cases device : info.type ≠ inodeTypeData ∧ info.type ≠ inodeTypeDir
  · simp only [if_pos device]
    refine ⟨0, ?_, rfl, trivial, (Bytes.blit_zero ..).symm⟩
    rw [loaded, put_same]
    exact .done (Nat.zero_le _)
  · simp only [if_neg device]
    have limit : min (offset + len).toNat info.size.toNat ≤ 2 ^ 32 := by
      have := info.size.isLt
      omega
    obtain ⟨m, passes, count, buffer⟩ := readLoop_passes sane limit _ offset.toNat (Nat.le_refl _)
      owned ⟨0, info.index, dst, s.disk⟩ loaded rfl
    have small := passes.count_le
    refine ⟨m, passes, ?_, trivial, buffer⟩
    rw [count, Nat.zero_add, BitVec.toNat_ofNat, Nat.mod_eq_of_lt]
    have := info.size.isLt
    omega

/-- The record after `m` bytes were written at `offset`, with the index table the pass left. -/
def grownRecord (info : InodeDisk) (index : Index) (offset : U32) (m : ℕ) : InodeDisk :=
  { info with
    index := index
    size := if 0 < m ∧ info.size.toNat < offset.toNat + m then BitVec.ofNat 32 (offset.toNat + m)
      else info.size }

/-- A write is a writing pass; a record that grew is written to disk, another one is not. -/
theorem inodeWriteData_spec (sane : sb.Sane) {s : BlockTrees} (owned : Owned sb s) {t : U32}
    {info : InodeDisk} (loaded : info.index = s.index t) (offset len : U32) (src : Bytes) :
    let r := inodeWriteData sb t info offset len src s.disk
    ∃ m s₁, Passes sb t (offset + len).toNat (writing t src offset.toNat (offset + len).toNat)
        offset.toNat s m s₁ ∧
      r.1.toNat = m ∧ r.2.1 = grownRecord info (s₁.index t) offset m ∧
      r.2.2 = if 0 < m ∧ info.size.toNat < offset.toNat + m then inodeWrite sb t r.2.1 s₁.disk
        else s₁.disk := by
  have limit : (offset + len).toNat ≤ 2 ^ 32 := Nat.le_of_lt (offset + len).isLt
  obtain ⟨m, passes, count⟩ := writeLoop_passes sane limit src offset.toNat _ offset.toNat
    (Nat.le_refl _) owned ⟨0, info.index, src, s.disk⟩ loaded rfl (Nat.add_zero _).symm
  have small := passes.count_le
  have top := (offset + len).isLt
  rw [Nat.zero_add] at count
  unfold inodeWriteData
  dsimp only
  generalize writeLoop sb src (offset + len).toNat _ _ _ = tr at passes count ⊢
  rw [count]
  have written : (BitVec.ofNat 32 m).toNat = m := by
    rw [BitVec.toNat_ofNat, Nat.mod_eq_of_lt (by omega)]
  have sum (some : 0 < m) : (offset + BitVec.ofNat 32 m).toNat = offset.toNat + m := by
    rw [BitVec.toNat_add, written, Nat.mod_eq_of_lt (by omega)]
  have grows : (0 < BitVec.ofNat 32 m ∧ info.size < offset + BitVec.ofNat 32 m) ↔
      0 < m ∧ info.size.toNat < offset.toNat + m := by
    have positive : 0 < BitVec.ofNat 32 m ↔ 0 < m := by
      rw [BitVec.lt_def, written]
      rfl
    rw [positive, BitVec.lt_def]
    exact and_congr_right fun some => by rw [sum some]
  by_cases grow : 0 < m ∧ info.size.toNat < offset.toNat + m
  · have size : offset + BitVec.ofNat 32 m = BitVec.ofNat 32 (offset.toNat + m) := by
      apply BitVec.eq_of_toNat_eq
      rw [sum grow.1, BitVec.toNat_ofNat, Nat.mod_eq_of_lt (by omega)]
    rw [if_pos (grows.mpr grow)]
    refine ⟨m, _, passes, written, ?_, ?_⟩
    · rw [grownRecord, if_pos grow, put_index, size]
    · rw [if_pos grow, put_disk]
  · rw [if_neg (grows.not.mpr grow)]
    refine ⟨m, _, passes, written, ?_, ?_⟩
    · rw [grownRecord, if_neg grow, put_index]
    · rw [if_neg grow, put_disk]

end LabKernel
