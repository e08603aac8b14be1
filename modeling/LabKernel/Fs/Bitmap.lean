import LabKernel.Fs.Layout

/-! # Bitmap allocators

`kernel/fs/bitmap.c`. A bitmap is a run of blocks read as one sequence of bits; `bitAt` is that
reading. Both allocators scan the blocks in order and take the lowest clear bit, so one definition
with parameters carries them, and its specification says which bit is taken and that no other
changes.
-/

namespace LabKernel

/-- Set bit `index` of a block found clear among its first `validCount` bits, or return `-1`. -/
def bitmapSearchAndSet (bitmapBlockNum validCount : ℕ) (d : Disk) : U32 × Disk :=
  match (List.range' 0 validCount).find? (fun i => !(d bitmapBlockNum).bit i) with
  | some i => (BitVec.ofNat 32 i, d.write bitmapBlockNum ((d bitmapBlockNum).setBit i))
  | none => (minusOne, d)

def bitmapClear (bitmapBlockNum index : ℕ) (d : Disk) : Disk :=
  d.write bitmapBlockNum ((d bitmapBlockNum).clearBit index)

/-- The scan over `n` more bitmap blocks starting with block `i`, `count` bits still to look at. -/
def bitmapAllocFrom (first base : ℕ) : (n i count : ℕ) → Disk → U32 × Disk
  | 0, _, _, d => (minusOne, d)
  | n + 1, i, count, d =>
    let searchLen := if count > bitPerBlock then bitPerBlock else count
    let r := bitmapSearchAndSet (first + i) searchLen d
    if r.1 ≠ minusOne then (BitVec.ofNat 32 (base + i * bitPerBlock + r.1.toNat), r.2)
    else bitmapAllocFrom first base n (i + 1) (count - searchLen) r.2

/-- The common body of the two allocators. -/
def bitmapAlloc (first blocks count base : ℕ) (d : Disk) : U32 × Disk :=
  bitmapAllocFrom first base blocks 0 count d

def bitmapAllocBlock (sb : SuperBlock) : Disk → U32 × Disk :=
  bitmapAlloc sb.dataBitmapFirstblock sb.dataBitmapBlocks sb.dataBlocks sb.dataFirstblock

def bitmapAllocInode (sb : SuperBlock) : Disk → U32 × Disk :=
  bitmapAlloc sb.inodeBitmapFirstblock sb.inodeBitmapBlocks sb.totalInodes 0

/-- `bitmap_free_block`; the subtraction wraps as in the source. -/
def bitmapFreeBlock (sb : SuperBlock) (blockNum : U32) (d : Disk) : Disk :=
  let offset := (blockNum - BitVec.ofNat 32 sb.dataFirstblock).toNat
  bitmapClear (sb.dataBitmapFirstblock + offset / bitPerBlock) (offset % bitPerBlock) d

def bitmapFreeInode (sb : SuperBlock) (inodeNum : U32) (d : Disk) : Disk :=
  bitmapClear (sb.inodeBitmapFirstblock + inodeNum.toNat / bitPerBlock)
    (inodeNum.toNat % bitPerBlock) d

/-! ## Bitmaps as bit sequences -/

namespace Disk

/-- Bit `k` of the bitmap whose first block is `first`. -/
def bitAt (d : Disk) (first k : ℕ) : Bool := (d (first + k / bitPerBlock)).bit (k % bitPerBlock)

def setBitAt (d : Disk) (first k : ℕ) : Disk :=
  d.write (first + k / bitPerBlock) ((d (first + k / bitPerBlock)).setBit (k % bitPerBlock))

def clearBitAt (d : Disk) (first k : ℕ) : Disk :=
  bitmapClear (first + k / bitPerBlock) (k % bitPerBlock) d

theorem setBitAt_other {d : Disk} {first k b : ℕ} (elsewhere : b ≠ first + k / bitPerBlock) :
    d.setBitAt first k b = d b := write_other elsewhere ..

theorem clearBitAt_other {d : Disk} {first k b : ℕ} (elsewhere : b ≠ first + k / bitPerBlock) :
    d.clearBitAt first k b = d b := write_other elsewhere ..

private theorem bit_position {k j : ℕ} (block : j / bitPerBlock = k / bitPerBlock) :
    j % bitPerBlock = k % bitPerBlock ↔ j = k := by
  simp only [bitPerBlock] at *
  omega

theorem bitAt_setBitAt (d : Disk) (first k j : ℕ) :
    (d.setBitAt first k).bitAt first j = (decide (j = k) || d.bitAt first j) := by
  unfold bitAt setBitAt
  by_cases block : j / bitPerBlock = k / bitPerBlock
  · rw [block, write_same, Bytes.bit_setBit, decide_eq_decide.mpr (bit_position block)]
  · rw [write_other (by omega), decide_eq_false (fun same => block (by rw [same])), Bool.false_or]

theorem bitAt_clearBitAt (d : Disk) (first k j : ℕ) :
    (d.clearBitAt first k).bitAt first j = (d.bitAt first j && !decide (j = k)) := by
  unfold bitAt clearBitAt bitmapClear
  by_cases block : j / bitPerBlock = k / bitPerBlock
  · rw [block, write_same, Bytes.bit_clearBit, decide_eq_decide.mpr (bit_position block)]
  · rw [write_other (by omega), decide_eq_false (fun same => block (by rw [same])), Bool.not_false,
      Bool.and_true]

/-- A write elsewhere leaves a bitmap alone. -/
theorem bitAt_congr {d e : Disk} {first k : ℕ}
    (same : d (first + k / bitPerBlock) = e (first + k / bitPerBlock)) :
    d.bitAt first k = e.bitAt first k := by
  rw [bitAt, bitAt, same]

/-- Bit `j` of bitmap block `i`. -/
theorem bitAt_block (d : Disk) (first i : ℕ) {j : ℕ} (small : j < bitPerBlock) :
    d.bitAt first (i * bitPerBlock + j) = (d (first + i)).bit j := by
  have positive : 0 < bitPerBlock := by decide
  rw [bitAt, Nat.mul_comm, Nat.mul_add_div positive, Nat.div_eq_of_lt small, Nat.mul_add_mod,
    Nat.mod_eq_of_lt small, Nat.add_zero]

theorem setBitAt_block (d : Disk) (first i : ℕ) {j : ℕ} (small : j < bitPerBlock) :
    d.setBitAt first (i * bitPerBlock + j) = d.write (first + i) ((d (first + i)).setBit j) := by
  have positive : 0 < bitPerBlock := by decide
  rw [setBitAt, Nat.mul_comm, Nat.mul_add_div positive, Nat.div_eq_of_lt small, Nat.mul_add_mod,
    Nat.mod_eq_of_lt small, Nat.add_zero]

end Disk

/-! ## What an allocation does -/

/-- The outcome of a scan: bit `k` is the lowest clear one and is set, or all `count` are set. -/
inductive BitmapTaken (first base count : ℕ) (d : Disk) : U32 × Disk → Prop
  | found (k : ℕ) (inside : k < count) (clear : d.bitAt first k = false)
      (lowest : ∀ j < k, d.bitAt first j = true) :
      BitmapTaken first base count d (BitVec.ofNat 32 (base + k), d.setBitAt first k)
  | full (all : ∀ j < count, d.bitAt first j = true) : BitmapTaken first base count d (minusOne, d)

/-- One search takes the lowest clear bit of its block among the valid ones. -/
theorem bitmapSearchAndSet_spec {block validCount : ℕ} (d : Disk) :
    (∃ i < validCount, (d block).bit i = false ∧ (∀ j < i, (d block).bit j = true) ∧
      bitmapSearchAndSet block validCount d =
        (BitVec.ofNat 32 i, d.write block ((d block).setBit i))) ∨
    (∀ j < validCount, (d block).bit j = true) ∧
      bitmapSearchAndSet block validCount d = (minusOne, d) := by
  unfold bitmapSearchAndSet
  cases search : (List.range' 0 validCount).find? (fun i => !(d block).bit i) with
  | some i =>
    obtain ⟨clear, member, lowest⟩ := List.find?_range'_eq_some.mp search
    simp only [List.mem_range'_1] at member
    refine Or.inl ⟨i, by omega, by simpa using clear, fun j before => ?_, rfl⟩
    simpa using lowest j (Nat.zero_le _) before
  | none =>
    refine Or.inr ⟨fun j bound => ?_, rfl⟩
    have := List.find?_range'_eq_none.mp search j (Nat.zero_le _) (by omega)
    simpa using this

theorem minusOne_ne_small {i : ℕ} (small : i < bitPerBlock) :
    BitVec.ofNat 32 i ≠ minusOne := by
  intro same
  have := congrArg BitVec.toNat same
  simp only [BitVec.toNat_ofNat, minusOne, bitPerBlock] at this small
  omega

private theorem bitmapAllocFrom_spec {first base total : ℕ} (d : Disk) (n i count : ℕ)
    (rest : count = total - i * bitPerBlock) (enough : count ≤ n * bitPerBlock)
    (scanned : ∀ j < total, j < i * bitPerBlock → d.bitAt first j = true) :
    BitmapTaken first base total d (bitmapAllocFrom first base n i count d) := by
  induction n generalizing i count with
  | zero =>
    refine .full fun j bound => scanned j bound ?_
    omega
  | succ n ih =>
    set searchLen := if count > bitPerBlock then bitPerBlock else count with length
    have fits : searchLen ≤ bitPerBlock := by rw [length]; split <;> omega
    have within : searchLen ≤ count := by rw [length]; split <;> omega
    obtain ⟨k, bound, clear, lowest, result⟩ | ⟨all, result⟩ :=
      @bitmapSearchAndSet_spec (first + i) searchLen d
    · have small : k < bitPerBlock := by omega
      have index : (BitVec.ofNat 32 k).toNat = k := by
        simp only [BitVec.toNat_ofNat, bitPerBlock] at *
        omega
      have written := (d.setBitAt_block first i small).symm
      have taken : bitmapAllocFrom first base (n + 1) i count d =
          (BitVec.ofNat 32 (base + (i * bitPerBlock + k)),
            d.setBitAt first (i * bitPerBlock + k)) := by
        simp only [bitmapAllocFrom, ← length, result, minusOne_ne_small small, ne_eq,
          not_false_eq_true, ↓reduceIte, index, written, Nat.add_assoc]
      rw [taken]
      refine .found _ (by omega) ?_ fun j before => ?_
      · rw [d.bitAt_block first i small, clear]
      · by_cases earlier : j < i * bitPerBlock
        · exact scanned j (by omega) earlier
        · obtain ⟨m, rfl⟩ := Nat.exists_eq_add_of_le (Nat.not_lt.mp earlier)
          rw [d.bitAt_block first i (by omega), lowest m (by omega)]
    · have skipped : bitmapAllocFrom first base (n + 1) i count d =
          bitmapAllocFrom first base n (i + 1) (count - searchLen) d := by
        simp only [bitmapAllocFrom, ← length, result, ne_eq, not_true_eq_false, ↓reduceIte]
      have next : (i + 1) * bitPerBlock = i * bitPerBlock + bitPerBlock := Nat.succ_mul ..
      have more : (n + 1) * bitPerBlock = n * bitPerBlock + bitPerBlock := Nat.succ_mul ..
      rw [skipped]
      refine ih (i + 1) _ ?_ ?_ fun j bound before => ?_
      · rw [length]; split <;> omega
      · rw [length]; split <;> omega
      · by_cases earlier : j < i * bitPerBlock
        · exact scanned j bound earlier
        · obtain ⟨m, rfl⟩ := Nat.exists_eq_add_of_le (Nat.not_lt.mp earlier)
          rw [d.bitAt_block first i (by omega)]
          refine all m ?_
          rw [length]; split <;> omega

/-- An allocator whose bitmap covers its range takes the lowest clear bit, or fails on a full one. -/
theorem bitmapAlloc_spec {first blocks count : ℕ} (base : ℕ) (d : Disk)
    (enough : count ≤ blocks * bitPerBlock) :
    BitmapTaken first base count d (bitmapAlloc first blocks count base d) :=
  bitmapAllocFrom_spec d blocks 0 count (by omega) enough (fun j _ before => by omega)

end LabKernel
